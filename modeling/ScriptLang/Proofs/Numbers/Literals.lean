import ScriptLang.Proofs.Numbers.Printing
import ScriptLang.Stmt.Printer

/-! Number literals. Digits are never read as the undefined number, and from the text of a literal
in a tree the number can be read back. -/

namespace ScriptLang

namespace Number

section Unpacked

open Float.Model Float.Model.UnpackedFloat

/-! ### Digits stand for a number -/

theorem roundWithAccuracy_ne (spec : Format) (sign : Sign) (m : ℕ) (e : ℤ) (accuracy : Accuracy) :
    roundWithAccuracy spec sign m e accuracy ≠ .notANumber := by
  simp only [roundWithAccuracy]
  split <;> simp

theorem div_finite_ne (spec : Format) {u : UnpackedFloat} (hu : u ≠ .notANumber) (sign : Sign)
    {m : ℕ} (e : ℤ) (hm : 0 < m) :
    UnpackedFloat.div spec u (.finite sign m e hm) ≠ .notANumber := by
  cases u with
  | notANumber => exact absurd rfl hu
  | infinity | zero => simp [UnpackedFloat.div]
  | finite => exact roundWithAccuracy_ne _ _ _ _ _

theorem normalize_ne (spec : Format) (m e : ℤ) (sign : Sign) :
    UnpackedFloat.normalize spec m e sign ≠ .notANumber := by
  unfold UnpackedFloat.normalize
  split
  · exact roundWithAccuracy_ne _ _ _ _ _
  · simp
  · exact roundWithAccuracy_ne _ _ _ _ _

theorem ofScientific_ne (spec : Format) (m : ℕ) (e : ℤ) :
    UnpackedFloat.ofScientific spec m e ≠ .notANumber := by
  unfold UnpackedFloat.ofScientific
  split
  · simp
  · split
    · simp
    · split
      · simp
      · split
        · exact roundWithAccuracy_ne _ _ _ _ _
        · exact div_finite_ne spec (by simp) _ _ _

/-- The field of the exponent of a number that is not infinite is not full. -/
theorem ofNat_ne_full {n : ℕ} (hn : ¬ 2 ^ 11 ≤ n + 1) : BitVec.ofNat 11 n ≠ -1#11 := by
  intro hfull
  have hnat : n % 2 ^ 11 = 2047 := congrArg BitVec.toNat hfull
  omega

/-- What is not undefined stays so when it is packed into bits. -/
theorem isNaNBits_pack {u : UnpackedFloat} (hu : u ≠ .notANumber) :
    isNaNBits (u.pack Format.binary64) = false := by
  cases u with
  | notANumber => exact absurd rfl hu
  | infinity => simp [UnpackedFloat.pack, packedInfinity, isNaNBits]
  | zero => simp [UnpackedFloat.pack, packedZero, isNaNBits]
  | finite sign m e hm =>
      simp only [UnpackedFloat.pack]
      split
      · simp [packedInfinity, isNaNBits]
      · split
        · rename_i hsmall _
          rw [isNaNBits, unpackExponent_packComponents]
          exact decide_eq_false fun h => ofNat_ne_full hsmall h.1
        · simp [isNaNBits]

theorem unpack_pack_ne {u : UnpackedFloat} (hu : u ≠ .notANumber) :
    (Float.Model.pack u).unpack ≠ .notANumber := by
  intro hnan
  have hpacked := (@unpack_eq_notANumber_iff_of_valid Format.binary64 _ (Float.Model.pack u).valid
    (by decide)).mp hnan
  have hbits := isNaNBits_pack hu
  rw [show u.pack Format.binary64 = _ from hpacked, isNaNBits_packedNaN] at hbits
  cases hbits

theorem unpack_toFloat_ne (n : UInt64) : n.toFloat.toModel.unpack ≠ .notANumber :=
  unpack_pack_ne (normalize_ne _ _ _ _)

theorem parts_pack_ne {u : UnpackedFloat} (hu : u ≠ .notANumber) :
    parts ⟨Float.Model.pack u⟩ ≠ .nan := by
  rw [Ne, parts_eq_nan_iff, nanBits_iff]
  exact ne_true_of_eq_false (isNaNBits_pack hu)

theorem parts_div_ne {x y : Float} (hx : x.toModel.unpack ≠ .notANumber) {sign : Sign} {m : ℕ}
    {e : ℤ} {hm : 0 < m} (hy : y.toModel.unpack = .finite sign m e hm) : parts (x / y) ≠ .nan := by
  refine parts_pack_ne ?_
  rw [hy]
  exact div_finite_ne _ hx sign e hm

theorem exactPower_finite (k : Fin 23) : ∃ sign m e hm,
    (Float.exactlyRepresentablePowersOfTen[k]).toModel.unpack = .finite sign m e hm := by
  have hfinite : ∀ k : Fin 23,
      ((Float.exactlyRepresentablePowersOfTen[k]).toModel.unpack matches .finite ..) = true := by
    decide +kernel
  have hk := hfinite k
  split at hk
  · rename_i sign m e hm hunpack
    exact ⟨sign, m, e, hm, hunpack⟩
  · cases hk

/-- Digits are never read as the undefined number. -/
theorem parts_ofDigits_ne (whole fraction : List UInt8) :
    parts (ofDigits whole fraction) ≠ .nan := by
  unfold ofDigits Float.ofScientific
  simp only [if_true]
  split
  · rename_i hsmall
    obtain ⟨sign, m, e, hm, hunpack⟩ := exactPower_finite ⟨fraction.length, by omega⟩
    exact parts_div_ne (unpack_toFloat_ne _) hunpack
  · exact parts_pack_ne (ofScientific_ne _ _ _)

end Unpacked

end Number

/-! ### Literals in trees -/

namespace Numeral

/-- Digits with points among them. -/
def Pointed (text : String) : Prop := ∀ c ∈ text.toList, c.isDigit = true ∨ c = '.'

theorem Digits.pointed {text : String} (h : Digits text.toList) : Pointed text :=
  fun c hc => .inl (h c hc)

theorem pointed_whole (n : ℕ) : Pointed (n.repr ++ ".0") := by
  intro c hc
  have htail : Pointed ".0" := by simp [Pointed]
  rw [String.toList_append, List.mem_append] at hc
  rcases hc with hc | hc
  · exact .inl (digits_repr n c hc)
  · exact htail c hc

theorem pointed_positional (d : Decimal) : Pointed d.positional := by
  obtain ⟨digits, exponent⟩ := d
  cases exponent with
  | ofNat n =>
      apply Digits.pointed
      simp only [Decimal.positional, String.toList_ofList]
      exact (digits_repr digits).append (digits_replicate n)
  | negSucc n =>
      obtain ⟨whole, fraction, htext, hwhole, -, hfraction, -⟩ := positional_negSucc digits n
      intro c hc
      rw [htext, String.toList_ofList, List.mem_append, List.mem_cons] at hc
      rcases hc with hc | hc | hc
      · exact .inl (hwhole c hc)
      · exact .inr hc
      · exact .inl (hfraction c hc)

end Numeral

namespace Literal

open Number

theorem magnitude_of_whole? {m n : ℕ} {e : ℤ} (h : whole? m e = some n) : magnitude m e = n := by
  unfold whole? at h
  split at h
  · cases h
    simp [magnitude]
  · rename_i k
    split at h
    · rename_i hdvd
      cases h
      rw [Nat.pow_eq] at hdvd ⊢
      rw [magnitude, zpow_negSucc, Nat.cast_div (Nat.dvd_of_mod_eq_zero hdvd) (by positivity),
        div_eq_mul_inv]
      simp
    · cases h

/-- The text of a finite number is its sign and a decimal that is rounded to it. -/
theorem numberText_of_finite {x : Float} {negative : Bool} {m : ℕ} {e : ℤ}
    (hparts : parts x = .finite negative m e) :
    ∃ text q, numberText x = signed negative text ∧ Numeral.Denotes text q ∧ Rounds m e q ∧
      Numeral.Pointed text := by
  cases hwhole : whole? m e with
  | some n =>
      have hrounds := rounds_magnitude m e
      rw [magnitude_of_whole? hwhole] at hrounds
      exact ⟨_, n, by simp [numberText, hparts, hwhole], Numeral.denotes_whole n, hrounds,
        Numeral.pointed_whole n⟩
  | none =>
      have htext : numberText x = plain x := by simp [numberText, hparts, hwhole]
      rw [htext]
      rcases Nat.eq_zero_or_pos m with rfl | hm
      · exact ⟨"0", _, by simp [plain, hparts], Numeral.denotes_zero e, rounds_magnitude 0 e,
          (Numeral.digits_repr 0).pointed⟩
      · refine ⟨_, _, ?_, Numeral.denotes_positional _, rounds_shortest .up hm e,
          Numeral.pointed_positional _⟩
        unfold plain
        rw [hparts]
        cases m with
        | zero => exact absurd hm (Nat.lt_irrefl 0)
        | succ m => rfl

/-- The text of every number in a tree is legible. -/
theorem legible_numberText (x : Float) : ∃ negative text, numberText x = signed negative text ∧
    Legible "inf" (parts x) negative text := by
  cases hparts : parts x with
  | nan => exact ⟨false, "NaN", by simp [numberText, plain, hparts, signed], .nan⟩
  | infinite negative =>
      exact ⟨negative, "inf", by simp [numberText, plain, hparts], .infinite negative⟩
  | finite negative m e =>
      obtain ⟨text, q, htext, hdenotes, hrounds, -⟩ := numberText_of_finite hparts
      exact ⟨negative, text, htext, .finite negative (canonical_of_parts hparts) hdenotes hrounds⟩

/-- No two numbers have the same text in a tree. -/
theorem numberText_injective : Function.Injective numberText := by
  intro x y h
  obtain ⟨negative, text, htext, hlegible⟩ := legible_numberText x
  obtain ⟨negative', text', htext', hlegible'⟩ := legible_numberText y
  rw [htext, htext'] at h
  have hinfinity : "inf".toList.head? = some 'i' := by decide
  exact parts_injective (parts_eq_of_signed hlegible hlegible' hinfinity
    ⟨by decide, by decide, by decide⟩ h)

/-- The text of a finite number begins with a digit or a sign, and is made of digits, a point and a
sign. -/
theorem numberText_chars {x : Float} {negative : Bool} {m : ℕ} {e : ℤ}
    (hparts : parts x = .finite negative m e) :
    (∃ c cs, (numberText x).toList = c :: cs ∧ (c.isDigit = true ∨ c = '-')) ∧
      ∀ c ∈ (numberText x).toList, c.isDigit = true ∨ c = '.' ∨ c = '-' := by
  obtain ⟨text, q, htext, hdenotes, -, hpointed⟩ := numberText_of_finite hparts
  obtain ⟨c, cs, hcs, hdigit⟩ := hdenotes.digit
  rw [htext, toList_signed]
  cases negative with
  | false => exact ⟨⟨c, cs, hcs, .inl hdigit⟩, fun d hd => (hpointed d hd).imp_right .inl⟩
  | true =>
      refine ⟨⟨'-', _, rfl, .inr rfl⟩, fun d hd => ?_⟩
      rcases List.mem_cons.mp hd with rfl | hd
      · exact .inr (.inr rfl)
      · exact (hpointed d hd).imp_right .inl

end Literal

end ScriptLang
