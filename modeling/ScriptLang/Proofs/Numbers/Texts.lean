import ScriptLang.Proofs.Numbers.Rounding
import ScriptLang.Value

/-! What the texts of numbers say. A text of digits, with at most one point among them and perhaps
an exponent after them, is read as a rational number, and the layouts of a decimal are read as the
decimal itself, whichever of them was chosen. -/

namespace ScriptLang.Numeral

/-! ### Reading -/

/-- What digits stand for, with a point among them or without one. -/
def plain (cs : List Char) : ℚ :=
  let whole := cs.takeWhile (· ≠ '.')
  let fraction := (cs.dropWhile (· ≠ '.')).tail
  Nat.ofDigitChars 10 (whole ++ fraction) 0 / 10 ^ fraction.length

/-- What digits stand for, with a minus sign in front of them or without one. -/
def integer : List Char → ℤ
  | '-' :: cs => -Nat.ofDigitChars 10 cs 0
  | cs => Nat.ofDigitChars 10 cs 0

/-- What the text of a number without its sign stands for; an exponent follows the letter `E`. -/
def value (cs : List Char) : ℚ :=
  plain (cs.takeWhile (· ≠ 'E')) * 10 ^ integer (cs.dropWhile (· ≠ 'E')).tail

/-- Whether characters are all digits. -/
abbrev Digits (cs : List Char) : Prop := ∀ c ∈ cs, c.isDigit = true

theorem ne_of_isDigit {c d : Char} (hc : c.isDigit = true) (hd : d.isDigit = false) : c ≠ d := by
  rintro rfl
  rw [hc] at hd
  cases hd

theorem digits_repr (n : ℕ) : Digits n.repr.toList := by
  rw [Nat.toList_repr]
  exact fun c hc => Nat.isDigit_of_mem_toDigits (by decide) (by decide) hc

theorem digits_replicate (n : ℕ) : Digits (List.replicate n '0') := by
  intro c hc
  rw [List.eq_of_mem_replicate hc]
  rfl

theorem Digits.append {cs ds : List Char} (hcs : Digits cs) (hds : Digits ds) :
    Digits (cs ++ ds) :=
  fun c hc => (List.mem_append.mp hc).elim (hcs c) (hds c)

/-- Characters up to a mark that none of them is. -/
theorem span_mark {cs : List Char} {mark : Char} (hcs : mark ∉ cs) (rest : List Char) :
    (cs ++ mark :: rest).takeWhile (· ≠ mark) = cs ∧
      (cs ++ mark :: rest).dropWhile (· ≠ mark) = mark :: rest := by
  have hne : ∀ c ∈ cs, decide (c ≠ mark) = true := by
    intro c hc
    exact decide_eq_true fun heq => hcs (heq ▸ hc)
  rw [List.takeWhile_append_of_pos hne, List.dropWhile_append_of_pos hne]
  simp

/-- Characters among which a mark does not stand. -/
theorem span_self {cs : List Char} {mark : Char} (hcs : mark ∉ cs) :
    cs.takeWhile (· ≠ mark) = cs ∧ cs.dropWhile (· ≠ mark) = [] := by
  have hne : ∀ c ∈ cs, decide (c ≠ mark) = true := by
    intro c hc
    exact decide_eq_true fun heq => hcs (heq ▸ hc)
  exact ⟨List.takeWhile_eq_self_iff.mpr hne, List.dropWhile_eq_nil_iff.mpr hne⟩

theorem Digits.not_mem {cs : List Char} (hcs : Digits cs) {mark : Char}
    (hmark : mark.isDigit = false) : mark ∉ cs :=
  fun hmem => ne_of_isDigit (hcs mark hmem) hmark rfl

theorem plain_of_digits {cs : List Char} (hcs : Digits cs) :
    plain cs = Nat.ofDigitChars 10 cs 0 := by
  obtain ⟨htake, hdrop⟩ := span_self (hcs.not_mem (by decide : '.'.isDigit = false))
  simp only [plain, htake, hdrop]
  simp

theorem plain_of_point {whole : List Char} (hwhole : Digits whole) (fraction : List Char) :
    plain (whole ++ '.' :: fraction) =
      Nat.ofDigitChars 10 (whole ++ fraction) 0 / 10 ^ fraction.length := by
  obtain ⟨htake, hdrop⟩ := span_mark (hwhole.not_mem (by decide : '.'.isDigit = false)) fraction
  simp only [plain, htake, hdrop, List.tail_cons]

theorem integer_of_digits {cs : List Char} (hcs : Digits cs) :
    integer cs = Nat.ofDigitChars 10 cs 0 := by
  unfold integer
  split
  · exact absurd List.mem_cons_self (hcs.not_mem (by decide : '-'.isDigit = false))
  · rfl

theorem value_of_plain {cs : List Char} (hcs : 'E' ∉ cs) : value cs = plain cs := by
  obtain ⟨htake, hdrop⟩ := span_self hcs
  simp only [value, htake, hdrop]
  simp [integer]

theorem value_of_exponent {mantissa : List Char} (hmantissa : 'E' ∉ mantissa)
    (exponent : List Char) :
    value (mantissa ++ 'E' :: exponent) = plain mantissa * 10 ^ integer exponent := by
  obtain ⟨htake, hdrop⟩ := span_mark hmantissa exponent
  simp only [value, htake, hdrop, List.tail_cons]

theorem ofDigitChars_repr (n : ℕ) : Nat.ofDigitChars 10 n.repr.toList 0 = n := by
  rw [Nat.toList_repr]
  exact Nat.ofDigitChars_toDigits (by decide) (by decide)

/-! ### Layouts -/

/-- A text without a sign that begins with a digit, and what it stands for. -/
structure Denotes (text : String) (q : ℚ) : Prop where
  digit : ∃ c cs, text.toList = c :: cs ∧ c.isDigit = true
  value : value text.toList = q

theorem exists_digit {cs : List Char} (hcs : Digits cs) (hne : cs ≠ []) (rest : List Char) :
    ∃ c ds, cs ++ rest = c :: ds ∧ c.isDigit = true := by
  obtain ⟨c, ds, rfl⟩ := List.exists_cons_of_ne_nil hne
  exact ⟨c, ds ++ rest, rfl, hcs c List.mem_cons_self⟩

theorem repr_ne_nil (n : ℕ) : n.repr.toList ≠ [] := by
  rw [Nat.toList_repr]
  exact Nat.toDigits_ne_nil

/-- A whole number with one decimal place. -/
theorem denotes_whole (n : ℕ) : Denotes (n.repr ++ ".0") n where
  digit := by
    rw [String.toList_append]
    exact exists_digit (digits_repr n) (repr_ne_nil n) _
  value := by
    have hE : 'E' ∉ n.repr.toList ++ ".0".toList := by
      rw [List.mem_append]
      rintro (hmem | hmem)
      · exact (digits_repr n).not_mem (by decide) hmem
      · exact absurd hmem (by decide)
    rw [String.toList_append, value_of_plain hE]
    refine (plain_of_point (digits_repr n) ['0']).trans ?_
    rw [Nat.ofDigitChars_append, ofDigitChars_repr]
    simp [Nat.ofDigitChars_cons, mul_comm]

/-- Zero, in whatever units. -/
theorem denotes_zero (e : ℤ) : Denotes "0" (Number.magnitude 0 e) where
  digit := ⟨'0', [], by decide, by decide⟩
  value := by
    have hdigits : Digits "0".toList := digits_repr 0
    rw [value_of_plain (by decide), plain_of_digits hdigits, Number.magnitude, Nat.cast_zero,
      zero_mul]
    rfl

/-- A decimal with decimal places has digits on both sides of the point. -/
theorem positional_negSucc (digits n : ℕ) :
    ∃ whole fraction, (Decimal.positional ⟨digits, .negSucc n⟩) =
        String.ofList (whole ++ '.' :: fraction) ∧
      Digits whole ∧ whole ≠ [] ∧ Digits fraction ∧ fraction.length = n + 1 ∧
      Nat.ofDigitChars 10 (whole ++ fraction) 0 = digits := by
  set padded := List.replicate (n + 2 - digits.repr.toList.length) '0' ++ digits.repr.toList
    with hpadded
  have hall : Digits padded := (digits_replicate _).append (digits_repr digits)
  have hlength : n + 2 ≤ padded.length := by
    simp only [hpadded, List.length_append, List.length_replicate]
    omega
  refine ⟨padded.take (padded.length - (n + 1)), padded.drop (padded.length - (n + 1)), rfl,
    fun c hc => hall c (List.mem_of_mem_take hc), List.ne_nil_of_length_pos ?_,
    fun c hc => hall c (List.mem_of_mem_drop hc), ?_, ?_⟩
  · rw [List.length_take]
    omega
  · rw [List.length_drop]
    omega
  · rw [List.take_append_drop, hpadded, Nat.ofDigitChars_append, Nat.ofDigitChars_replicate_zero,
      Nat.mul_zero, ofDigitChars_repr]

/-- Digits without an exponent. -/
theorem denotes_positional (d : Decimal) : Denotes d.positional d.value := by
  obtain ⟨digits, exponent⟩ := d
  cases exponent with
  | ofNat n =>
      have hdigits := digits_repr digits
      have hall := hdigits.append (digits_replicate n)
      refine ⟨?_, ?_⟩ <;> simp only [Decimal.positional, String.toList_ofList]
      · exact exists_digit hdigits (repr_ne_nil digits) _
      · rw [value_of_plain (hall.not_mem (by decide)), plain_of_digits hall,
          Nat.ofDigitChars_append, ofDigitChars_repr, Nat.ofDigitChars_replicate_zero]
        simp [Decimal.value, mul_comm]
  | negSucc n =>
      obtain ⟨whole, fraction, htext, hwhole, hne, hfraction, hlength, hdigits⟩ :=
        positional_negSucc digits n
      have hE : 'E' ∉ whole ++ '.' :: fraction := by
        rw [List.mem_append, List.mem_cons]
        rintro (hmem | hmem | hmem)
        · exact hwhole.not_mem (by decide) hmem
        · exact absurd hmem (by decide)
        · exact hfraction.not_mem (by decide) hmem
      refine ⟨?_, ?_⟩ <;> rw [htext, String.toList_ofList]
      · exact exists_digit hwhole hne _
      · rw [value_of_plain hE, plain_of_point hwhole, hdigits, hlength, Decimal.value, zpow_negSucc,
          div_eq_mul_inv]

theorem integer_exponentText (k : ℤ) : ∃ cs, (Value.exponentText k).toList = 'E' :: cs ∧
    integer cs = k := by
  cases k with
  | ofNat n =>
      refine ⟨n.repr.toList, by simp [Value.exponentText], ?_⟩
      rw [integer_of_digits (digits_repr n), ofDigitChars_repr]
      rfl
  | negSucc n =>
      refine ⟨'-' :: (n + 1).repr.toList, by simp [Value.exponentText], ?_⟩
      rw [integer, ofDigitChars_repr]
      rfl

/-- The first digit, a point and the other digits. -/
theorem plain_mantissaText (d : Decimal) :
    ∃ c cs, (d.mantissaText ".0").toList = c :: '.' :: cs ∧ cs ≠ [] ∧ Digits (c :: cs) ∧
      plain (c :: '.' :: cs) * 10 ^ ((d.width : ℤ) - 1) = d.digits := by
  have hdigits := digits_repr d.digits
  have hvalue := ofDigitChars_repr d.digits
  unfold Decimal.mantissaText Decimal.width
  rw [← String.length_toList]
  cases hrepr : d.digits.repr.toList with
  | nil => exact absurd hrepr (repr_ne_nil d.digits)
  | cons c cs =>
      rw [hrepr] at hdigits hvalue
      have hfirst : Digits [c] := fun a ha => hdigits a (by simp_all)
      cases cs with
      | nil =>
          refine ⟨c, ['0'], by simp, by simp, hfirst.append (digits_replicate 1), ?_⟩
          have hplain := plain_of_point hfirst ['0']
          rw [Nat.ofDigitChars_append, hvalue] at hplain
          rw [← List.singleton_append, hplain]
          simp [Nat.ofDigitChars_cons]
      | cons c' cs =>
          refine ⟨c, c' :: cs, by simp, by simp, hdigits, ?_⟩
          have hplain := plain_of_point hfirst (c' :: cs)
          simp only [List.singleton_append, hvalue] at hplain
          have hwidth : ((c :: c' :: cs).length : ℤ) - 1 = ((c' :: cs).length : ℕ) := by simp
          rw [hplain, hwidth, zpow_natCast, div_mul_cancel₀ _ (by positivity)]

/-- Digits with an exponent. -/
theorem denotes_scientific (d : Decimal) :
    Denotes (d.mantissaText ".0" ++ Value.exponentText d.magnitude) d.value := by
  obtain ⟨c, cs, hmantissa, -, hdigits, hplain⟩ := plain_mantissaText d
  obtain ⟨exponent, hexponent, hinteger⟩ := integer_exponentText d.magnitude
  have hE : 'E' ∉ c :: '.' :: cs := by
    have hnone := hdigits.not_mem (by decide : 'E'.isDigit = false)
    simp only [List.mem_cons, not_or] at hnone ⊢
    exact ⟨hnone.1, by decide, hnone.2⟩
  refine ⟨?_, ?_⟩ <;> rw [String.toList_append, hmantissa, hexponent]
  · exact ⟨c, _, rfl, hdigits c List.mem_cons_self⟩
  · rw [value_of_exponent hE, hinteger, Decimal.magnitude, Decimal.value, ← hplain, mul_assoc,
      ← zpow_add₀ (by norm_num)]
    congr 2
    ring

end ScriptLang.Numeral
