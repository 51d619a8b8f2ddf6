import ScriptLang.Heap
import ScriptLang.Proofs.Numbers.Layouts

/-! Printed numbers. From the text of a number its parts can be read back, so that two numbers have
the same text only if they are the same number. -/

namespace ScriptLang

namespace Number

/-! ### Signs -/

theorem toList_signed (negative : Bool) (text : String) :
    (signed negative text).toList = if negative then '-' :: text.toList else text.toList := by
  cases negative <;> simp [signed]

/-- A sign can be told from a text that begins with none. -/
theorem signed_inj {negative negative' : Bool} {text text' : String}
    (hsign : text.toList.head? ≠ some '-') (hsign' : text'.toList.head? ≠ some '-')
    (h : signed negative text = signed negative' text') : negative = negative' ∧ text = text' := by
  have hlist := congrArg String.toList h
  rw [toList_signed, toList_signed] at hlist
  cases negative <;> cases negative'
  · exact ⟨rfl, String.toList_inj.mp hlist⟩
  · exact absurd (congrArg List.head? hlist) hsign
  · exact absurd (congrArg List.head? hlist).symm hsign'
  · exact ⟨rfl, String.toList_inj.mp (List.cons.inj hlist).2⟩

/-! ### Reading back -/

/-- Signs and texts that say what the parts of a number are. The text of a finite one is a decimal
that is rounded to the number; infinity has a name. -/
inductive Legible (infinity : String) : Parts → Bool → String → Prop where
  | nan : Legible infinity .nan false "NaN"
  | infinite (negative : Bool) : Legible infinity (.infinite negative) negative infinity
  | finite (negative : Bool) {m : ℕ} {e : ℤ} {text : String} {q : ℚ} : Canonical m e →
      Numeral.Denotes text q → Rounds m e q →
      Legible infinity (.finite negative m e) negative text

/-- What the text of a number with these parts begins with, if that of infinity begins with
`letter`. -/
def Begins (letter : Char) : Parts → Char → Prop
  | .nan, c => c = 'N'
  | .infinite _, c => c = letter
  | .finite _ _ _, c => c.isDigit = true

/-- A letter that no other text of a number begins with. -/
structure Distinct (letter : Char) : Prop where
  digit : letter.isDigit = false
  sign : letter ≠ '-'
  nan : letter ≠ 'N'

variable {infinity text : String} {letter : Char} {negative : Bool} {p p' : Parts}

theorem Legible.begins (h : Legible infinity p negative text)
    (hinfinity : infinity.toList.head? = some letter) :
    ∃ c, text.toList.head? = some c ∧ Begins letter p c := by
  cases h with
  | nan => exact ⟨'N', by decide, rfl⟩
  | infinite => exact ⟨letter, hinfinity, rfl⟩
  | finite _ _ hdenotes =>
      obtain ⟨c, cs, hc, hdigit⟩ := hdenotes.digit
      exact ⟨c, by rw [hc]; rfl, hdigit⟩

theorem Begins.ne_sign {c : Char} (h : Begins letter p c) (hletter : Distinct letter) :
    c ≠ '-' := by
  cases p with
  | nan => exact h ▸ by decide
  | infinite => exact h ▸ hletter.sign
  | finite => exact Numeral.ne_of_isDigit h rfl

/-- A text and a sign belong to one number. -/
theorem Legible.unique (h : Legible infinity p negative text)
    (h' : Legible infinity p' negative text) (hinfinity : infinity.toList.head? = some letter)
    (hletter : Distinct letter) : p = p' := by
  obtain ⟨c, hc, hbegins⟩ := h.begins hinfinity
  obtain ⟨c', hc', hbegins'⟩ := h'.begins hinfinity
  obtain rfl : c = c' := Option.some.inj (hc.symm.trans hc')
  -- Each of the three kinds of numbers begins in its own way.
  cases h with
  | nan =>
      cases h' with
      | nan => rfl
      | infinite => exact absurd (hbegins'.symm.trans hbegins) hletter.nan
      | finite => exact absurd hbegins (Numeral.ne_of_isDigit hbegins' rfl)
  | infinite =>
      cases h' with
      | nan => exact absurd (hbegins.symm.trans hbegins') hletter.nan
      | infinite => rfl
      | finite => exact absurd hbegins (Numeral.ne_of_isDigit hbegins' hletter.digit)
  | finite _ hcanonical hdenotes hrounds =>
      cases h' with
      | nan => exact absurd hbegins' (Numeral.ne_of_isDigit hbegins rfl)
      | infinite => exact absurd hbegins' (Numeral.ne_of_isDigit hbegins hletter.digit)
      | finite _ hcanonical' hdenotes' hrounds' =>
          obtain rfl := hdenotes.value.symm.trans hdenotes'.value
          obtain ⟨rfl, rfl⟩ := hrounds.unique hrounds' hcanonical hcanonical'
          rfl

/-- Of numbers with legible texts no two have the same. -/
theorem parts_eq_of_signed {negative' : Bool} {text' : String}
    (h : Legible infinity p negative text) (h' : Legible infinity p' negative' text')
    (hinfinity : infinity.toList.head? = some letter) (hletter : Distinct letter)
    (heq : signed negative text = signed negative' text') : p = p' := by
  obtain ⟨c, hc, hbegins⟩ := h.begins hinfinity
  obtain ⟨c', hc', hbegins'⟩ := h'.begins hinfinity
  have hsign : text.toList.head? ≠ some '-' :=
    fun hhead => hbegins.ne_sign hletter (Option.some.inj (hc.symm.trans hhead))
  have hsign' : text'.toList.head? ≠ some '-' :=
    fun hhead => hbegins'.ne_sign hletter (Option.some.inj (hc'.symm.trans hhead))
  obtain ⟨rfl, rfl⟩ := signed_inj hsign hsign' heq
  exact h.unique h' hinfinity hletter

end Number

/-! ### Printing -/

namespace Value

open Number

/-- The text of a positive finite number. -/
def positiveText (m : ℕ) (e : ℤ) : String :=
  let d := shortest .up m e
  if d.magnitude < -3 ∨ 7 ≤ d.magnitude then d.mantissaText ".0" ++ exponentText d.magnitude
  else d.positional

theorem numberText_of_finite {x : Float} {negative : Bool} {m : ℕ} {e : ℤ}
    (h : parts x = .finite negative m e) (hm : 0 < m) :
    numberText x = signed negative (positiveText m e) := by
  unfold numberText
  rw [h]
  cases m with
  | zero => exact absurd hm (Nat.lt_irrefl 0)
  | succ m => rfl

theorem denotes_positiveText (m : ℕ) (e : ℤ) :
    Numeral.Denotes (positiveText m e) (shortest .up m e).value := by
  unfold positiveText
  simp only
  split
  · exact Numeral.denotes_scientific _
  · exact Numeral.denotes_positional _

theorem layout_positiveText {m : ℕ} {e : ℤ} (hm : 0 < m) (h : Canonical m e) :
    Numeral.Layout (magnitude m e) (positiveText m e) := by
  have hhigh := seven_le_magnitude_iff hm h
  have hlow := neg_three_le_magnitude_iff hm h
  norm_num at hhigh hlow
  unfold positiveText
  simp only
  split
  · rename_i houter
    refine Numeral.layout_scientific (houter.imp (fun hsmall => ?_) fun hlarge => ?_)
    · rw [← not_le]
      exact fun hle => absurd (hlow.mpr hle) (not_le.mpr hsmall)
    · norm_num
      exact hhigh.mp hlarge
  · rename_i hinner
    rw [not_or, not_lt, not_le] at hinner
    refine Numeral.layout_positional hm h (hlow.mp hinner.1) ?_
    norm_num
    exact lt_of_not_ge fun hle => absurd (hhigh.mpr hle) (not_le.mpr hinner.2)

/-- The text of every number is legible. -/
theorem legible_numberText (x : Float) :
    ∃ negative text, numberText x = signed negative text ∧
      Legible "Infinity" (parts x) negative text := by
  cases hparts : parts x with
  | nan => exact ⟨false, "NaN", by simp [numberText, hparts, signed], .nan⟩
  | infinite negative =>
      exact ⟨negative, "Infinity", by simp [numberText, hparts], .infinite negative⟩
  | finite negative m e =>
      have hcanonical := canonical_of_parts hparts
      rcases Nat.eq_zero_or_pos m with rfl | hm
      · exact ⟨negative, "0", by simp [numberText, hparts],
          .finite negative hcanonical (Numeral.denotes_zero e) (rounds_magnitude 0 e)⟩
      · exact ⟨negative, positiveText m e, numberText_of_finite hparts hm,
          .finite negative hcanonical (denotes_positiveText m e) (rounds_shortest .up hm e)⟩

/-- No two numbers have the same text. -/
theorem numberText_injective {x y : Float} (h : numberText x = numberText y) : x = y := by
  obtain ⟨negative, text, htext, hlegible⟩ := legible_numberText x
  obtain ⟨negative', text', htext', hlegible'⟩ := legible_numberText y
  rw [htext, htext'] at h
  have hinfinity : "Infinity".toList.head? = some 'I' := by decide
  exact parts_injective (parts_eq_of_signed hlegible hlegible' hinfinity
    ⟨by decide, by decide, by decide⟩ h)

theorem equals_number_iff {x y : Float} :
    (number x).equals (.number y) = true ↔ x = y := by
  simp [equals]

end Value

open Number in
/-- Two numbers are printed alike if and only if they are equal, that is, if and only if both are
undefined or they have the same bits. What is printed for a finite number other than zero is laid
out with an exponent below a thousandth and from ten million on, and as a whole number where it is
one between these; and it is read back as the number. -/
theorem printed_numbers_identify_values (h : Heap) :
    (∀ x y : Float, h.display (.number x) = h.display (.number y) ↔
      (Value.number x).equals (.number y) = true) ∧
    (∀ a b : UInt64, (Value.number (Float.ofBits a)).equals (.number (Float.ofBits b)) = true ↔
      NaNBits a ∧ NaNBits b ∨ a = b) ∧
    (∀ x : Float, Float.ofBits x.toBits = x) ∧
    ∀ (x : Float) (negative : Bool) (m : ℕ) (e : ℤ), parts x = .finite negative m e → 0 < m →
      ∃ text, h.display (.number x) = signed negative text ∧
        Numeral.Layout (magnitude m e) text ∧ Rounds m e (Numeral.value text.toList) := by
  refine ⟨fun x y => ?_, fun a b => ?_, Float.ofBits_toBits, fun x negative m e hparts hm => ?_⟩
  · rw [Value.equals_number_iff]
    exact ⟨Value.numberText_injective, fun heq => by rw [heq]⟩
  · rw [Value.equals_number_iff, ofBits_eq_iff]
  · refine ⟨Value.positiveText m e, Value.numberText_of_finite hparts hm,
      Value.layout_positiveText hm (canonical_of_parts hparts), ?_⟩
    rw [(Value.denotes_positiveText m e).value]
    exact rounds_shortest .up hm e

open Number in
/-- Ten million is printed as `1.0E7`, and the number before it, which is no whole number, as
`9999999.999999998`. -/
theorem printed_numbers_identify_values_ten_million :
    let x := Float.ofBits 0x416312D000000000
    let y := Float.ofBits 0x416312CFFFFFFFFF
    parts x = .finite false (10 ^ 7 * 2 ^ 29) (-29) ∧
      Heap.empty.display (.number x) = "1.0E7" ∧
      Heap.empty.display (.number y) = "9999999.999999998" ∧
      (Value.number x).equals (.number y) = false ∧
      ∃ text, "1.0E7" = signed false text ∧
        Numeral.Layout (magnitude (10 ^ 7 * 2 ^ 29) (-29)) text ∧
        Rounds (10 ^ 7 * 2 ^ 29) (-29) (Numeral.value text.toList) := by
  intro x y
  obtain ⟨hequal, -, -, hlayout⟩ := printed_numbers_identify_values Heap.empty
  have hparts : parts x = .finite false (10 ^ 7 * 2 ^ 29) (-29) := by decide +kernel
  have hx : Heap.empty.display (.number x) = "1.0E7" := by decide +kernel
  have hy : Heap.empty.display (.number y) = "9999999.999999998" := by decide +kernel
  refine ⟨hparts, hx, hy, ?_, hx ▸ hlayout x false _ _ hparts (by decide)⟩
  rw [Bool.eq_false_iff, ne_eq, ← hequal, hx, hy]
  decide

end ScriptLang
