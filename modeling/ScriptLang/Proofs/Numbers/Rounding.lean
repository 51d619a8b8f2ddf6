import ScriptLang.Proofs.Numbers.Parts

/-! Which decimals read as which number. Every finite number has an interval of rationals around it
that are rounded to it, half to even; the intervals of different numbers lie apart, and the shortest
decimal of a number lies in the number's own interval. -/

namespace ScriptLang

/-- The rational number that a decimal is. -/
def Decimal.value (d : Decimal) : ℚ := d.digits * 10 ^ d.exponent

namespace Number

/-- The finite number with these parts, without its sign. -/
def magnitude (m : ℕ) (e : ℤ) : ℚ := m * 2 ^ e

/-- How far the interval of a number reaches down, in quarters of the distance to the next greater
number. The first number with a new exponent has its lower neighbour half as far away. -/
def reach (m : ℕ) (e : ℤ) : ℕ := if m = 2 ^ 52 ∧ e ≠ -1074 then 1 else 2

/-- A rational is rounded to the number with these parts. On the middle between two numbers the one
with the even mantissa is taken. -/
structure Rounds (m : ℕ) (e : ℤ) (q : ℚ) : Prop where
  low : (4 * m - reach m e) * 2 ^ e ≤ 4 * q
  high : 4 * q ≤ (4 * m + 2) * 2 ^ e
  between : m % 2 = 1 → (4 * m - reach m e) * 2 ^ e < 4 * q ∧ 4 * q < (4 * m + 2) * 2 ^ e

theorem reach_le (m : ℕ) (e : ℤ) : reach m e ≤ 2 := by
  unfold reach
  split <;> omega

theorem one_le_reach (m : ℕ) (e : ℤ) : 1 ≤ reach m e := by
  unfold reach
  split <;> omega

/-- A number is rounded to itself. -/
theorem rounds_magnitude (m : ℕ) (e : ℤ) : Rounds m e (magnitude m e) := by
  have hpow : (0 : ℚ) < 2 ^ e := by positivity
  have hreach : (1 : ℚ) ≤ reach m e := by exact_mod_cast one_le_reach m e
  have hlow : (4 * m - reach m e) * (2 : ℚ) ^ e < 4 * magnitude m e := by
    unfold magnitude
    nlinarith
  have hhigh : 4 * magnitude m e < (4 * m + 2) * (2 : ℚ) ^ e := by
    unfold magnitude
    nlinarith
  exact ⟨hlow.le, hhigh.le, fun _ => ⟨hlow, hhigh⟩⟩

theorem two_mul_zpow_le {e e' : ℤ} (h : e < e') : 2 * (2 : ℚ) ^ e ≤ 2 ^ e' := by
  rw [← zpow_one_add₀ (by norm_num)]
  exact zpow_le_zpow_right₀ (by norm_num) (by omega)

/-- A greater exponent makes a greater number. -/
theorem Canonical.magnitude_lt {m m' : ℕ} {e e' : ℤ} (h : Canonical m e) (h' : Canonical m' e')
    (he : e < e') : magnitude m e < magnitude m' e' := by
  have hpow : (0 : ℚ) < 2 ^ e := by positivity
  have hstep := two_mul_zpow_le he
  have hm : (m : ℚ) < 2 ^ 53 := by exact_mod_cast h.lt
  have hm' : (2 : ℚ) ^ 52 ≤ m' := by exact_mod_cast h'.full (by have := h.least; omega)
  calc magnitude m e < 2 ^ 53 * 2 ^ e := by unfold magnitude; gcongr
    _ = 2 ^ 52 * (2 * 2 ^ e) := by ring
    _ ≤ m' * 2 ^ e' := by gcongr

theorem Canonical.eq_of_magnitude {m m' : ℕ} {e e' : ℤ} (h : Canonical m e)
    (h' : Canonical m' e') (heq : magnitude m e = magnitude m' e') : m = m' ∧ e = e' := by
  rcases lt_trichotomy e e' with he | rfl | he
  · exact absurd heq (h.magnitude_lt h' he).ne
  · have hpow : (2 : ℚ) ^ e ≠ 0 := by positivity
    exact ⟨by exact_mod_cast mul_right_cancel₀ hpow heq, rfl⟩
  · exact absurd heq (h'.magnitude_lt h he).ne'

/-- The interval of a smaller number ends where that of a greater one begins, or before; before, if
both have even mantissas. -/
theorem Canonical.apart {m m' : ℕ} {e e' : ℤ} (h : Canonical m e) (h' : Canonical m' e')
    (hlt : magnitude m e < magnitude m' e') :
    (4 * m + 2) * (2 : ℚ) ^ e ≤ (4 * m' - reach m' e') * 2 ^ e' ∧
      (m % 2 = 0 → m' % 2 = 0 →
        (4 * m + 2) * (2 : ℚ) ^ e < (4 * m' - reach m' e') * 2 ^ e') := by
  have hpow : (0 : ℚ) < 2 ^ e := by positivity
  rcases lt_trichotomy e e' with he | rfl | he
  · have hleast : e' ≠ -1074 := by have := h.least; omega
    have hstep := two_mul_zpow_le he
    have hend : (2 ^ 54 - 1 : ℚ) ≤ 4 * m' - reach m' e' := by
      have hfull := h'.full hleast
      have hnat : 2 ^ 54 - 1 + reach m' e' ≤ 4 * m' := by
        unfold reach
        split <;> omega
      have hcast : ((2 ^ 54 - 1 + reach m' e' : ℕ) : ℚ) ≤ (4 * m' : ℕ) := by exact_mod_cast hnat
      push_cast at hcast
      linarith
    have hrest : (2 ^ 54 - 1) * (2 * (2 : ℚ) ^ e) ≤ (4 * m' - reach m' e') * 2 ^ e' := by
      gcongr
    have hm := h.lt
    constructor
    · have hcast : (m : ℚ) + 1 ≤ 2 ^ 53 := by exact_mod_cast hm
      calc (4 * m + 2) * (2 : ℚ) ^ e ≤ (4 * (2 ^ 53 - 1) + 2) * 2 ^ e := by gcongr; linarith
        _ = (2 ^ 54 - 1) * (2 * 2 ^ e) := by ring
        _ ≤ _ := hrest
    · intro heven _
      have hcast : (m : ℚ) + 2 ≤ 2 ^ 53 := by
        have : m + 2 ≤ 2 ^ 53 := by omega
        exact_mod_cast this
      calc (4 * m + 2) * (2 : ℚ) ^ e < (4 * (2 ^ 53 - 1) + 2) * 2 ^ e := by gcongr; linarith
        _ = (2 ^ 54 - 1) * (2 * 2 ^ e) := by ring
        _ ≤ _ := hrest
  · have hm : m < m' := by
      have hmul := lt_of_mul_lt_mul_right hlt hpow.le
      exact_mod_cast hmul
    have hreach : (reach m' e : ℚ) ≤ 2 := by exact_mod_cast reach_le m' e
    constructor
    · have hcast : (m : ℚ) + 1 ≤ m' := by exact_mod_cast hm
      gcongr
      linarith
    · intro heven heven'
      have hcast : (m : ℚ) + 2 ≤ m' := by
        have : m + 2 ≤ m' := by omega
        exact_mod_cast this
      gcongr
      linarith
  · exact absurd hlt (h'.magnitude_lt h he).not_gt

/-- What is rounded to a smaller number is smaller than what is rounded to a greater one. -/
theorem Rounds.lt {m m' : ℕ} {e e' : ℤ} {q q' : ℚ} (hq : Rounds m e q) (hq' : Rounds m' e' q')
    (h : Canonical m e) (h' : Canonical m' e') (hlt : magnitude m e < magnitude m' e') :
    q < q' := by
  obtain ⟨hle, hstrict⟩ := h.apart h' hlt
  have hlow := hq'.low
  have hhigh := hq.high
  rcases Nat.mod_two_eq_zero_or_one m with heven | hodd
  · rcases Nat.mod_two_eq_zero_or_one m' with heven' | hodd'
    · have := hstrict heven heven'
      linarith
    · have := (hq'.between hodd').1
      linarith
  · have := (hq.between hodd).2
    linarith

/-- No rational is rounded to two numbers. -/
theorem Rounds.unique {m m' : ℕ} {e e' : ℤ} {q : ℚ} (hq : Rounds m e q) (hq' : Rounds m' e' q)
    (h : Canonical m e) (h' : Canonical m' e') : m = m' ∧ e = e' := by
  rcases lt_trichotomy (magnitude m e) (magnitude m' e') with hlt | heq | hgt
  · exact absurd (hq.lt hq' h h' hlt) (lt_irrefl q)
  · exact h.eq_of_magnitude h' heq
  · exact absurd (hq'.lt hq h' h hgt) (lt_irrefl q)

end Number

/-! ### Shortest decimals -/

namespace Decimal

theorem Interval.holds_nearest? {i : Interval} {tie : Tie} {k factor : ℕ}
    (h : i.nearest? tie k = some factor) : i.holds (factor * (4 * 10 ^ k)) := by
  unfold Interval.nearest? at h
  simp only [Nat.pow_eq] at h
  split at h
  · cases h
  · rename_i hbelow _
    exact Option.some.inj h ▸ hbelow
  · rename_i _ habove
    exact Option.some.inj h ▸ habove
  · rename_i hbelow habove
    have heither : factor = i.value / (4 * 10 ^ k) ∨ factor = i.value / (4 * 10 ^ k) + 1 := by
      cases tie <;> grind
    rcases heither with rfl | rfl
    · exact hbelow
    · exact habove

/-- What the search for the coarsest grid finds lies in the interval, if the value itself does. -/
theorem Interval.holds_coarsest {i : Interval} (tie : Tie) (hvalue : i.holds (i.value / 4 * 4))
    (start : ℕ) : i.holds ((i.coarsest tie start).1 * (4 * 10 ^ (i.coarsest tie start).2)) := by
  induction start with
  | zero => simpa [Interval.coarsest] using hvalue
  | succ k ih =>
      unfold Interval.coarsest
      split
      · rename_i factor hfactor
        exact Interval.holds_nearest? hfactor
      · exact ih

/-- Powers of ten in place of powers of two. -/
def scale : ℤ → ℕ
  | .ofNat n => 2 ^ n
  | .negSucc n => 5 ^ (n + 1)

theorem scale_mul (e : ℤ) : (scale e : ℚ) * 10 ^ min e 0 = 2 ^ e := by
  cases e with
  | ofNat n => simp [scale]
  | negSucc n =>
      have hmin : min (Int.negSucc n) 0 = Int.negSucc n := min_eq_left (Int.negSucc_lt_zero n).le
      rw [hmin, zpow_negSucc, zpow_negSucc]
      have hten : (10 : ℚ) ^ (n + 1) = 5 ^ (n + 1) * 2 ^ (n + 1) := by
        rw [← mul_pow]
        norm_num
      rw [hten, scale]
      push_cast
      rw [mul_inv, mul_inv_cancel_left₀ (by positivity)]

end Decimal

namespace Number

/-- The interval in which the shortest decimal of a number is sought. -/
def interval (m : ℕ) (e : ℤ) : Decimal.Interval where
  low := (4 * m - reach m e) * Decimal.scale e
  value := 4 * m * Decimal.scale e
  high := (4 * m + 2) * Decimal.scale e
  closed := m % 2 = 0

/-- The coarsest grid that is tried. -/
def coarsestGrid (m : ℕ) (e : ℤ) : ℕ :=
  ((Nat.log2 m + 1 + e) * 30103 / 100000 + 2 - min e 0).toNat

theorem shortest_eq (tie : Decimal.Tie) (m : ℕ) (e : ℤ) :
    shortest tie m e = ⟨((interval m e).coarsest tie (coarsestGrid m e)).1,
      min e 0 + ((interval m e).coarsest tie (coarsestGrid m e)).2⟩ := by
  have hreach : (if (decide (m = Nat.pow 2 52) && decide (e ≠ -1074)) = true then 1 else 2) =
      reach m e := by
    simp [reach]
  unfold shortest Decimal.shortest interval
  rw [hreach]
  cases e <;> rfl

/-- A multiple of a power of ten is in the interval if it is rounded to the number. -/
theorem interval_holds_iff {m : ℕ} (hm : 0 < m) (e : ℤ) (factor k : ℕ) :
    (interval m e).holds (factor * (4 * 10 ^ k)) = true ↔
      Rounds m e (factor * 10 ^ (min e 0 + k)) := by
  have hpow : (0 : ℚ) < 10 ^ min e 0 := by positivity
  have hreach := reach_le m e
  set q : ℚ := factor * 10 ^ (min e 0 + k) with hq
  have hscaled : ((factor * (4 * 10 ^ k) : ℕ) : ℚ) * 10 ^ min e 0 = 4 * q := by
    rw [hq, zpow_add₀ (by norm_num), zpow_natCast]
    push_cast
    ring
  have hlow : (((4 * m - reach m e) * Decimal.scale e : ℕ) : ℚ) * 10 ^ min e 0 =
      (4 * m - reach m e) * 2 ^ e := by
    rw [← Decimal.scale_mul, Nat.cast_mul, Nat.cast_sub (by omega)]
    push_cast
    ring
  have hhigh : (((4 * m + 2) * Decimal.scale e : ℕ) : ℚ) * 10 ^ min e 0 = (4 * m + 2) * 2 ^ e := by
    rw [← Decimal.scale_mul]
    push_cast
    ring
  have hle (a b : ℕ) : a ≤ b ↔ (a : ℚ) * 10 ^ min e 0 ≤ b * 10 ^ min e 0 := by
    rw [mul_le_mul_iff_left₀ hpow, Nat.cast_le]
  have hlt (a b : ℕ) : a < b ↔ (a : ℚ) * 10 ^ min e 0 < b * 10 ^ min e 0 := by
    rw [mul_lt_mul_iff_left₀ hpow, Nat.cast_lt]
  rcases Nat.mod_two_eq_zero_or_one m with heven | hodd
  · have hclosed : (interval m e).closed = true := decide_eq_true heven
    rw [Decimal.Interval.holds, if_pos hclosed, Bool.and_eq_true, decide_eq_true_iff,
      decide_eq_true_iff, hle, hle, hscaled, interval, hlow, hhigh]
    exact ⟨fun h => ⟨h.1, h.2, fun hodd => by omega⟩, fun h => ⟨h.low, h.high⟩⟩
  · have hopen : ¬ (interval m e).closed = true := by simp [interval, hodd]
    rw [Decimal.Interval.holds, if_neg hopen, Bool.and_eq_true, decide_eq_true_iff,
      decide_eq_true_iff, hlt, hlt, hscaled, interval, hlow, hhigh]
    exact ⟨fun h => ⟨h.1.le, h.2.le, fun _ => h⟩, fun h => h.between hodd⟩

/-- The shortest decimal of a number is rounded to it. -/
theorem rounds_shortest (tie : Decimal.Tie) {m : ℕ} (hm : 0 < m) (e : ℤ) :
    Rounds m e (shortest tie m e).value := by
  have hvalue : (interval m e).holds ((interval m e).value / 4 * 4) = true := by
    have hself : (interval m e).value / 4 * 4 = m * Decimal.scale e * (4 * 10 ^ 0) := by
      simp only [interval, mul_assoc, Nat.mul_div_cancel_left _ (by decide : 0 < 4)]
      ring
    rw [hself, interval_holds_iff hm]
    have hmagnitude : ((m * Decimal.scale e : ℕ) : ℚ) * 10 ^ (min e 0 + (0 : ℕ)) =
        magnitude m e := by
      rw [magnitude, ← Decimal.scale_mul, Nat.cast_zero, add_zero, Nat.cast_mul, mul_assoc]
    rw [hmagnitude]
    exact rounds_magnitude m e
  rw [shortest_eq]
  exact (interval_holds_iff hm e _ _).mp (Decimal.Interval.holds_coarsest tie hvalue _)

end Number

end ScriptLang
