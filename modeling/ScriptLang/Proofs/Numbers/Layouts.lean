import ScriptLang.Proofs.Numbers.Texts

/-! Which layout a printed number has. The choice is made by the exponent of the first digit of the
shortest decimal, and comes to the same as a comparison of the number itself with a thousandth and
with ten million; a whole number in between is printed as its digits. -/

namespace ScriptLang

namespace Decimal

/-! ### The first digit -/

theorem width_eq (d : Decimal) : d.width = (Nat.toDigits 10 d.digits).length := by
  rw [width, ← String.length_toList, Nat.toList_repr]

/-- A decimal lies between the power of ten of its first digit and the next one. -/
theorem zpow_magnitude_le {d : Decimal} (hd : 0 < d.digits) :
    (10 : ℚ) ^ d.magnitude ≤ d.value ∧ d.value < 10 ^ (d.magnitude + 1) := by
  have hpow : (0 : ℚ) < 10 ^ d.exponent := by positivity
  have hwidth : 0 < d.width := by rw [width_eq]; exact Nat.length_toDigits_pos
  have hlow : 10 ^ (d.width - 1) ≤ d.digits := by
    by_cases hone : d.width = 1
    · rw [hone]
      exact hd
    · have hlonger : ¬ (Nat.toDigits 10 d.digits).length ≤ d.width - 1 := by
        rw [← width_eq]
        omega
      rw [Nat.length_toDigits_le_iff (by decide) (by omega)] at hlonger
      exact Nat.le_of_not_lt hlonger
  have hhigh : d.digits < 10 ^ d.width :=
    (Nat.length_toDigits_le_iff (by decide) hwidth).mp (width_eq d).ge
  constructor
  · have hsplit : d.magnitude = ((d.width - 1 : ℕ) : ℤ) + d.exponent := by
      rw [magnitude]
      omega
    rw [hsplit, zpow_add₀ (by norm_num), zpow_natCast, value]
    gcongr
    exact_mod_cast hlow
  · have hsplit : d.magnitude + 1 = (d.width : ℤ) + d.exponent := by
      rw [magnitude]
      ring
    rw [hsplit, zpow_add₀ (by norm_num), zpow_natCast, value]
    gcongr
    exact_mod_cast hhigh

/-- The first digit stands where the decimal reaches the power of ten. -/
theorem le_magnitude_iff {d : Decimal} (hd : 0 < d.digits) (k : ℤ) :
    k ≤ d.magnitude ↔ (10 : ℚ) ^ k ≤ d.value := by
  obtain ⟨hlow, hhigh⟩ := zpow_magnitude_le hd
  constructor
  · intro hk
    exact (zpow_le_zpow_right₀ (by norm_num) hk).trans hlow
  · intro hk
    have hlt := (zpow_lt_zpow_iff_right₀ (by norm_num : (1 : ℚ) < 10)).mp (hk.trans_lt hhigh)
    omega

end Decimal

namespace Number

theorem Rounds.pos {m : ℕ} {e : ℤ} {q : ℚ} (h : Rounds m e q) (hm : 0 < m) : 0 < q := by
  have hpow : (0 : ℚ) < 2 ^ e := by positivity
  have hreach : (reach m e : ℚ) ≤ 2 := by exact_mod_cast reach_le m e
  have hcast : (1 : ℚ) ≤ m := by exact_mod_cast hm
  have hlow := h.low
  have : (0 : ℚ) < (4 * m - reach m e) * 2 ^ e := mul_pos (by linarith) hpow
  linarith

theorem digits_shortest_pos (tie : Decimal.Tie) {m : ℕ} (hm : 0 < m) (e : ℤ) :
    0 < (shortest tie m e).digits := by
  have hpos := (rounds_shortest tie hm e).pos hm
  by_contra hzero
  have hdigits : (shortest tie m e).digits = 0 := by omega
  simp [Decimal.value, hdigits] at hpos

/-- Shortest decimals are on the same side of a decimal as the numbers themselves, if that decimal
is the shortest one of a number. -/
theorem le_value_shortest_iff {m m' : ℕ} {e e' : ℤ} (hm : 0 < m) (h : Canonical m e)
    (h' : Canonical m' e') (tie : Decimal.Tie) {q : ℚ} (hq : Rounds m' e' q)
    (hshortest : (shortest tie m' e').value = q) :
    q ≤ (shortest tie m e).value ↔ magnitude m' e' ≤ magnitude m e := by
  have hrounds := rounds_shortest tie hm e
  constructor
  · intro hle
    by_contra hlt
    exact absurd (hrounds.lt hq h h' (lt_of_not_ge hlt)) (not_lt.mpr hle)
  · intro hle
    rcases hle.lt_or_eq with hlt | heq
    · exact (hq.lt hrounds h' h hlt).le
    · obtain ⟨rfl, rfl⟩ := h'.eq_of_magnitude h heq
      exact hshortest.ge

/-- The same, in terms of the decimal. -/
theorem le_magnitude_shortest_iff {m m' : ℕ} {e e' : ℤ} (hm : 0 < m) (h : Canonical m e)
    (h' : Canonical m' e') (tie : Decimal.Tie) {k : ℤ} (hk : Rounds m' e' (10 ^ k))
    (hshortest : shortest tie m' e' = ⟨1, k⟩) (hle : (10 : ℚ) ^ k ≤ magnitude m' e') :
    k ≤ (shortest tie m e).magnitude ↔ (10 : ℚ) ^ k ≤ magnitude m e := by
  have hvalue : (shortest tie m' e').value = 10 ^ k := by simp [hshortest, Decimal.value]
  rw [Decimal.le_magnitude_iff (digits_shortest_pos tie hm e),
    le_value_shortest_iff hm h h' tie hk hvalue]
  constructor
  · exact hle.trans
  · intro hk'
    by_contra hlt
    exact absurd ((rounds_magnitude m e).lt hk h h' (lt_of_not_ge hlt)) (not_lt.mpr hk')

/-- The first digit of a number from ten million on stands at least for ten millions. -/
theorem seven_le_magnitude_iff {m : ℕ} {e : ℤ} (hm : 0 < m) (h : Canonical m e) :
    7 ≤ (shortest .up m e).magnitude ↔ (10 : ℚ) ^ (7 : ℤ) ≤ magnitude m e := by
  have hcanonical : Canonical (10 ^ 7 * 2 ^ 29) (-29) :=
    ⟨by norm_num, by norm_num, fun _ => by norm_num⟩
  have hmagnitude : magnitude (10 ^ 7 * 2 ^ 29) (-29) = 10 ^ (7 : ℤ) := by
    norm_num [magnitude]
  refine le_magnitude_shortest_iff hm h hcanonical .up ?_ (by decide +kernel) hmagnitude.ge
  rw [← hmagnitude]
  exact rounds_magnitude _ _

/-- The first digit of a number from a thousandth on stands at least for thousandths. -/
theorem neg_three_le_magnitude_iff {m : ℕ} {e : ℤ} (hm : 0 < m) (h : Canonical m e) :
    -3 ≤ (shortest .up m e).magnitude ↔ (10 : ℚ) ^ (-3 : ℤ) ≤ magnitude m e := by
  -- The number nearest to a thousandth is a little greater.
  have hcanonical : Canonical 4611686018427388 (-62) :=
    ⟨by norm_num, by norm_num, fun _ => by norm_num⟩
  refine le_magnitude_shortest_iff hm h hcanonical .up ?_ (by decide +kernel) ?_
  · refine ⟨?_, ?_, ?_⟩ <;> norm_num [reach]
  · norm_num [magnitude]

/-! ### Whole numbers -/

/-- Every whole number below two to the 53rd is one of the finite numbers. -/
theorem exists_canonical {n : ℕ} (hn : 0 < n) (hlt : n < 2 ^ 53) :
    ∃ m e, Canonical m e ∧ magnitude m e = n := by
  have hlog : n.log2 ≤ 52 := by
    have := (Nat.log2_lt (by omega)).mpr hlt
    omega
  have hle := Nat.log2_self_le (by omega : n ≠ 0)
  have hgt : n < 2 ^ (n.log2 + 1) := Nat.lt_log2_self
  have hsplit : 2 ^ 52 = 2 ^ n.log2 * 2 ^ (52 - n.log2) := by
    rw [← Nat.pow_add]
    congr 1
    omega
  refine ⟨n * 2 ^ (52 - n.log2), n.log2 - 52, ⟨?_, by omega, fun _ => ?_⟩, ?_⟩
  · calc n * 2 ^ (52 - n.log2) < 2 ^ (n.log2 + 1) * 2 ^ (52 - n.log2) := by gcongr
      _ = 2 ^ 53 := by rw [← Nat.pow_add]; congr 1; omega
  · calc 2 ^ 52 = 2 ^ n.log2 * 2 ^ (52 - n.log2) := hsplit
      _ ≤ n * 2 ^ (52 - n.log2) := by gcongr
  · have hexponent : ((n.log2 : ℤ) - 52) = -((52 - n.log2 : ℕ) : ℤ) := by omega
    rw [magnitude, hexponent, zpow_neg, zpow_natCast]
    push_cast
    rw [mul_inv_cancel_right₀ (by positivity)]

/-- A whole number that is rounded to a number is that number. -/
theorem Rounds.eq_natCast {m n : ℕ} {e : ℤ} (h : Rounds m e n) (hcanonical : Canonical m e)
    (hn : 0 < n) (hlt : n < 2 ^ 53) : magnitude m e = n := by
  obtain ⟨m', e', hcanonical', hmagnitude⟩ := exists_canonical hn hlt
  have hself := rounds_magnitude m' e'
  rw [hmagnitude] at hself
  obtain ⟨rfl, rfl⟩ := h.unique hself hcanonical hcanonical'
  exact hmagnitude

end Number

theorem Decimal.Interval.nearest?_ne_none {i : Interval} {tie : Tie} {k : ℕ}
    (hbelow : i.holds (i.value / (4 * 10 ^ k) * (4 * 10 ^ k)) = true) :
    i.nearest? tie k ≠ none := by
  unfold Interval.nearest?
  simp only [Nat.pow_eq, hbelow]
  cases i.holds ((i.value / (4 * 10 ^ k) + 1) * (4 * 10 ^ k)) <;> grind

theorem Decimal.Interval.le_coarsest {i : Interval} {tie : Tie} {k start : ℕ}
    (hfound : i.nearest? tie k ≠ none) (hk : k ≤ start) : k ≤ (i.coarsest tie start).2 := by
  induction start with
  | zero => omega
  | succ j ih =>
      unfold Interval.coarsest
      split
      · exact hk
      · rename_i hnone
        apply ih
        rcases Nat.lt_or_eq_of_le hk with hlt | rfl
        · omega
        · exact absurd hnone hfound

namespace Number

theorem coarsestGrid_ge {m : ℕ} {e : ℤ} (hone : 1 ≤ magnitude m e) :
    (-min e 0).toNat ≤ coarsestGrid m e := by
  have hbound : (0 : ℤ) ≤ Nat.log2 m + 1 + e := by
    by_contra hneg
    have hm : (m : ℚ) < 2 ^ (m.log2 + 1) := by exact_mod_cast Nat.lt_log2_self
    have hlt : magnitude m e < 1 := by
      calc magnitude m e < 2 ^ (m.log2 + 1) * 2 ^ e := by unfold magnitude; gcongr
        _ = 2 ^ ((m.log2 + 1 : ℕ) + e) := by rw [zpow_add₀ (by norm_num), zpow_natCast]
        _ ≤ 2 ^ (0 : ℤ) := zpow_le_zpow_right₀ (by norm_num) (by push_cast; omega)
        _ = 1 := zpow_zero 2
    linarith
  unfold coarsestGrid
  omega

/-- The shortest decimal of a whole number has no decimal places. -/
theorem exponent_shortest_nonneg (tie : Decimal.Tie) {m n : ℕ} {e : ℤ} (hn : 0 < n)
    (hmagnitude : magnitude m e = n) : 0 ≤ (shortest tie m e).exponent := by
  have hone : (1 : ℚ) ≤ n := by exact_mod_cast hn
  have hm : 0 < m := by
    rcases Nat.eq_zero_or_pos m with rfl | hm
    · rw [magnitude, Nat.cast_zero, zero_mul] at hmagnitude
      linarith
    · exact hm
  set k := (-min e 0).toNat with hk
  have hunit : min e 0 + (k : ℤ) = 0 := by omega
  have hscaled : m * Decimal.scale e = n * 10 ^ k := by
    have hten : (10 : ℚ) ^ min e 0 * 10 ^ k = 1 := by
      rw [← zpow_natCast, ← zpow_add₀ (by norm_num), hunit, zpow_zero]
    have hcast : ((m * Decimal.scale e : ℕ) : ℚ) = (n * 10 ^ k : ℕ) := by
      push_cast
      calc (m * Decimal.scale e : ℚ) = m * (Decimal.scale e * 10 ^ min e 0) * 10 ^ k := by
            rw [mul_assoc, mul_assoc, hten, mul_one]
        _ = n * 10 ^ k := by rw [Decimal.scale_mul, ← hmagnitude, magnitude]
    exact_mod_cast hcast
  have hbelow : (interval m e).value / (4 * 10 ^ k) = n := by
    simp only [interval, mul_assoc, hscaled]
    rw [← mul_assoc, mul_comm 4 n, mul_assoc, Nat.mul_div_cancel _ (by positivity)]
  have hholds :
      (interval m e).holds ((interval m e).value / (4 * 10 ^ k) * (4 * 10 ^ k)) = true := by
    rw [hbelow, interval_holds_iff hm, hunit, zpow_zero, mul_one, ← hmagnitude]
    exact rounds_magnitude m e
  have hgrid : k ≤ coarsestGrid m e := coarsestGrid_ge (by rwa [hmagnitude])
  have hle : k ≤ ((interval m e).coarsest tie (coarsestGrid m e)).2 :=
    Decimal.Interval.le_coarsest (Decimal.Interval.nearest?_ne_none hholds) hgrid
  rw [shortest_eq]
  show (0 : ℤ) ≤ min e 0 + ((interval m e).coarsest tie (coarsestGrid m e)).2
  omega

end Number

namespace Numeral

/-- Zeros behind the digits of a number multiply it by ten. -/
theorem repr_mul_pow {n : ℕ} (hn : 0 < n) (k : ℕ) :
    (n * 10 ^ k).repr.toList = n.repr.toList ++ List.replicate k '0' := by
  induction k with
  | zero => simp
  | succ k ih =>
      rw [Nat.toList_repr, Nat.toList_repr] at *
      have hstep : n * 10 ^ (k + 1) = 10 * (n * 10 ^ k) + 0 := by ring
      rw [hstep, ← Nat.toDigits_append_toDigits (by decide) (by positivity) (by decide), ih,
        List.replicate_succ', List.append_assoc]
      rfl

/-! ### Layouts -/

/-- How the text of a positive number is laid out: with an exponent, and at least one decimal place,
below a thousandth and from ten million on; between these as the digits of a whole number, or as
digits on both sides of a point. -/
inductive Layout (q : ℚ) : String → Prop where
  | scientific {c : Char} {cs : List Char} (k : ℤ) : q < 1 / 1000 ∨ 10 ^ 7 ≤ q →
      Digits (c :: cs) → cs ≠ [] →
      Layout q (String.ofList (c :: '.' :: cs) ++ Value.exponentText k)
  | whole {n : ℕ} : 1 / 1000 ≤ q → q < 10 ^ 7 → q = n → Layout q n.repr
  | fractional {whole fraction : List Char} : 1 / 1000 ≤ q → q < 10 ^ 7 → (∀ n : ℕ, q ≠ n) →
      Digits whole → whole ≠ [] → Digits fraction → fraction ≠ [] →
      Layout q (String.ofList (whole ++ '.' :: fraction))

open Number

theorem layout_scientific {d : Decimal} {q : ℚ} (hq : q < 1 / 1000 ∨ 10 ^ 7 ≤ q) :
    Layout q (d.mantissaText ".0" ++ Value.exponentText d.magnitude) := by
  obtain ⟨c, cs, hmantissa, hne, hdigits, -⟩ := plain_mantissaText d
  have htext : d.mantissaText ".0" = String.ofList (c :: '.' :: cs) := by
    rw [← hmantissa, String.ofList_toList]
  rw [htext]
  exact .scientific _ hq hdigits hne

/-- A number between a thousandth and ten million is printed as a whole number if it is one. -/
theorem layout_positional {m : ℕ} {e : ℤ} (hm : 0 < m) (h : Canonical m e)
    (hlow : 1 / 1000 ≤ magnitude m e) (hhigh : magnitude m e < 10 ^ 7) :
    Layout (magnitude m e) (shortest .up m e).positional := by
  have hrounds := rounds_shortest .up hm e
  have hpos := digits_shortest_pos .up hm e
  have hsmall : (shortest .up m e).value < 10 ^ (7 : ℤ) := by
    rw [← not_le, ← Decimal.le_magnitude_iff hpos, seven_le_magnitude_iff hm h, not_le]
    exact_mod_cast hhigh
  -- A shortest decimal without decimal places is a whole number, and so is the number.
  have hwhole (digits n : ℕ) (heq : shortest .up m e = ⟨digits, .ofNat n⟩) :
      magnitude m e = (digits * 10 ^ n : ℕ) := by
    have hvalue : (shortest .up m e).value = (digits * 10 ^ n : ℕ) := by
      simp [heq, Decimal.value]
    rw [hvalue] at hrounds hsmall
    rw [heq] at hpos
    refine hrounds.eq_natCast h (Nat.mul_pos hpos (by positivity)) ?_
    have hlt : digits * 10 ^ n < 10 ^ 7 := by exact_mod_cast hsmall
    exact hlt.trans (by norm_num)
  rcases hshortest : shortest .up m e with ⟨digits, n | n⟩
  · have heq := hwhole digits n hshortest
    rw [hshortest] at hpos
    have htext : Decimal.positional ⟨digits, .ofNat n⟩ = (digits * 10 ^ n).repr := by
      rw [← String.toList_inj, repr_mul_pow hpos]
      simp [Decimal.positional]
    rw [htext]
    exact .whole hlow hhigh heq
  · obtain ⟨whole, fraction, htext, hdigits, hne, hfraction, hlength, -⟩ :=
      positional_negSucc digits n
    rw [htext]
    refine .fractional hlow hhigh (fun k hk => ?_) hdigits hne hfraction
      (List.ne_nil_of_length_pos (by omega))
    have hk' : 0 < k := by
      rw [hk] at hlow
      rcases Nat.eq_zero_or_pos k with rfl | hk'
      · norm_num at hlow
      · exact hk'
    have hexponent := exponent_shortest_nonneg .up hk' hk
    rw [hshortest] at hexponent
    exact absurd hexponent (not_le.mpr (Int.negSucc_lt_zero n))

end Numeral

end ScriptLang
