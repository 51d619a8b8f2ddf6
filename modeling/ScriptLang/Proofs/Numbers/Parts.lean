import Mathlib
import ScriptLang.Number

/-! A number and its parts. The parts of a number say all about it: there is one number that is
undefined, and for every other one the bits can be put together from sign, mantissa and exponent. -/

namespace ScriptLang.Number

/-! ### Bits -/

/-- The patterns of 64 bits that stand for no number: the exponent field is full, and the fraction
is not empty. -/
def NaNBits (bits : UInt64) : Prop :=
  bits.toNat / 2 ^ 52 % 2 ^ 11 = 2047 ∧ bits.toNat % 2 ^ 52 ≠ 0

instance (bits : UInt64) : Decidable (NaNBits bits) := inferInstanceAs (Decidable (_ ∧ _))

section Packing

open Float.Model Float.Model.UnpackedFloat

theorem nanBits_iff (bits : UInt64) :
    NaNBits bits ↔ @isNaNBits Format.binary64 bits.toBitVec = true := by
  have hexponent : (@unpackExponent Format.binary64 bits.toBitVec).toNat =
      bits.toNat / 2 ^ 52 % 2 ^ 11 := by
    simp [unpackExponent, Nat.shiftRight_eq_div_pow]
  have hmantissa : (@unpackMantissa Format.binary64 bits.toBitVec).toNat = bits.toNat % 2 ^ 52 := by
    simp [unpackMantissa]
  rw [isNaNBits, decide_eq_true_eq, NaNBits, ← hexponent, ← hmantissa]
  exact and_congr (@BitVec.toNat_inj 11 _ (-1#11)) (not_congr (@BitVec.toNat_inj 52 _ 0#52))

/-- The bits that a pattern of bits is turned into when it is read as a number. -/
theorem toBitVec_ofBits (bits : UInt64) : (Float.ofBits bits).toBits.toBitVec =
    if @isNaNBits Format.binary64 bits.toBitVec = true then packedNaN Format.binary64
    else bits.toBitVec :=
  @UnpackedFloat.pack_unpack Format.binary64 bits.toBitVec (by decide)

/-- Only one pattern of bits is left for the undefined number. -/
theorem toBits_of_nan {x : Float} (hnan : NaNBits x.toBits) :
    x.toBits.toBitVec = packedNaN Format.binary64 := by
  rw [nanBits_iff, isNaNBits, decide_eq_true_eq] at hnan
  exact x.toModel.valid.eq_packedNaN hnan.1 hnan.2

theorem toBits_ofBits {bits : UInt64} (hnan : ¬ NaNBits bits) :
    (Float.ofBits bits).toBits = bits := by
  rw [nanBits_iff] at hnan
  exact UInt64.eq_of_toBitVec_eq ((toBitVec_ofBits bits).trans (if_neg hnan))

/-- Every pattern of bits that stands for no number is read as the one undefined number. -/
theorem nanBits_ofBits {bits : UInt64} (hnan : NaNBits bits) :
    NaNBits (Float.ofBits bits).toBits := by
  rw [nanBits_iff] at hnan
  rw [nanBits_iff, toBitVec_ofBits, if_pos hnan]
  exact isNaNBits_packedNaN

end Packing

/-! ### Parts -/

/-- What mantissa and exponent of a finite number may be: 53 binary digits at most, and no fewer
unless the exponent is the least one. -/
structure Canonical (m : Nat) (e : Int) : Prop where
  lt : m < 2 ^ 53
  least : -1074 ≤ e
  full : e ≠ -1074 → 2 ^ 52 ≤ m

theorem parts_eq_nan_iff {x : Float} : parts x = .nan ↔ NaNBits x.toBits := by
  unfold parts NaNBits
  simp only [Nat.pow_eq]
  split <;> split <;> simp [*]

theorem canonical_of_parts {x : Float} {negative : Bool} {m : Nat} {e : Int}
    (h : parts x = .finite negative m e) : Canonical m e := by
  unfold parts at h
  simp only [Nat.pow_eq] at h
  split at h
  · split at h <;> cases h
  · split at h <;> cases h
    · exact ⟨by omega, by omega, by omega⟩
    · exact ⟨by omega, by omega, by omega⟩

/-- The bits of a number, put together from its parts. The undefined number is left out. -/
def Parts.bits : Parts → Nat
  | .nan => 0
  | .infinite negative => negative.toNat * 2 ^ 63 + 2047 * 2 ^ 52
  | .finite negative m e =>
    negative.toNat * 2 ^ 63 + if m < 2 ^ 52 then m else (e + 1075).toNat * 2 ^ 52 + (m - 2 ^ 52)

theorem bits_parts {x : Float} (hnan : ¬ NaNBits x.toBits) : (parts x).bits = x.toBits.toNat := by
  have hlt := x.toBits.toNat_lt
  have hsign : (decide (x.toBits.toNat / 2 ^ 63 = 1)).toNat = x.toBits.toNat / 2 ^ 63 := by
    by_cases h : x.toBits.toNat / 2 ^ 63 = 1
    · rw [decide_eq_true h, h]
      rfl
    · rw [decide_eq_false h, (by omega : x.toBits.toNat / 2 ^ 63 = 0)]
      rfl
  unfold NaNBits at hnan
  unfold parts
  simp only [Nat.pow_eq]
  split
  · rw [if_pos (by omega), Parts.bits, hsign]
    omega
  · split
    · rw [Parts.bits, hsign, if_pos (by omega)]
      omega
    · rw [Parts.bits, hsign, if_neg (by omega)]
      omega

/-- A number is determined by its parts. -/
theorem parts_injective {x y : Float} (h : parts x = parts y) : x = y := by
  apply Float.toBits_inj.mp
  by_cases hnan : NaNBits x.toBits
  · have hnan' : NaNBits y.toBits := parts_eq_nan_iff.mp (h ▸ parts_eq_nan_iff.mpr hnan)
    exact UInt64.eq_of_toBitVec_eq ((toBits_of_nan hnan).trans (toBits_of_nan hnan').symm)
  · have hnan' : ¬ NaNBits y.toBits :=
      fun hy => hnan (parts_eq_nan_iff.mp (h ▸ parts_eq_nan_iff.mpr hy))
    apply UInt64.toNat_inj.mp
    rw [← bits_parts hnan, ← bits_parts hnan', h]

theorem eq_of_nanBits {x y : Float} (hx : NaNBits x.toBits) (hy : NaNBits y.toBits) : x = y :=
  parts_injective ((parts_eq_nan_iff.mpr hx).trans (parts_eq_nan_iff.mpr hy).symm)

/-- Different patterns of bits are read as different numbers, unless they stand for none. -/
theorem ofBits_eq_iff {a b : UInt64} :
    Float.ofBits a = Float.ofBits b ↔ NaNBits a ∧ NaNBits b ∨ a = b := by
  constructor
  · intro h
    by_cases ha : NaNBits a <;> by_cases hb : NaNBits b
    · exact .inl ⟨ha, hb⟩
    · have hnan := nanBits_ofBits ha
      rw [h, toBits_ofBits hb] at hnan
      exact absurd hnan hb
    · have hnan := nanBits_ofBits hb
      rw [← h, toBits_ofBits ha] at hnan
      exact absurd hnan ha
    · right
      rw [← toBits_ofBits ha, ← toBits_ofBits hb, h]
  · rintro (⟨ha, hb⟩ | rfl)
    · exact eq_of_nanBits (nanBits_ofBits ha) (nanBits_ofBits hb)
    · rfl

end ScriptLang.Number
