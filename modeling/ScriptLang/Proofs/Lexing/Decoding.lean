import Mathlib.Algebra.Group.Nat.Defs
import ScriptLang.Proofs.Lexing.Characters

/-! Decoding bytes. An ASCII byte ends whatever stands before it, so that a text can be cut at its
ASCII characters before it is decoded or after. The bytes of a text give that text back. -/

namespace ScriptLang.Utf8

/-! ### Decoding from a state on -/

/-- The characters that the bytes complete from a state on. -/
def chars : State → List UInt8 → List Char
  | .idle, [] => []
  | .inside .., [] => [replacement]
  | state, b :: bytes => (step b state).1 ++ chars (step b state).2 bytes

theorem finish_foldl_push (bytes : List UInt8) (out : List Char) (state : State) :
    finish (bytes.foldl push (out, state)) = out.reverse ++ chars state bytes := by
  induction bytes generalizing out state with
  | nil => cases state <;> simp [finish, chars]
  | cons b bytes ih => simp [push, chars, ih]

theorem decode_eq (bytes : List UInt8) : decode bytes = String.ofList (chars .idle bytes) := by
  rw [decode, finish_foldl_push, List.reverse_nil, List.nil_append]

/-- A state that a decoder comes to: the next byte of a sequence is not ASCII, and neither is the
character that the sequence gives. -/
def State.Reached : State → Prop
  | .idle => True
  | .inside missing bits low high => 0x80 ≤ low.toNat ∧ high.toNat < 0xC0 ∧
    128 ≤ (bits * 64 + low.toNat % 64) * 64 ^ (missing - 1)

theorem first_of_ascii {b : UInt8} (h : b < 0x80) : first b = ([Char.ofNat b.toNat], .idle) :=
  if_pos h

/-- A byte of its own is a replacement, and any other byte that is not ASCII begins a sequence. -/
theorem first_of_not_ascii {b : UInt8} (h : ¬ b < 0x80) :
    (first b).2.Reached ∧ ∀ c ∈ (first b).1, c = replacement := by
  have hb : 128 ≤ b.toNat := by simpa [UInt8.lt_iff_toNat_lt] using h
  have hlt := b.toNat_lt
  unfold first
  rw [if_neg h]
  simp only [UInt8.lt_iff_toNat_lt, ← UInt8.toNat_inj, UInt8.toNat_ofNat]
  split_ifs <;> simp [State.Reached] <;> omega

/-- A byte that continues a sequence. -/
theorem step_of_continues {b low high : UInt8} {missing bits : Nat} (h : low ≤ b ∧ b ≤ high) :
    step b (.inside missing bits low high) =
      if missing ≤ 1 then ([Char.ofNat (bits * 64 + b.toNat % 64)], .idle)
      else ([], .inside (missing - 1) (bits * 64 + b.toNat % 64) 0x80 0xBF) :=
  if_pos h

/-- Any other byte ends the sequence before it and is the first of what follows. -/
theorem step_of_breaks {b low high : UInt8} {missing bits : Nat} (h : ¬(low ≤ b ∧ b ≤ high)) :
    step b (.inside missing bits low high) = (replacement :: (first b).1, (first b).2) :=
  if_neg h

theorem bits_le_of_continues {b low high : UInt8} {missing bits : Nat}
    (hstate : (State.inside missing bits low high).Reached) (h : low ≤ b ∧ b ≤ high) :
    128 ≤ (bits * 64 + b.toNat % 64) * 64 ^ (missing - 1) := by
  obtain ⟨hlow, hhigh, hbits⟩ := hstate
  have hle := UInt8.le_iff_toNat_le.mp h.1
  have hle' := UInt8.le_iff_toNat_le.mp h.2
  refine hbits.trans (Nat.mul_le_mul_right _ ?_)
  omega

theorem step_of_ascii {b : UInt8} (h : b < 0x80) {state : State} (hstate : state.Reached) :
    step b state = (chars state [] ++ [Char.ofNat b.toNat], .idle) := by
  cases state with
  | idle => exact first_of_ascii h
  | inside missing bits low high =>
      have hb : b.toNat < 128 := by simpa using UInt8.lt_iff_toNat_lt.mp h
      have hbreaks : ¬(low ≤ b ∧ b ≤ high) := by
        intro hle
        have := UInt8.le_iff_toNat_le.mp hle.1
        have := hstate.1
        omega
      rw [step_of_breaks hbreaks, first_of_ascii h]
      rfl

theorem step_reached (b : UInt8) {state : State} (hstate : state.Reached) :
    (step b state).2.Reached := by
  have hfirst : (first b).2.Reached := by
    by_cases h : b < 0x80
    · rw [first_of_ascii h]
      trivial
    · exact (first_of_not_ascii h).1
  cases state with
  | idle => exact hfirst
  | inside missing bits low high =>
      by_cases h : low ≤ b ∧ b ≤ high
      · rw [step_of_continues h]
        by_cases hmissing : missing ≤ 1
        · rw [if_pos hmissing]
          trivial
        · rw [if_neg hmissing]
          refine ⟨by decide, by decide, ?_⟩
          have hbits := bits_le_of_continues hstate h
          have hpow : 64 ^ (missing - 1) = 64 * 64 ^ (missing - 1 - 1) := by
            rw [← Nat.pow_succ']
            congr 1
            omega
          rw [hpow, ← Nat.mul_assoc] at hbits
          exact hbits
      · rw [step_of_breaks h]
        exact hfirst

/-! ### Cutting at ASCII bytes -/

/-- Bytes around an ASCII byte are decoded each for themselves. -/
theorem chars_append_ascii {b : UInt8} (hb : b < 0x80) (rest : List UInt8) (bytes : List UInt8)
    {state : State} (hstate : state.Reached) : chars state (bytes ++ b :: rest) =
      chars state bytes ++ Char.ofNat b.toNat :: chars .idle rest := by
  induction bytes generalizing state with
  | nil => simp [chars, step_of_ascii hb hstate]
  | cons c bytes ih => simp [chars, ih (step_reached c hstate)]

theorem toNat_ofNat_char {n : Nat} (h : n.isValidChar) : (Char.ofNat n).toNat = n := by
  rw [Char.ofNat, dif_pos h]
  rfl

theorem ofNat_ne_quote {n : Nat} (h : 128 ≤ n) : Char.ofNat n ≠ '"' := by
  by_cases hvalid : n.isValidChar
  · intro heq
    have hquote : n = '"'.toNat := by rw [← toNat_ofNat_char hvalid, heq]
    exact absurd h (by rw [hquote]; decide)
  · rw [Char.ofNat, dif_neg hvalid]
    decide

theorem quote_of_mem_first {b : UInt8} (h : '"' ∈ (first b).1) : b = quote := by
  by_cases hb : b < 0x80
  · rw [first_of_ascii hb, List.mem_singleton] at h
    have hbyte := congrArg byte h
    rw [byte_ofNat hb] at hbyte
    exact hbyte.symm
  · have hreplacement := (first_of_not_ascii hb).2 _ h
    exact absurd hreplacement (by decide)

theorem quote_of_mem_step {b : UInt8} {state : State} (hstate : state.Reached)
    (h : '"' ∈ (step b state).1) : b = quote := by
  cases state with
  | idle => exact quote_of_mem_first h
  | inside missing bits low high =>
      by_cases hle : low ≤ b ∧ b ≤ high
      · rw [step_of_continues hle] at h
        by_cases hmissing : missing ≤ 1
        · rw [if_pos hmissing, List.mem_singleton] at h
          have hbits := bits_le_of_continues hstate hle
          rw [Nat.sub_eq_zero_of_le hmissing, Nat.pow_zero, Nat.mul_one] at hbits
          exact absurd h.symm (ofNat_ne_quote hbits)
        · simp [if_neg hmissing] at h
      · rw [step_of_breaks hle] at h
        rcases List.mem_cons.mp h with h | h
        · exact absurd h (by decide)
        · exact quote_of_mem_first h

/-- A quote in a text stands for a quote in its bytes. -/
theorem quote_of_mem_chars {bytes : List UInt8} {state : State} (hstate : state.Reached)
    (h : '"' ∈ chars state bytes) : quote ∈ bytes := by
  induction bytes generalizing state with
  | nil =>
      cases state with
      | idle => simp [chars] at h
      | inside => exact absurd (List.mem_singleton.mp h) (by decide)
  | cons b bytes ih =>
      rw [chars, List.mem_append] at h
      rcases h with h | h
      · rw [quote_of_mem_step hstate h]
        exact List.mem_cons_self
      · exact List.mem_cons_of_mem b (ih (step_reached b hstate) h)

/-! ### The bytes of a text -/

/-- The first byte of a sequence of two bytes. -/
theorem first_of_two : ∀ n < 224, 194 ≤ n →
    first (.ofNat n) = ([], .inside 1 (n % 32) 0x80 0xBF) := by decide +kernel

theorem first_of_three : ∀ n < 240, 224 ≤ n → first (.ofNat n) = ([], .inside 2 (n % 16)
    (if n = 224 then 0xA0 else 0x80) (if n = 237 then 0x9F else 0xBF)) := by decide +kernel

theorem first_of_four : ∀ n < 245, 240 ≤ n → first (.ofNat n) = ([], .inside 3 (n % 8)
    (if n = 240 then 0x90 else 0x80) (if n = 244 then 0x8F else 0xBF)) := by decide +kernel

theorem chars_first {b : UInt8} {state : State} (h : first b = ([], state)) (rest : List UInt8) :
    chars .idle (b :: rest) = chars state rest := by
  rw [chars, step, h, List.nil_append]

theorem chars_continue {missing bits n : Nat} {low high : UInt8} (hlow : low.toNat ≤ n % 64 + 128)
    (hhigh : n % 64 + 128 ≤ high.toNat) (rest : List UInt8) :
    chars (.inside missing bits low high) (.ofNat (n % 64 + 128) :: rest) =
      if missing ≤ 1 then Char.ofNat (bits * 64 + n % 64) :: chars .idle rest
      else chars (.inside (missing - 1) (bits * 64 + n % 64) 0x80 0xBF) rest := by
  have hbyte : (UInt8.ofNat (n % 64 + 128)).toNat = n % 64 + 128 := toNat_ofNat_lt (by omega)
  have hle : low ≤ .ofNat (n % 64 + 128) ∧ .ofNat (n % 64 + 128) ≤ high := by
    rw [UInt8.le_iff_toNat_le, UInt8.le_iff_toNat_le, hbyte]
    exact ⟨hlow, hhigh⟩
  have hbits : (n % 64 + 128) % 64 = n % 64 := by omega
  rw [chars, step_of_continues hle, hbyte, hbits]
  split <;> rfl

theorem continuation_bounds (n : Nat) :
    (0x80 : UInt8).toNat ≤ n % 64 + 128 ∧ n % 64 + 128 ≤ (0xBF : UInt8).toNat := by
  constructor
  · exact Nat.le_add_left 128 _
  · have hbound : (0xBF : UInt8).toNat = 191 := rfl
    omega

theorem chars_last (bits n : Nat) (rest : List UInt8) :
    chars (.inside 1 bits 0x80 0xBF) (.ofNat (n % 64 + 128) :: rest) =
      Char.ofNat (bits * 64 + n % 64) :: chars .idle rest := by
  rw [chars_continue (continuation_bounds n).1 (continuation_bounds n).2, if_pos (Nat.le_refl 1)]

/-- The bytes of a character give the character: each byte after the first carries six bits. -/
theorem chars_encodeChar (c : Char) (rest : List UInt8) :
    chars .idle (String.utf8EncodeChar c ++ rest) = c :: chars .idle rest := by
  have hvalid : c.val.toNat.isValidChar := c.valid
  have hc : Char.ofNat c.val.toNat = c := Char.ofNat_toNat c
  unfold String.utf8EncodeChar
  generalize c.val.toNat = v at hvalid hc
  simp only
  split_ifs with hone htwo hthree
  · have hascii : UInt8.ofNat v < 0x80 := by
      rw [UInt8.lt_iff_toNat_lt, toNat_ofNat_lt (by omega)]
      exact Nat.lt_succ_of_le hone
    have hchars := chars_append_ascii hascii rest [] (show State.idle.Reached from trivial)
    rwa [toNat_ofNat_lt (by omega), hc] at hchars
  · have hfirst := first_of_two (v / 64 % 32 + 192) (by omega) (by omega)
    have hbits : (v / 64 % 32 + 192) % 32 * 64 + v % 64 = v := by omega
    rw [List.cons_append, chars_first hfirst, List.singleton_append, chars_last, hbits, hc]
  · -- The second byte has narrower bounds after two of the first bytes.
    have hfirst := first_of_three (v / 4096 % 16 + 224) (by omega) (by omega)
    have hlow : (if v / 4096 % 16 + 224 = 224 then 0xA0 else 0x80 : UInt8).toNat ≤
        v / 64 % 64 + 128 := by
      split
      · show 160 ≤ v / 64 % 64 + 128
        omega
      · exact (continuation_bounds _).1
    have hhigh : v / 64 % 64 + 128 ≤
        (if v / 4096 % 16 + 224 = 237 then 0x9F else 0xBF : UInt8).toNat := by
      split
      · show v / 64 % 64 + 128 ≤ 159
        omega
      · exact (continuation_bounds _).2
    have hbits : ((v / 4096 % 16 + 224) % 16 * 64 + v / 64 % 64) * 64 + v % 64 = v := by omega
    rw [List.cons_append, chars_first hfirst, List.cons_append, chars_continue hlow hhigh,
      if_neg (by decide), List.singleton_append, chars_last, hbits, hc]
  · have hfirst := first_of_four (v / 262144 % 8 + 240) (by omega) (by omega)
    have hlow : (if v / 262144 % 8 + 240 = 240 then 0x90 else 0x80 : UInt8).toNat ≤
        v / 4096 % 64 + 128 := by
      split
      · show 144 ≤ v / 4096 % 64 + 128
        omega
      · exact (continuation_bounds _).1
    have hhigh : v / 4096 % 64 + 128 ≤
        (if v / 262144 % 8 + 240 = 244 then 0x8F else 0xBF : UInt8).toNat := by
      split
      · show v / 4096 % 64 + 128 ≤ 143
        omega
      · exact (continuation_bounds _).2
    have hbits : (((v / 262144 % 8 + 240) % 8 * 64 + v / 4096 % 64) * 64 + v / 64 % 64) * 64 +
        v % 64 = v := by omega
    rw [List.cons_append, chars_first hfirst, List.cons_append, chars_continue hlow hhigh,
      if_neg (by decide), List.cons_append,
      chars_continue (continuation_bounds _).1 (continuation_bounds _).2, if_neg (by decide),
      List.singleton_append, chars_last, hbits, hc]

/-- Decoding the bytes of a text gives the text. -/
theorem decode_encode (text : String) : decode (encode text.toList) = text := by
  have hchars (cs : List Char) : chars .idle (encode cs) = cs := by
    induction cs with
    | nil => rfl
    | cons c cs ih => rw [encode_cons, chars_encodeChar, ih]
  rw [decode_eq, hchars, String.ofList_toList]

end ScriptLang.Utf8
