/-! UTF-8 text from arbitrary bytes. Every maximal run of bytes that begins a sequence but cannot
be completed, and every byte that begins none, becomes one replacement character. -/

namespace ScriptLang.Utf8

/-- What stands for bytes that are no character. -/
def replacement : Char := Char.ofNat 0xFFFD

/-- A decoder between two bytes: outside a sequence, or inside one that still needs `missing`
bytes, the next of them from `low` to `high`; `bits` are the bits read so far. -/
inductive State where
  | idle
  | inside (missing : Nat) (bits : Nat) (low high : UInt8)
deriving DecidableEq, Repr

/-- The first byte of a sequence. The second byte of a sequence is restricted where it would
give an overlong form, a surrogate or a code point above the last one. -/
def first (b : UInt8) : List Char × State :=
  if b < 0x80 then ([Char.ofNat b.toNat], .idle)
  else if b < 0xC2 then ([replacement], .idle)
  else if b < 0xE0 then ([], .inside 1 (b.toNat % 32) 0x80 0xBF)
  else if b = 0xE0 then ([], .inside 2 0 0xA0 0xBF)
  else if b = 0xED then ([], .inside 2 13 0x80 0x9F)
  else if b < 0xF0 then ([], .inside 2 (b.toNat % 16) 0x80 0xBF)
  else if b = 0xF0 then ([], .inside 3 0 0x90 0xBF)
  else if b < 0xF4 then ([], .inside 3 (b.toNat % 8) 0x80 0xBF)
  else if b = 0xF4 then ([], .inside 3 4 0x80 0x8F)
  else ([replacement], .idle)

/-- One byte: the characters it completes and the state after it. -/
def step (b : UInt8) : State → List Char × State
  | .idle => first b
  | .inside missing bits low high =>
    if low ≤ b ∧ b ≤ high then
      let bits := bits * 64 + b.toNat % 64
      if missing ≤ 1 then ([Char.ofNat bits], .idle) else ([], .inside (missing - 1) bits 0x80 0xBF)
    else
      let (chars, state) := first b
      (replacement :: chars, state)

/-- One byte after the characters `out`, which stand last first. -/
def push (out : List Char × State) (b : UInt8) : List Char × State :=
  let (chars, state) := step b out.2
  (chars.reverse ++ out.1, state)

/-- The characters at the end of the bytes, first to last. -/
def finish : List Char × State → List Char
  | (out, .idle) => out.reverse
  | (out, .inside ..) => (replacement :: out).reverse

/-- The text of the bytes. -/
def decode (bytes : List UInt8) : String :=
  String.ofList (finish (bytes.foldl push ([], .idle)))

end ScriptLang.Utf8
