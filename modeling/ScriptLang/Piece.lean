import ScriptLang.Text.Utf8
import ScriptLang.Token

/-! The pieces of a script. Every script falls into pieces, one after another and with nothing
between them: blanks and comments, the spans of tokens, and spans that are no token. -/

namespace ScriptLang

/-- A script, as it is read. -/
abbrev Source := List UInt8

/-- Why a span of a script is no token. -/
inductive LexicalCause where
  | unexpectedCharacter
  | unterminatedString
deriving DecidableEq, Repr

/-- What a piece is. -/
inductive Shape where
  | skipped
  | token (kind : Kind)
  | error (cause : LexicalCause)
deriving DecidableEq

/-- A span of a script. -/
structure Piece where
  shape : Shape
  bytes : List UInt8
deriving DecidableEq

/-! ### Classes of bytes -/

/-- The byte of an ASCII character. -/
def byte (c : Char) : UInt8 := c.toNat.toUInt8

def isDigit (b : UInt8) : Bool := byte '0' ≤ b && b ≤ byte '9'

/-- A letter or an underscore. -/
def isLetter (b : UInt8) : Bool :=
  byte 'a' ≤ b && b ≤ byte 'z' || byte 'A' ≤ b && b ≤ byte 'Z' || b == byte '_'

def isWordByte (b : UInt8) : Bool := isLetter b || isDigit b

/-- A byte that continues a character of several bytes. -/
def isContinuation (b : UInt8) : Bool := 0x80 ≤ b && b ≤ 0xBF

def newline : UInt8 := byte '\n'

def quote : UInt8 := byte '"'

/-- A byte of a comment. -/
def inLine (b : UInt8) : Bool := b != newline

/-- A byte of a string's contents. -/
def inQuotes (b : UInt8) : Bool := b != quote

/-! ### The first piece -/

namespace Piece

/-- A piece and the bytes after it. -/
abbrev Split := Piece × List UInt8

/-- A piece of `b` alone. -/
def single (shape : Shape) (b : UInt8) (rest : List UInt8) : Split :=
  (⟨shape, [b]⟩, rest)

/-- A piece of `b`, and of an equals sign if one follows. -/
def withEqual (alone doubled : Kind) (b : UInt8) (rest : List UInt8) : Split :=
  match rest with
  | [] => single (.token alone) b []
  | c :: after =>
    if c = byte '=' then (⟨.token doubled, [b, c]⟩, after) else single (.token alone) b rest

/-- A slash, or a comment up to the end of its line. -/
def slash (b : UInt8) (rest : List UInt8) : Split :=
  match rest with
  | [] => single (.token .slash) b []
  | c :: after =>
    if c = byte '/' then
      (⟨.skipped, b :: c :: after.takeWhile inLine⟩, after.dropWhile inLine)
    else single (.token .slash) b rest

/-- A string up to the next quote, or an unterminated one up to the end. -/
def string (b : UInt8) (rest : List UInt8) : Split :=
  let contents := rest.takeWhile inQuotes
  match rest.dropWhile inQuotes with
  | [] => (⟨.error .unterminatedString, b :: contents⟩, [])
  | closing :: after =>
    (⟨.token (.string (Utf8.decode contents)), b :: contents ++ [closing]⟩, after)

/-- Digits, and a point and digits if both follow. -/
def number (b : UInt8) (rest : List UInt8) : Split :=
  let whole := b :: rest.takeWhile isDigit
  let after := rest.dropWhile isDigit
  match after with
  | point :: d :: tail =>
    if point = byte '.' ∧ isDigit d then
      let fraction := d :: tail.takeWhile isDigit
      (⟨.token (.number (Number.ofDigits whole fraction)), whole ++ point :: fraction⟩,
        tail.dropWhile isDigit)
    else (⟨.token (.number (Number.ofDigits whole [])), whole⟩, after)
  | _ => (⟨.token (.number (Number.ofDigits whole [])), whole⟩, after)

/-- A word: a letter or underscore and all letters, underscores and digits after it. -/
def word (b : UInt8) (rest : List UInt8) : Split :=
  let bytes := b :: rest.takeWhile isWordByte
  (⟨.token (Kind.ofWord (Utf8.decode bytes)), bytes⟩, rest.dropWhile isWordByte)

/-- A byte that begins nothing, with the bytes that continue its character. -/
def unexpected (b : UInt8) (rest : List UInt8) : Split :=
  if b < 0x80 then single (.error .unexpectedCharacter) b rest
  else (⟨.error .unexpectedCharacter, b :: rest.takeWhile isContinuation⟩,
    rest.dropWhile isContinuation)

/-- The kinds written as one byte that begins no other token. -/
def punctuation? (b : UInt8) : Option Kind :=
  if b = byte '(' then some .leftParen
  else if b = byte ')' then some .rightParen
  else if b = byte '\x7b' then some .leftBrace
  else if b = byte '\x7d' then some .rightBrace
  else if b = byte ',' then some .comma
  else if b = byte '.' then some .dot
  else if b = byte '-' then some .minus
  else if b = byte '+' then some .plus
  else if b = byte ';' then some .semicolon
  else if b = byte '*' then some .star
  else none

def isBlank (b : UInt8) : Bool :=
  b == byte ' ' || b == byte '\r' || b == byte '\t' || b == newline

/-- The first piece of `b :: rest` and the bytes after it. -/
def split (b : UInt8) (rest : List UInt8) : Split :=
  if isBlank b then single .skipped b rest
  else match punctuation? b with
  | some kind => single (.token kind) b rest
  | none =>
    if b = byte '!' then withEqual .bang .bangEqual b rest
    else if b = byte '=' then withEqual .equal .equalEqual b rest
    else if b = byte '<' then withEqual .less .lessEqual b rest
    else if b = byte '>' then withEqual .greater .greaterEqual b rest
    else if b = byte '/' then slash b rest
    else if b = quote then string b rest
    else if isDigit b then number b rest
    else if isLetter b then word b rest
    else unexpected b rest

/-! ### Forms of pieces -/

/-- How a script that begins with `b` is split. -/
inductive Form (b : UInt8) : (UInt8 → List UInt8 → Split) → Prop where
  | blank : Form b (single .skipped)
  | punctuation {kind : Kind} : punctuation? b = some kind → Form b (single (.token kind))
  | bang : Form b (withEqual .bang .bangEqual)
  | equal : Form b (withEqual .equal .equalEqual)
  | less : Form b (withEqual .less .lessEqual)
  | greater : Form b (withEqual .greater .greaterEqual)
  | slash : Form b slash
  | string : Form b string
  | number : Form b number
  | word : Form b word
  | unexpected : Form b unexpected

theorem form_of_ite {b : UInt8} {condition : Prop} [Decidable condition]
    {form : UInt8 → List UInt8 → Split} {f : List UInt8 → Split} (hform : Form b form)
    (hf : ∃ form, Form b form ∧ ∀ rest, f rest = form b rest) :
    ∃ form', Form b form' ∧ ∀ rest, (if condition then form b rest else f rest) = form' b rest := by
  by_cases h : condition
  · exact ⟨form, hform, fun rest => if_pos h⟩
  · simpa only [if_neg h] using hf

/-- The first byte alone decides the form of the first piece. -/
theorem split_form (b : UInt8) : ∃ form, Form b form ∧ ∀ rest, split b rest = form b rest := by
  unfold split
  refine form_of_ite .blank ?_
  cases hkind : punctuation? b with
  | some kind => exact ⟨_, .punctuation hkind, fun _ => rfl⟩
  | none =>
      refine form_of_ite .bang <| form_of_ite .equal <| form_of_ite .less <|
        form_of_ite .greater <| form_of_ite .slash <| form_of_ite .string <|
        form_of_ite .number <| form_of_ite .word ?_
      exact ⟨_, .unexpected, fun _ => rfl⟩

/-! ### Pieces tile -/

/-- A split loses no byte and adds none. -/
def Split.Tiles (s : Split) (bytes : List UInt8) : Prop :=
  s.1.bytes ++ s.2 = bytes ∧ s.1.bytes ≠ []

theorem single_tiles (shape : Shape) (b : UInt8) (rest : List UInt8) :
    (single shape b rest).Tiles (b :: rest) := by
  simp [single, Split.Tiles]

theorem withEqual_tiles (alone doubled : Kind) (b : UInt8) (rest : List UInt8) :
    (withEqual alone doubled b rest).Tiles (b :: rest) := by
  cases rest with
  | nil => exact single_tiles _ b []
  | cons c after =>
      by_cases h : c = byte '='
      · simp [withEqual, h, Split.Tiles]
      · simpa [withEqual, h] using single_tiles _ b (c :: after)

theorem slash_tiles (b : UInt8) (rest : List UInt8) : (slash b rest).Tiles (b :: rest) := by
  cases rest with
  | nil => exact single_tiles _ b []
  | cons c after =>
      by_cases h : c = byte '/'
      · simp [slash, h, Split.Tiles, List.takeWhile_append_dropWhile]
      · simpa [slash, h] using single_tiles _ b (c :: after)

theorem string_tiles (b : UInt8) (rest : List UInt8) : (string b rest).Tiles (b :: rest) := by
  have h := List.takeWhile_append_dropWhile (p := inQuotes) (l := rest)
  unfold string
  simp only
  split <;> rename_i heq <;> rw [heq] at h
  · simpa [Split.Tiles] using h
  · simp [Split.Tiles, h]

theorem number_tiles (b : UInt8) (rest : List UInt8) : (number b rest).Tiles (b :: rest) := by
  have h := List.takeWhile_append_dropWhile (p := isDigit) (l := rest)
  unfold number
  simp only
  split
  · rename_i point d tail heq
    rw [heq] at h
    split
    · simp [Split.Tiles, List.takeWhile_append_dropWhile, h]
    · simp [Split.Tiles, heq, h]
  · simp [Split.Tiles, h]

theorem word_tiles (b : UInt8) (rest : List UInt8) : (word b rest).Tiles (b :: rest) := by
  simp [word, Split.Tiles, List.takeWhile_append_dropWhile]

theorem unexpected_tiles (b : UInt8) (rest : List UInt8) :
    (unexpected b rest).Tiles (b :: rest) := by
  unfold unexpected
  split
  · exact single_tiles _ b rest
  · simp [Split.Tiles, List.takeWhile_append_dropWhile]

theorem split_tiles (b : UInt8) (rest : List UInt8) : (split b rest).Tiles (b :: rest) := by
  obtain ⟨form, hform, hsplit⟩ := split_form b
  rw [hsplit]
  cases hform with
  | blank | punctuation => exact single_tiles _ b rest
  | bang | equal | less | greater => exact withEqual_tiles _ _ b rest
  | slash => exact slash_tiles b rest
  | string => exact string_tiles b rest
  | number => exact number_tiles b rest
  | word => exact word_tiles b rest
  | unexpected => exact unexpected_tiles b rest

theorem split_snd_length (b : UInt8) (rest : List UInt8) :
    (split b rest).2.length < (b :: rest).length := by
  obtain ⟨happ, hne⟩ := split_tiles b rest
  have := congrArg List.length happ
  have := List.length_pos_iff.mpr hne
  simp only [List.length_append] at *
  omega

end Piece

namespace Source

/-- The pieces of a script after those in `front`, which stand last first. -/
def piecesAfter (front : List Piece) (source : Source) : List Piece :=
  match source with
  | [] => front.reverse
  | b :: rest => piecesAfter ((Piece.split b rest).1 :: front) (Piece.split b rest).2
termination_by source.length
decreasing_by exact Piece.split_snd_length b rest

/-- The pieces of a script, in order. -/
def pieces (source : Source) : List Piece := piecesAfter [] source

theorem piecesAfter_eq (front : List Piece) (source : Source) :
    piecesAfter front source = front.reverse ++ pieces source := by
  induction hn : source.length using Nat.strongRecOn generalizing front source with
  | ind n ih =>
      subst hn
      cases source with
      | nil => simp [pieces, piecesAfter]
      | cons b rest =>
          have hlt := Piece.split_snd_length b rest
          rw [pieces, piecesAfter, piecesAfter, ih _ hlt _ _ rfl, ih _ hlt _ _ rfl]
          simp

@[simp]
theorem pieces_nil : pieces [] = [] := by
  simp [pieces, piecesAfter]

theorem pieces_cons (b : UInt8) (rest : List UInt8) :
    pieces (b :: rest) = (Piece.split b rest).1 :: pieces (Piece.split b rest).2 := by
  rw [pieces, piecesAfter, piecesAfter_eq]
  simp

end Source

end ScriptLang
