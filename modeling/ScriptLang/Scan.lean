import ScriptLang.Message
import ScriptLang.Piece

/-! The tokens and lexical errors of a script, with their lines. -/

namespace ScriptLang

/-- A span that is no token, with the line it ends on. -/
structure LexicalError where
  line : Nat
  cause : LexicalCause
deriving DecidableEq, Repr

def LexicalCause.text : LexicalCause → String
  | .unexpectedCharacter => "Unexpected character."
  | .unterminatedString => "Unterminated string."

def LexicalError.message (e : LexicalError) : String :=
  Message.static e.line "" e.cause.text

/-- What scanning yields: a token, or an error after which it goes on. -/
inductive ScanItem where
  | token (t : Token)
  | error (e : LexicalError)
deriving DecidableEq

/-- The number of line ends in a span. -/
def newlines (bytes : List UInt8) : Nat := bytes.count newline

/-- The item of a piece that ends on `line`; skipped pieces have none. -/
def Piece.item? (p : Piece) (line : Nat) : Option ScanItem :=
  match p.shape with
  | .skipped => none
  | .token kind => some (.token ⟨kind, Utf8.decode p.bytes, line⟩)
  | .error cause => some (.error ⟨line, cause⟩)

/-- The items of some pieces, last first, and the line on which the next piece begins. -/
structure ScanState where
  line : Nat
  items : List ScanItem

/-- One more piece. -/
def ScanState.push (s : ScanState) (p : Piece) : ScanState :=
  let line := s.line + newlines p.bytes
  ⟨line, (p.item? line).toList ++ s.items⟩

/-- All items and the token that ends a script. -/
def ScanState.finish (s : ScanState) : List ScanItem :=
  (.token ⟨.eof, "", s.line⟩ :: s.items).reverse

namespace Source

/-- The tokens and lexical errors of a script in order, ended by one end token. -/
def scan (source : Source) : List ScanItem :=
  (source.pieces.foldl ScanState.push ⟨1, []⟩).finish

/-- The tokens of a script. -/
def tokens (source : Source) : List Token :=
  source.scan.filterMap fun
    | .token t => some t
    | .error _ => none

/-- The lexical errors of a script. -/
def lexicalErrors (source : Source) : List LexicalError :=
  source.scan.filterMap fun
    | .token _ => none
    | .error e => some e

end Source

end ScriptLang
