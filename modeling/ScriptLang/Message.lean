import ScriptLang.Token

/-! The wording that all diagnostics share. -/

namespace ScriptLang

/-- Where a static error is, in words. -/
def Token.place (t : Token) : String :=
  if t.isEof then " at end" else " at '" ++ t.lexeme ++ "'"

namespace Message

/-- A static error on a line. -/
def static (line : Nat) (place text : String) : String :=
  "[line " ++ line.repr ++ "] Error" ++ place ++ ": " ++ text

/-- A static error at a token. -/
def atToken (t : Token) (text : String) : String := static t.line t.place text

/-- A failure of a running script, with the line of the token it happened at. -/
def running (t : Token) (text : String) : String :=
  text ++ "\n[line " ++ t.line.repr ++ "]"

end Message

end ScriptLang
