import ScriptLang.Token

/-! Tokens as JSON objects on one line. -/

namespace ScriptLang.Json

/-- Two hexadecimal digits of a number below 256. -/
def hexByte (n : Nat) : List Char :=
  [Nat.digitChar (n / 16 % 16), Nat.digitChar (n % 16)]

/-- A character inside a JSON string. Only quotes, backslashes and control characters are
escaped. -/
def escape (c : Char) : List Char :=
  match c with
  | '"' => ['\\', '"']
  | '\\' => ['\\', '\\']
  | '\n' => ['\\', 'n']
  | '\r' => ['\\', 'r']
  | '\t' => ['\\', 't']
  | c =>
    if c.toNat = 8 then ['\\', 'b']
    else if c.toNat = 12 then ['\\', 'f']
    else if c.toNat < 32 then ['\\', 'u', '0', '0'] ++ hexByte c.toNat
    else [c]

/-- A JSON string. -/
def string (s : String) : String :=
  "\"" ++ String.ofList (s.toList.flatMap escape) ++ "\""

/-- The exponent of a number in scientific notation, always with its sign. -/
def exponentText : Int → String
  | .ofNat n => "e+" ++ n.repr
  | .negSucc n => "e-" ++ (n + 1).repr

/-- A JSON number: shortest digits, positional from `1e-5` to below `1e16` with at least one
decimal place, scientific elsewhere. Numbers that are not finite become null. -/
def number (x : Float) : String :=
  match Number.parts x with
  | .nan => "null"
  | .infinite _ => "null"
  | .finite negative 0 _ => Number.signed negative "0.0"
  | .finite negative mantissa exponent =>
    let d := Number.shortest .toEven mantissa exponent
    let body :=
      if d.magnitude < -5 ∨ 15 < d.magnitude then
        d.mantissaText "" ++ exponentText d.magnitude
      else if d.exponent < 0 then d.positional
      else d.positional ++ ".0"
    Number.signed negative body

end ScriptLang.Json

namespace ScriptLang.Kind

/-- A kind in JSON: its name, or an object that maps its name to what it carries. -/
def json : Kind → String
  | .string contents => "\x7b\"STRING\":" ++ Json.string contents ++ "\x7d"
  | .number value => "\x7b\"NUMBER\":" ++ Json.number value ++ "\x7d"
  | kind => Json.string kind.name

end ScriptLang.Kind

namespace ScriptLang.Token

/-- A token in JSON. -/
def json (t : Token) : String :=
  "\x7b\"token_type\":" ++ t.kind.json ++ ",\"lexeme\":" ++ Json.string t.lexeme ++
    ",\"line\":" ++ t.line.repr ++ "\x7d"

end ScriptLang.Token
