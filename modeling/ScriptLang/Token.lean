import ScriptLang.Number

/-! Tokens: what a script is made of once blanks and comments are gone. -/

namespace ScriptLang

/-- The kinds of tokens. A string carries its contents and a number its value. -/
inductive Kind where
  | leftParen | rightParen | leftBrace | rightBrace
  | comma | dot | minus | plus | semicolon | slash | star
  | bang | bangEqual | equal | equalEqual | greater | greaterEqual | less | lessEqual
  | identifier
  | string (contents : String)
  | number (value : Float)
  | kwAnd | kwClass | kwElse | kwFalse | kwFun | kwFor | kwIf | kwNil | kwOr | kwPrint
  | kwReturn | kwSuper | kwThis | kwTrue | kwVar | kwWhile
  | eof
deriving DecidableEq

namespace Kind

/-- The name of a kind in token listings. -/
def name : Kind → String
  | .leftParen => "LEFT_PAREN"
  | .rightParen => "RIGHT_PAREN"
  | .leftBrace => "LEFT_BRACE"
  | .rightBrace => "RIGHT_BRACE"
  | .comma => "COMMA"
  | .dot => "DOT"
  | .minus => "MINUS"
  | .plus => "PLUS"
  | .semicolon => "SEMICOLON"
  | .slash => "SLASH"
  | .star => "STAR"
  | .bang => "BANG"
  | .bangEqual => "BANG_EQUAL"
  | .equal => "EQUAL"
  | .equalEqual => "EQUAL_EQUAL"
  | .greater => "GREATER"
  | .greaterEqual => "GREATER_EQUAL"
  | .less => "LESS"
  | .lessEqual => "LESS_EQUAL"
  | .identifier => "IDENTIFIER"
  | .string _ => "STRING"
  | .number _ => "NUMBER"
  | .kwAnd => "AND"
  | .kwClass => "CLASS"
  | .kwElse => "ELSE"
  | .kwFalse => "FALSE"
  | .kwFun => "FUN"
  | .kwFor => "FOR"
  | .kwIf => "IF"
  | .kwNil => "NIL"
  | .kwOr => "OR"
  | .kwPrint => "PRINT"
  | .kwReturn => "RETURN"
  | .kwSuper => "SUPER"
  | .kwThis => "THIS"
  | .kwTrue => "TRUE"
  | .kwVar => "VAR"
  | .kwWhile => "WHILE"
  | .eof => "EOF"

/-- Two kinds are alike when they differ at most in what they carry. -/
def alike (a b : Kind) : Bool := a.ctorIdx = b.ctorIdx

/-- The reserved words. -/
def keywords : List (String × Kind) :=
  [("and", .kwAnd), ("class", .kwClass), ("else", .kwElse), ("false", .kwFalse),
   ("for", .kwFor), ("fun", .kwFun), ("if", .kwIf), ("nil", .kwNil), ("or", .kwOr),
   ("print", .kwPrint), ("return", .kwReturn), ("super", .kwSuper), ("this", .kwThis),
   ("true", .kwTrue), ("var", .kwVar), ("while", .kwWhile)]

/-- The kind of a word: a reserved one, or else an identifier. -/
def ofWord (word : String) : Kind :=
  (keywords.lookup word).getD .identifier

end Kind

/-- A token with the text it was written as and the line it ends on. -/
structure Token where
  kind : Kind
  lexeme : String
  line : Nat
deriving DecidableEq

namespace Token

/-- Two tokens are alike when text, line and kind agree, whatever the kinds carry. -/
def alike (a b : Token) : Bool :=
  a.kind.alike b.kind && a.lexeme == b.lexeme && a.line == b.line

/-- Whether the token marks the end of the script. -/
def isEof (t : Token) : Bool := t.kind = .eof

/-- A number in a token listing. A whole number below two to the 63rd is written with one
decimal place, and zero without its sign. -/
def numberText (x : Float) : String :=
  match Number.parts x with
  | .finite negative mantissa exponent =>
    match Number.whole? mantissa exponent with
    | some n =>
      if n < Nat.pow 2 63 then Number.signed (negative && n ≠ 0) (n.repr ++ ".0")
      else Number.plain x
    | none => Number.plain x
  | _ => Number.plain x

/-- What a token carries, in a token listing. -/
def literalText (t : Token) : String :=
  match t.kind with
  | .string contents => contents
  | .number value => numberText value
  | _ => "null"

/-- A line of a token listing. -/
def text (t : Token) : String :=
  t.kind.name ++ " " ++ t.lexeme ++ " " ++ t.literalText

end Token

end ScriptLang
