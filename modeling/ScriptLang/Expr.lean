import ScriptLang.Token

/-! Expressions. A reference to a name has an id, under which the distance to the declaration it
means is kept. -/

namespace ScriptLang

/-- The number of a name reference within a session. -/
abbrev ExprId := Nat

/-- A value written out in a script. -/
inductive Literal where
  | nil
  | bool (b : Bool)
  | number (x : Float)
  | string (s : String)
deriving DecidableEq

/-- An expression. A call keeps its closing parenthesis, where its failures are reported. -/
inductive Expr where
  | literal (value : Literal)
  | grouping (inner : Expr)
  | unary (operator : Token) (right : Expr)
  | binary (left : Expr) (operator : Token) (right : Expr)
  | logical (left : Expr) (operator : Token) (right : Expr)
  | variable (id : ExprId) (name : Token)
  | assign (id : ExprId) (name : Token) (value : Expr)
  | call (callee : Expr) (paren : Token) (arguments : List Expr)
  | get (object : Expr) (name : Token)
  | set (object : Expr) (name : Token) (value : Expr)
  | this (id : ExprId) (keyword : Token)
  | super (id : ExprId) (keyword method : Token)

end ScriptLang
