import ScriptLang.Stmt

/-! Programs in a parenthesized form that shows how they were read. -/

namespace ScriptLang

namespace Literal

/-- A number in a tree. A whole number is written out exactly, with one decimal place. -/
def numberText (x : Float) : String :=
  match Number.parts x with
  | .finite negative mantissa exponent =>
    match Number.whole? mantissa exponent with
    | some n => Number.signed negative (n.repr ++ ".0")
    | none => Number.plain x
  | _ => Number.plain x

def render : Literal → String
  | .nil => "nil"
  | .bool b => if b then "true" else "false"
  | .number x => numberText x
  | .string s => s

end Literal

mutual

/-- An expression: a name or literal, or an operator and its operands in parentheses. -/
def Expr.render : Expr → String
  | .literal value => value.render
  | .grouping inner => "(group " ++ inner.render ++ ")"
  | .unary operator right => "(" ++ operator.lexeme ++ " " ++ right.render ++ ")"
  | .binary left operator right =>
    "(" ++ operator.lexeme ++ " " ++ left.render ++ " " ++ right.render ++ ")"
  | .logical left operator right =>
    "(" ++ operator.lexeme ++ " " ++ left.render ++ " " ++ right.render ++ ")"
  | .variable _ name => name.lexeme
  | .assign _ name value => "(= " ++ name.lexeme ++ " " ++ value.render ++ ")"
  | .call callee _ arguments => "(call " ++ callee.render ++ Expr.renderEach arguments ++ ")"
  | .get object name => "(. " ++ object.render ++ " " ++ name.lexeme ++ ")"
  | .set object name value =>
    "(= (. " ++ object.render ++ " " ++ name.lexeme ++ ") " ++ value.render ++ ")"
  | .this _ _ => "this"
  | .super _ _ method => "(super " ++ method.lexeme ++ ")"

/-- Expressions, each after a space. -/
def Expr.renderEach : List Expr → String
  | [] => ""
  | e :: es => " " ++ e.render ++ Expr.renderEach es

end

/-- Parameter names with spaces between them. -/
def renderParams (params : List Token) : String :=
  " ".intercalate (params.map Token.lexeme)

mutual

/-- A statement. -/
def Stmt.render : Stmt → String
  | .expression e => "(; " ++ e.render ++ ")"
  | .print e => "(print " ++ e.render ++ ")"
  | .var name none => "(var " ++ name.lexeme ++ ")"
  | .var name (some e) => "(var " ++ name.lexeme ++ " " ++ e.render ++ ")"
  | .block body => "(block" ++ Stmt.renderEach body ++ ")"
  | .ifThen condition thenBranch =>
    "(if " ++ condition.render ++ " " ++ thenBranch.render ++ ")"
  | .ifElse condition thenBranch elseBranch =>
    "(if-else " ++ condition.render ++ " " ++ thenBranch.render ++ " " ++ elseBranch.render ++ ")"
  | .loop condition body => "(while " ++ condition.render ++ " " ++ body.render ++ ")"
  | .function decl => decl.render "fun"
  | .ret _ none => "(return)"
  | .ret _ (some e) => "(return " ++ e.render ++ ")"
  | .classDecl name none methods =>
    "(class " ++ name.lexeme ++ FunctionDecl.renderEach methods ++ ")"
  | .classDecl name (some superclass) methods =>
    "(class " ++ name.lexeme ++ " < " ++ superclass.render ++ FunctionDecl.renderEach methods ++ ")"

/-- Statements, each after a space. -/
def Stmt.renderEach : List Stmt → String
  | [] => ""
  | s :: ss => " " ++ s.render ++ Stmt.renderEach ss

/-- A function or method after the word for it. -/
def FunctionDecl.render (word : String) : FunctionDecl → String
  | .mk name params body =>
    "(" ++ word ++ " " ++ name.lexeme ++ "(" ++ renderParams params ++ ")" ++
      Stmt.renderEach body ++ ")"

/-- Methods, each after a space. -/
def FunctionDecl.renderEach : List FunctionDecl → String
  | [] => ""
  | d :: ds => " " ++ d.render "method" ++ FunctionDecl.renderEach ds

end

end ScriptLang
