import ScriptLang.Expr

/-! Statements and declarations. -/

namespace ScriptLang

/-- The name of the method that initializes instances. -/
def initName : String := "init"

mutual

/-- A statement. A superclass is an expression, which the grammar restricts to a name. -/
inductive Stmt where
  | expression (e : Expr)
  | print (e : Expr)
  | var (name : Token) (initializer : Option Expr)
  | block (body : List Stmt)
  | ifThen (condition : Expr) (thenBranch : Stmt)
  | ifElse (condition : Expr) (thenBranch elseBranch : Stmt)
  | loop (condition : Expr) (body : Stmt)
  | function (decl : FunctionDecl)
  | ret (keyword : Token) (value : Option Expr)
  | classDecl (name : Token) (superclass : Option Expr) (methods : List FunctionDecl)

/-- A function or method with its parameters and body. -/
inductive FunctionDecl where
  | mk (name : Token) (params : List Token) (body : List Stmt)

end

namespace FunctionDecl

def name : FunctionDecl → Token
  | mk name _ _ => name

def params : FunctionDecl → List Token
  | mk _ params _ => params

def body : FunctionDecl → List Stmt
  | mk _ _ body => body

/-- The number of arguments a call takes. -/
def arity (d : FunctionDecl) : Nat := d.params.length

/-- Whether a method with this declaration initializes the instances of its class. -/
def isInit (d : FunctionDecl) : Bool := d.name.lexeme = initName

end FunctionDecl

end ScriptLang
