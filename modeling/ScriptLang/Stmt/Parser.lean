import ScriptLang.Expr.Parser
import ScriptLang.Stmt

/-! Reading statements and whole programs. A declaration that cannot be read is noted and skipped,
and reading goes on after it. -/

namespace ScriptLang

/-- A `for` loop as a block and a loop with a condition. -/
def Stmt.forLoop (initializer : Option Stmt) (condition increment : Option Expr) (body : Stmt) :
    Stmt :=
  let body := match increment with
    | some e => .block [body, .expression e]
    | none => body
  let loop := Stmt.loop (condition.getD (.literal (.bool true))) body
  match initializer with
  | some s => .block [s, loop]
  | none => loop

/-- The kinds that begin a declaration. -/
def Kind.beginsDeclaration : Kind → Bool
  | .kwClass | .kwFun | .kwVar => true
  | _ => false

/-- The kinds that begin a statement other than an expression. -/
def Kind.beginsStatement : Kind → Bool
  | .kwFor | .kwIf | .kwPrint | .kwReturn | .kwWhile | .leftBrace => true
  | _ => false

namespace Parser

/-! ### Statements without statements inside -/

/-- An expression, unless the next token is of this kind. -/
def expressionUnless (n : Nat) (kind : Kind) : Parser (Option Expr) :=
  unlessNext kind none (some <$> expression n)

/-- The value that a declared variable begins with. -/
def initializer (n : Nat) : Parser (Option Expr) := do
  match ← take? .equal with
  | none => pure none
  | some _ => some <$> expression n

/-- A variable declaration after its keyword. -/
def varDeclaration (n : Nat) : Parser Stmt := do
  let name ← expect .identifier .noVariableName
  let initializer ← initializer n
  let _ ← expect .semicolon .noSemicolonAfterVariable
  pure (.var name initializer)

def expressionStatement (n : Nat) : Parser Stmt := do
  let e ← expression n
  let _ ← expect .semicolon .noSemicolonAfterExpression
  pure (.expression e)

/-- A print statement after its keyword. -/
def printStatement (n : Nat) : Parser Stmt := do
  let e ← expression n
  let _ ← expect .semicolon .noSemicolonAfterValue
  pure (.print e)

/-- A return statement after its keyword. -/
def returnStatement (n : Nat) (keyword : Token) : Parser Stmt := do
  let value ← expressionUnless n .semicolon
  let _ ← expect .semicolon .noSemicolonAfterReturn
  pure (.ret keyword value)

/-- The first clause of a `for` loop. -/
def loopInitializer (n : Nat) : Parser (Option Stmt) := do
  match ← takeIf fun kind => kind = .semicolon || kind = .kwVar with
  | none => some <$> expressionStatement n
  | some t => if t.kind = .semicolon then pure none else some <$> varDeclaration n

/-- One parameter and more after commas; `front` are those before, last first. -/
def parameters : Nat → List Token → Parser (List Token)
  | 0, _ => exhausted
  | n + 1, front => do
    limit (maxArity ≤ front.length) .tooManyParameters
    let name ← expect .identifier .noParameterName
    match ← take? .comma with
    | some _ => parameters n (name :: front)
    | none => pure (name :: front).reverse

/-- The superclass of a class declaration, after the class's name. -/
def superclass : Parser (Option Expr) := do
  match ← take? .less with
  | none => pure none
  | some _ =>
    let name ← expect .identifier .noSuperclassName
    let id ← freshId
    pure (some (.variable id name))

/-! ### Statements with statements inside -/

mutual

/-- A declaration or statement. -/
def declaration : Nat → Parser Stmt
  | 0 => exhausted
  | n + 1 => do
    match ← takeIf Kind.beginsDeclaration with
    | none => statement n
    | some t =>
      match t.kind with
      | .kwClass => classDeclaration n
      | .kwFun => .function <$> function n .function
      | _ => varDeclaration n

/-- A class after its keyword. -/
def classDeclaration : Nat → Parser Stmt
  | 0 => exhausted
  | n + 1 => do
    let name ← expect .identifier .noClassName
    let superclass ← superclass
    let _ ← expect .leftBrace .noBraceBeforeClassBody
    let methods ← methods n []
    let _ ← expect .rightBrace .noBraceAfterClassBody
    pure (.classDecl name superclass methods)

/-- The methods up to the end of a class; `front` are those before, last first. -/
def methods : Nat → List FunctionDecl → Parser (List FunctionDecl)
  | 0, _ => exhausted
  | n + 1, front => do
    if ← nextOrEnd .rightBrace then pure front.reverse
    else
      let method ← function n .method
      methods n (method :: front)

/-- The name, parameters and body of a function or method. -/
def function : Nat → Callable → Parser FunctionDecl
  | 0, _ => exhausted
  | n + 1, what => do
    let name ← expect .identifier (.noName what)
    let _ ← expect .leftParen (.noParenAfterName what)
    let params ← unlessNext .rightParen [] (parameters n [])
    let _ ← expect .rightParen .noParenAfterParameters
    let _ ← expect .leftBrace (.noBraceBeforeBody what)
    let body ← block n []
    pure (.mk name params body)

def statement : Nat → Parser Stmt
  | 0 => exhausted
  | n + 1 => do
    match ← takeIf Kind.beginsStatement with
    | none => expressionStatement n
    | some t =>
      match t.kind with
      | .kwFor => forStatement n
      | .kwIf => ifStatement n
      | .kwPrint => printStatement n
      | .kwReturn => returnStatement n t
      | .kwWhile => whileStatement n
      | _ => .block <$> block n []

/-- A `for` loop after its keyword. -/
def forStatement : Nat → Parser Stmt
  | 0 => exhausted
  | n + 1 => do
    let _ ← expect .leftParen .noParenAfterFor
    let initializer ← loopInitializer n
    let condition ← expressionUnless n .semicolon
    let _ ← expect .semicolon .noSemicolonAfterCondition
    let increment ← expressionUnless n .rightParen
    let _ ← expect .rightParen .noParenAfterClauses
    let body ← statement n
    pure (.forLoop initializer condition increment body)

/-- A conditional after its keyword. An `else` belongs to the nearest conditional before it. -/
def ifStatement : Nat → Parser Stmt
  | 0 => exhausted
  | n + 1 => do
    let _ ← expect .leftParen .noParenAfterIf
    let condition ← expression n
    let _ ← expect .rightParen .noParenAfterIfCondition
    let thenBranch ← statement n
    match ← take? .kwElse with
    | none => pure (.ifThen condition thenBranch)
    | some _ =>
      let elseBranch ← statement n
      pure (.ifElse condition thenBranch elseBranch)

/-- A loop after its keyword. -/
def whileStatement : Nat → Parser Stmt
  | 0 => exhausted
  | n + 1 => do
    let _ ← expect .leftParen .noParenAfterWhile
    let condition ← expression n
    let _ ← expect .rightParen .noParenAfterCondition
    let body ← statement n
    pure (.loop condition body)

/-- The declarations up to the end of a block and the brace that ends it; `front` are those
before, last first. -/
def block : Nat → List Stmt → Parser (List Stmt)
  | 0, _ => exhausted
  | n + 1, front => do
    if ← nextOrEnd .rightBrace then
      let _ ← expect .rightBrace .noBraceAfterBlock
      pure front.reverse
    else
      match ← recover (declaration n) with
      | some s => block n (s :: front)
      | none => block n front

end

/-- The declarations up to the end token; `front` are those before, last first. -/
def program : Nat → List Stmt → Parser (List Stmt)
  | 0, _ => exhausted
  | n + 1, front => do
    if ← atEnd then pure front.reverse
    else
      match ← recover (declaration n) with
      | some s => program n (s :: front)
      | none => program n front

end Parser

/-! ### Programs -/

/-- A program: what a script says. -/
abbrev Program := List Stmt

/-- What reading tokens gives: a program or all syntax errors, and the next free id. -/
structure Parsed where
  program : Except (List SyntaxError) Program
  nextId : ExprId

namespace Parsed

/-- A step budget that no list of tokens of this length uses up: at most sixteen calls are made
one inside the other before a token is taken. -/
def budget (length : Nat) : Nat := 16 * (length + 1)

/-- Reads the tokens before the first end token, with ids from `firstId` on. -/
def ofTokens (tokens : List Token) (firstId : ExprId) : Parsed :=
  let rest := tokens.takeWhile (!·.isEof)
  let eof := (tokens.find? Token.isEof).getD ⟨.eof, "", 0⟩
  match Parser.program (budget rest.length) [] ⟨rest, eof, firstId, []⟩ with
  | .ok program c =>
    ⟨if c.errors.isEmpty then .ok program else .error c.errors.reverse, c.nextId⟩
  | .fail e c => ⟨.error (e :: c.errors).reverse, c.nextId⟩
  | .exhausted => ⟨.error [], firstId⟩

end Parsed

end ScriptLang
