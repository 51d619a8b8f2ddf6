import ScriptLang.Expr
import ScriptLang.Message

/-! Reading tokens one after another. A cursor stands before the tokens that are left; a parser
moves it on, and keeps it where it stands when it fails. -/

namespace ScriptLang

/-- What a callable declaration is, for its error messages. -/
inductive Callable where
  | function
  | method
deriving DecidableEq, Repr

def Callable.word : Callable → String
  | .function => "function"
  | .method => "method"

/-- The most parameters of a function, and arguments of a call. -/
def maxArity : Nat := 255

/-- Why tokens are no program. -/
inductive SyntaxCause where
  | noClassName | noSuperclassName | noBraceBeforeClassBody | noBraceAfterClassBody
  | noName (what : Callable) | noParenAfterName (what : Callable)
  | noParameterName | noParenAfterParameters | noBraceBeforeBody (what : Callable)
  | noVariableName | noSemicolonAfterVariable
  | noParenAfterFor | noSemicolonAfterCondition | noParenAfterClauses
  | noParenAfterIf | noParenAfterIfCondition
  | noParenAfterWhile | noParenAfterCondition
  | noSemicolonAfterValue | noSemicolonAfterReturn | noSemicolonAfterExpression
  | noBraceAfterBlock
  | noPropertyName | noParenAfterArguments | noDotAfterSuper | noSuperclassMethod
  | noParenAfterExpression | noExpression
  | tooManyParameters | tooManyArguments | invalidTarget
deriving DecidableEq, Repr

def SyntaxCause.text : SyntaxCause → String
  | .noClassName => "Expect class name."
  | .noSuperclassName => "Expect superclass name."
  | .noBraceBeforeClassBody => "Expect '\x7b' before class body."
  | .noBraceAfterClassBody => "Expect '\x7d' after class body."
  | .noName what => "Expect " ++ what.word ++ " name."
  | .noParenAfterName what => "Expect '(' after " ++ what.word ++ " name."
  | .noParameterName => "Expect parameter name."
  | .noParenAfterParameters => "Expect ')' after parameters."
  | .noBraceBeforeBody what => "Expect '\x7b' before " ++ what.word ++ " body."
  | .noVariableName => "Expect variable name."
  | .noSemicolonAfterVariable => "Expect ';' after variable declaration."
  | .noParenAfterFor => "Expect '(' after 'for'."
  | .noSemicolonAfterCondition => "Expect ';' after loop condition."
  | .noParenAfterClauses => "Expect ')' after for clauses."
  | .noParenAfterIf => "Expect '(' after 'if'."
  | .noParenAfterIfCondition => "Expect ')' after if condition."
  | .noParenAfterWhile => "Expect '(' after 'while'."
  | .noParenAfterCondition => "Expect ')' after condition."
  | .noSemicolonAfterValue => "Expect ';' after value."
  | .noSemicolonAfterReturn => "Expect ';' after return value."
  | .noSemicolonAfterExpression => "Expect ';' after expression."
  | .noBraceAfterBlock => "Expect '\x7d' after block."
  | .noPropertyName => "Expect property name after '.'."
  | .noParenAfterArguments => "Expect ')' after arguments."
  | .noDotAfterSuper => "Expect '.' after 'super'."
  | .noSuperclassMethod => "Expect superclass method name."
  | .noParenAfterExpression => "Expect ')' after expression."
  | .noExpression => "Expect expression."
  | .tooManyParameters => "Can't have more than " ++ maxArity.repr ++ " parameters."
  | .tooManyArguments => "Can't have more than " ++ maxArity.repr ++ " arguments."
  | .invalidTarget => "Invalid assignment target."

/-- A syntax error at a token. -/
structure SyntaxError where
  token : Token
  cause : SyntaxCause
deriving DecidableEq

def SyntaxError.message (e : SyntaxError) : String := Message.atToken e.token e.cause.text

/-- A place among the tokens: those left before the end token, the next free id, and the errors
so far, last first. -/
structure Cursor where
  rest : List Token
  eof : Token
  nextId : ExprId
  errors : List SyntaxError

namespace Cursor

/-- The token the cursor stands before. -/
def peek (c : Cursor) : Token := c.rest.headD c.eof

def record (c : Cursor) (e : SyntaxError) : Cursor := { c with errors := e :: c.errors }

/-- The tokens from the next statement boundary on, after `previous`. -/
def boundary (previous : Token) : List Token → List Token
  | [] => []
  | t :: rest =>
    if previous.kind = .semicolon then t :: rest
    else match t.kind with
    | .kwClass | .kwFun | .kwVar | .kwFor | .kwIf | .kwWhile | .kwPrint | .kwReturn => t :: rest
    | _ => boundary t rest

/-- Skips the token of an error, and then all tokens up to a statement boundary: the token after
a semicolon, or one that begins a statement. -/
def synchronize (c : Cursor) : Cursor :=
  match c.rest with
  | [] => c
  | t :: rest => { c with rest := boundary t rest }

end Cursor

/-- How a parser ends: with a value, with an error, or because its step budget is used up. -/
inductive Reply (α : Type) where
  | ok (value : α) (c : Cursor)
  | fail (e : SyntaxError) (c : Cursor)
  | exhausted

/-- A way to read tokens from a cursor. -/
def Parser (α : Type) := Cursor → Reply α

namespace Parser

@[always_inline, inline]
protected def pure {α : Type} (a : α) : Parser α := fun c => .ok a c

@[always_inline, inline]
protected def bind {α β : Type} (p : Parser α) (f : α → Parser β) : Parser β := fun c =>
  match p c with
  | .ok a c => f a c
  | .fail e c => .fail e c
  | .exhausted => .exhausted

instance : Monad Parser where
  pure := Parser.pure
  bind := Parser.bind

@[simp]
theorem pure_apply {α : Type} (a : α) (c : Cursor) : (pure a : Parser α) c = .ok a c := rfl

theorem bind_apply {α β : Type} (p : Parser α) (f : α → Parser β) (c : Cursor) :
    (p >>= f) c = match p c with
      | .ok a c => f a c
      | .fail e c => .fail e c
      | .exhausted => .exhausted := rfl

instance : LawfulMonad Parser := LawfulMonad.mk' Parser
  (fun p => by
    funext c
    show (p >>= fun a => pure (id a)) c = p c
    rw [bind_apply]
    cases p c <;> rfl)
  (fun _ _ => rfl)
  (fun p f g => by
    funext c
    simp only [bind_apply]
    cases p c <;> rfl)

/-- The end of the step budget. -/
@[inline]
def exhausted {α : Type} : Parser α := fun _ => .exhausted

/-- Whether no token is left. -/
@[inline]
def atEnd : Parser Bool := fun c => .ok c.rest.isEmpty c

/-- Takes the next token if it is of a kind that `accepts`. -/
@[inline]
def takeIf (accepts : Kind → Bool) : Parser (Option Token) := fun c =>
  match c.rest with
  | [] => .ok none c
  | t :: rest => if accepts t.kind then .ok (some t) { c with rest } else .ok none c

/-- Takes the next token if it is of this kind. -/
@[inline]
def take? (kind : Kind) : Parser (Option Token) := takeIf (· = kind)

/-- Whether the next token is of this kind. -/
@[inline]
def next (kind : Kind) : Parser Bool := fun c =>
  match c.rest with
  | [] => .ok false c
  | t :: _ => .ok (t.kind = kind) c

/-- Whether the next token is of this kind, or none is left. -/
@[inline]
def nextOrEnd (kind : Kind) : Parser Bool := fun c =>
  match c.rest with
  | [] => .ok true c
  | t :: _ => .ok (t.kind = kind) c

/-- Reads a value unless the next token is of this kind. -/
@[inline]
def unlessNext {α : Type} (kind : Kind) (default : α) (p : Parser α) : Parser α := do
  if ← next kind then pure default else p

/-- An error at the next token. -/
@[inline]
def failHere {α : Type} (cause : SyntaxCause) : Parser α := fun c => .fail ⟨c.peek, cause⟩ c

/-- Takes the next token, which must be of this kind. -/
def expect (kind : Kind) (cause : SyntaxCause) : Parser Token := fun c =>
  match c.rest with
  | [] => .fail ⟨c.eof, cause⟩ c
  | t :: rest => if t.kind = kind then .ok t { c with rest } else .fail ⟨t, cause⟩ c

/-- Notes an error and goes on. -/
@[inline]
def record (e : SyntaxError) : Parser Unit := fun c => .ok () (c.record e)

/-- Notes an error at the next token when `tooMany`, and goes on. -/
def limit (tooMany : Bool) (cause : SyntaxCause) : Parser Unit := fun c =>
  .ok () (if tooMany then c.record ⟨c.peek, cause⟩ else c)

/-- The next free id. -/
@[inline]
def freshId : Parser ExprId := fun c => .ok c.nextId { c with nextId := c.nextId + 1 }

/-- Reads a value, or notes why not and skips to the next statement boundary. -/
@[inline]
def recover {α : Type} (p : Parser α) : Parser (Option α) := fun c =>
  match p c with
  | .ok a c => .ok (some a) c
  | .fail e c => .ok none (c.record e).synchronize
  | .exhausted => .exhausted

end Parser

end ScriptLang
