import ScriptLang.Cursor

/-! Reading expressions. The operators of one level bind to the left and looser than those of the
levels after it; assignment binds loosest and to the right. Every function takes a step budget
that bounds how deep it may call itself. -/

namespace ScriptLang

/-- The levels of operators between two operands, loosest first. -/
inductive Level where
  | or | and | equality | comparison | term | factor
deriving DecidableEq, Repr

namespace Level

/-- All levels, loosest first. -/
def all : List Level := [.or, .and, .equality, .comparison, .term, .factor]

/-- Whether a token of this kind is an operator of the level. -/
def accepts : Level → Kind → Bool
  | .or, .kwOr => true
  | .and, .kwAnd => true
  | .equality, .bangEqual => true
  | .equality, .equalEqual => true
  | .comparison, .greater => true
  | .comparison, .greaterEqual => true
  | .comparison, .less => true
  | .comparison, .lessEqual => true
  | .term, .minus => true
  | .term, .plus => true
  | .factor, .slash => true
  | .factor, .star => true
  | _, _ => false

/-- The expression that an operator of the level makes of its operands. -/
def join : Level → Expr → Token → Expr → Expr
  | .or => .logical
  | .and => .logical
  | _ => .binary

end Level

/-- The kinds of operators in front of an operand. -/
def Kind.isUnary : Kind → Bool
  | .bang => true
  | .minus => true
  | _ => false

/-- The kinds that go on with an expression: a call or a property. -/
def Kind.isCallSuffix : Kind → Bool
  | .leftParen => true
  | .dot => true
  | _ => false

/-- The kinds that begin an expression without an operator. -/
def Kind.isPrimary : Kind → Bool
  | .kwFalse | .kwTrue | .kwNil | .number _ | .string _ | .kwSuper | .kwThis | .identifier
  | .leftParen => true
  | _ => false

namespace Parser

mutual

/-- An expression. An assignment needs a name or a property on its left; anything else is noted
as an error and the assignment dropped. -/
def expression : Nat → Parser Expr
  | 0 => exhausted
  | n + 1 => do
    let target ← operation n Level.all
    match ← take? .equal with
    | none => pure target
    | some equals =>
      let value ← expression n
      match target with
      | .variable id name => pure (.assign id name value)
      | .get object name => pure (.set object name value)
      | _ =>
        record ⟨equals, .invalidTarget⟩
        pure target

/-- Operands joined by operators of these levels. -/
def operation : Nat → List Level → Parser Expr
  | 0, _ => exhausted
  | n + 1, [] => unary n
  | n + 1, level :: tighter => do
    let left ← operation n tighter
    operationRest n level tighter left

/-- More operators of this level after `left`. -/
def operationRest : Nat → Level → List Level → Expr → Parser Expr
  | 0, _, _, _ => exhausted
  | n + 1, level, tighter, left => do
    match ← takeIf level.accepts with
    | none => pure left
    | some operator =>
      let right ← operation n tighter
      operationRest n level tighter (level.join left operator right)

/-- Operators in front of an operand, which may be called. -/
def unary : Nat → Parser Expr
  | 0 => exhausted
  | n + 1 => do
    match ← takeIf Kind.isUnary with
    | some operator =>
      let right ← unary n
      pure (.unary operator right)
    | none =>
      let callee ← primary n
      callRest n callee

/-- Calls and properties after `callee`. -/
def callRest : Nat → Expr → Parser Expr
  | 0, _ => exhausted
  | n + 1, callee => do
    match ← takeIf Kind.isCallSuffix with
    | none => pure callee
    | some t =>
      if t.kind = .dot then
        let name ← expect .identifier .noPropertyName
        callRest n (.get callee name)
      else
        let arguments ← unlessNext .rightParen [] (arguments n [])
        let paren ← expect .rightParen .noParenAfterArguments
        callRest n (.call callee paren arguments)

/-- One argument and more after commas; `front` are those before, last first. -/
def arguments : Nat → List Expr → Parser (List Expr)
  | 0, _ => exhausted
  | n + 1, front => do
    limit (maxArity ≤ front.length) .tooManyArguments
    let argument ← expression n
    match ← take? .comma with
    | some _ => arguments n (argument :: front)
    | none => pure (argument :: front).reverse

/-- A literal, a name, `this`, `super` with a method, or an expression in parentheses. -/
def primary : Nat → Parser Expr
  | 0 => exhausted
  | n + 1 => do
    match ← takeIf Kind.isPrimary with
    | none => failHere .noExpression
    | some t =>
      match t.kind with
      | .kwFalse => pure (.literal (.bool false))
      | .kwTrue => pure (.literal (.bool true))
      | .number x => pure (.literal (.number x))
      | .string s => pure (.literal (.string s))
      | .kwSuper =>
        let _ ← expect .dot .noDotAfterSuper
        let method ← expect .identifier .noSuperclassMethod
        let id ← freshId
        pure (.super id t method)
      | .kwThis =>
        let id ← freshId
        pure (.this id t)
      | .identifier =>
        let id ← freshId
        pure (.variable id t)
      | .leftParen =>
        let inner ← expression n
        let _ ← expect .rightParen .noParenAfterExpression
        pure (.grouping inner)
      | _ => pure (.literal .nil)

end

end Parser

end ScriptLang
