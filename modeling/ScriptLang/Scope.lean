import ScriptLang.Bindings
import ScriptLang.Message
import ScriptLang.Stmt

/-! Scoping rules, checked before a program runs. Every reference to a local name is given the
number of scopes between it and the one that declares the name. The names of the global scope are
not tracked: a reference found in no other scope is global. -/

namespace ScriptLang

/-- Why a program breaks the scoping rules. -/
inductive ScopeCause where
  | returnOutsideFunction
  | valueFromInitializer
  | thisOutsideClass
  | superOutsideClass
  | superWithoutSuperclass
  | inheritsFromItself
  | alreadyDeclared
  | readInOwnInitializer
deriving DecidableEq, Repr

def ScopeCause.text : ScopeCause → String
  | .returnOutsideFunction => "Can't return from top-level code."
  | .valueFromInitializer => "Can't return a value from an initializer."
  | .thisOutsideClass => "Can't use 'this' outside of a class."
  | .superOutsideClass => "Can't use 'super' outside of a class."
  | .superWithoutSuperclass => "Can't use 'super' in a class with no superclass."
  | .inheritsFromItself => "A class can't inherit from itself."
  | .alreadyDeclared => "Already a variable with this name in this scope."
  | .readInOwnInitializer => "Can't read local variable in its own initializer."

/-- A scoping error at a token. -/
structure ScopeError where
  token : Token
  cause : ScopeCause
deriving DecidableEq

def ScopeError.message (e : ScopeError) : String := Message.atToken e.token e.cause.text

/-- The kind of function a statement stands in. -/
inductive FunctionKind where
  | none | function | method | initializer
deriving DecidableEq, Repr

/-- The kind of class a statement stands in. -/
inductive ClassKind where
  | none | base | derived
deriving DecidableEq, Repr

/-- What a statement stands in. -/
structure Setting where
  function : FunctionKind
  cls : ClassKind
deriving DecidableEq, Repr

/-- A scope: each declared name, and whether its declaration is complete. -/
abbrev Scope := Bindings Bool

/-- The open scopes, innermost first and without the global one, with the hop counts and errors
found so far, last first. -/
structure ScopeWalk where
  scopes : List Scope
  hops : List (ExprId × Nat)
  errors : List ScopeError

namespace ScopeWalk

def start : ScopeWalk := ⟨[], [], []⟩

def error (w : ScopeWalk) (token : Token) (cause : ScopeCause) : ScopeWalk :=
  { w with errors := ⟨token, cause⟩ :: w.errors }

def openScope (w : ScopeWalk) : ScopeWalk := { w with scopes := .empty :: w.scopes }

def closeScope (w : ScopeWalk) : ScopeWalk := { w with scopes := w.scopes.tail }

/-- Declares a name in the innermost scope, which must not have it yet. -/
def declare (w : ScopeWalk) (name : Token) : ScopeWalk :=
  match w.scopes with
  | [] => w
  | scope :: outer =>
    if scope.contains name.lexeme then w.error name .alreadyDeclared
    else { w with scopes := scope.insert name.lexeme false :: outer }

/-- Completes the declaration of a name in the innermost scope. -/
def define (w : ScopeWalk) (name : String) : ScopeWalk :=
  match w.scopes with
  | [] => w
  | scope :: outer => { w with scopes := scope.insert name true :: outer }

def declareComplete (w : ScopeWalk) (name : Token) : ScopeWalk :=
  (w.declare name).define name.lexeme

/-- Records the distance from a reference to the nearest scope that has its name, if one has. -/
def refer (w : ScopeWalk) (id : ExprId) (name : Token) : ScopeWalk :=
  match w.scopes.findIdx? (·.contains name.lexeme) with
  | some depth => { w with hops := (id, depth) :: w.hops }
  | none => w

/-- Notes an error if the innermost scope is still declaring the name. -/
def checkComplete (w : ScopeWalk) (name : Token) : ScopeWalk :=
  match w.scopes with
  | [] => w
  | scope :: _ =>
    if scope.get? name.lexeme = some false then w.error name .readInOwnInitializer else w

end ScopeWalk

mutual

/-- Visits the references of an expression. In an assignment to a property the value comes before
the object. -/
def Expr.resolve (setting : Setting) : Expr → ScopeWalk → ScopeWalk
  | .literal _, w => w
  | .grouping inner, w => inner.resolve setting w
  | .unary _ right, w => right.resolve setting w
  | .binary left _ right, w => right.resolve setting (left.resolve setting w)
  | .logical left _ right, w => right.resolve setting (left.resolve setting w)
  | .variable id name, w => (w.checkComplete name).refer id name
  | .assign id name value, w => (value.resolve setting w).refer id name
  | .call callee _ arguments, w =>
    Expr.resolveEach setting arguments (callee.resolve setting w)
  | .get object _, w => object.resolve setting w
  | .set object _ value, w => object.resolve setting (value.resolve setting w)
  | .this id keyword, w =>
    match setting.cls with
    | .none => w.error keyword .thisOutsideClass
    | _ => w.refer id keyword
  | .super id keyword _, w =>
    match setting.cls with
    | .none => w.error keyword .superOutsideClass
    | .base => w.error keyword .superWithoutSuperclass
    | .derived => w.refer id keyword

/-- Visits expressions in order. -/
def Expr.resolveEach (setting : Setting) : List Expr → ScopeWalk → ScopeWalk
  | [], w => w
  | e :: es, w => Expr.resolveEach setting es (e.resolve setting w)

end

/-- Visits an expression, if there is one. -/
def Expr.resolve? (setting : Setting) (e : Option Expr) (w : ScopeWalk) : ScopeWalk :=
  match e with
  | none => w
  | some e => e.resolve setting w

/-- Checks and visits the superclass of a class, and opens the scope that holds `super`. -/
def Expr.resolveSuperclass (setting : Setting) (name : Token) (superclass : Expr)
    (w : ScopeWalk) : ScopeWalk :=
  let w := match superclass with
    | .variable _ superName =>
      if superName.lexeme = name.lexeme then w.error superName .inheritsFromItself else w
    | _ => w
  ((superclass.resolve { setting with cls := .derived } w).openScope).define "super"

/-- Checks a return statement's place. -/
def ScopeWalk.checkReturn (w : ScopeWalk) (setting : Setting) (keyword : Token)
    (hasValue : Bool) : ScopeWalk :=
  match setting.function with
  | .none => w.error keyword .returnOutsideFunction
  | .initializer => if hasValue then w.error keyword .valueFromInitializer else w
  | _ => w

/-- The kind of a method. -/
def FunctionKind.ofMethod (d : FunctionDecl) : FunctionKind :=
  if d.isInit then .initializer else .method

mutual

/-- Visits the declarations and references of a statement. -/
def Stmt.resolve (setting : Setting) : Stmt → ScopeWalk → ScopeWalk
  | .expression e, w => e.resolve setting w
  | .print e, w => e.resolve setting w
  | .var name initializer, w =>
    (Expr.resolve? setting initializer (w.declare name)).define name.lexeme
  | .block body, w => (Stmt.resolveEach setting body w.openScope).closeScope
  | .ifThen condition thenBranch, w =>
    thenBranch.resolve setting (condition.resolve setting w)
  | .ifElse condition thenBranch elseBranch, w =>
    elseBranch.resolve setting (thenBranch.resolve setting (condition.resolve setting w))
  | .loop condition body, w => body.resolve setting (condition.resolve setting w)
  | .function decl, w =>
    decl.resolve { setting with function := .function } (w.declareComplete decl.name)
  | .ret keyword value, w =>
    Expr.resolve? setting value (w.checkReturn setting keyword value.isSome)
  | .classDecl name none methods, w =>
    let w := ((w.declareComplete name).openScope).define "this"
    (FunctionDecl.resolveMethods { setting with cls := .base } methods w).closeScope
  | .classDecl name (some superclass) methods, w =>
    let w := superclass.resolveSuperclass setting name (w.declareComplete name)
    let w := w.openScope.define "this"
    (FunctionDecl.resolveMethods { setting with cls := .derived } methods w).closeScope.closeScope

/-- Visits statements in order. -/
def Stmt.resolveEach (setting : Setting) : List Stmt → ScopeWalk → ScopeWalk
  | [], w => w
  | s :: ss, w => Stmt.resolveEach setting ss (s.resolve setting w)

/-- Visits the parameters and the body of a function in a scope of their own. -/
def FunctionDecl.resolve (setting : Setting) : FunctionDecl → ScopeWalk → ScopeWalk
  | .mk _ params body, w =>
    let w := params.foldl ScopeWalk.declareComplete w.openScope
    (Stmt.resolveEach setting body w).closeScope

/-- Visits methods in order. -/
def FunctionDecl.resolveMethods (setting : Setting) : List FunctionDecl → ScopeWalk → ScopeWalk
  | [], w => w
  | d :: ds, w =>
    let inner := { setting with function := FunctionKind.ofMethod d }
    FunctionDecl.resolveMethods setting ds (d.resolve inner w)

end

/-- The hop counts of a program in the order of its references, or all its scoping errors. -/
def Stmt.hopCounts (program : List Stmt) : Except (List ScopeError) (List (ExprId × Nat)) :=
  let w := Stmt.resolveEach ⟨.none, .none⟩ program .start
  if w.errors.isEmpty then .ok w.hops.reverse else .error w.errors.reverse

end ScriptLang
