import ScriptLang.Proofs.Scoping.Trees
import ScriptLang.Scope

/-! Walking over a tree to check its scopes. What a walk finds depends only on the scopes that are
open when it begins, and a statement changes at most the innermost of them. -/

namespace ScriptLang

namespace ScopeWalk

/-- A walk that begins inside these scopes. -/
def within (scopes : List Scope) : ScopeWalk := ⟨scopes, [], []⟩

/-- A walk after which nothing else was found than before it. -/
def onto (w : ScopeWalk) (hops : List (ExprId × Nat)) (errors : List ScopeError) : ScopeWalk :=
  ⟨w.scopes, w.hops ++ hops, w.errors ++ errors⟩

theorem eq_within_onto (w : ScopeWalk) : w = (within w.scopes).onto w.hops w.errors := rfl

section Onto

variable (w : ScopeWalk) (hops : List (ExprId × Nat)) (errors : List ScopeError)

@[simp]
theorem onto_scopes : (w.onto hops errors).scopes = w.scopes := rfl

@[simp]
theorem onto_hops : (w.onto hops errors).hops = w.hops ++ hops := rfl

@[simp]
theorem onto_errors : (w.onto hops errors).errors = w.errors ++ errors := rfl

@[simp]
theorem error_onto (token : Token) (cause : ScopeCause) :
    (w.onto hops errors).error token cause = (w.error token cause).onto hops errors := rfl

@[simp]
theorem openScope_onto : (w.onto hops errors).openScope = w.openScope.onto hops errors := rfl

@[simp]
theorem closeScope_onto : (w.onto hops errors).closeScope = w.closeScope.onto hops errors := rfl

@[simp]
theorem declare_onto (name : Token) :
    (w.onto hops errors).declare name = (w.declare name).onto hops errors := by
  unfold declare
  simp only [onto_scopes]
  split
  · rfl
  · split <;> rfl

@[simp]
theorem define_onto (name : String) :
    (w.onto hops errors).define name = (w.define name).onto hops errors := by
  unfold define
  simp only [onto_scopes]
  split <;> rfl

@[simp]
theorem declareComplete_onto (name : Token) :
    (w.onto hops errors).declareComplete name = (w.declareComplete name).onto hops errors := by
  simp [declareComplete]

@[simp]
theorem refer_onto (id : ExprId) (name : Token) :
    (w.onto hops errors).refer id name = (w.refer id name).onto hops errors := by
  unfold refer
  simp only [onto_scopes]
  split <;> rfl

@[simp]
theorem checkComplete_onto (name : Token) :
    (w.onto hops errors).checkComplete name = (w.checkComplete name).onto hops errors := by
  unfold checkComplete
  simp only [onto_scopes]
  split
  · rfl
  · split <;> rfl

@[simp]
theorem checkReturn_onto (setting : Setting) (keyword : Token) (hasValue : Bool) :
    (w.onto hops errors).checkReturn setting keyword hasValue =
      (w.checkReturn setting keyword hasValue).onto hops errors := by
  unfold checkReturn
  split
  · rfl
  · split <;> rfl
  · rfl

@[simp]
theorem foldl_declareComplete_onto (params : List Token) :
    params.foldl declareComplete (w.onto hops errors) =
      (params.foldl declareComplete w).onto hops errors := by
  induction params generalizing w with
  | nil => rfl
  | cons p params ih => simp [ih]

end Onto

end ScopeWalk

/-! ### What was found before makes no difference -/

section Onto

variable (hops : List (ExprId × Nat)) (errors : List ScopeError)

mutual

theorem Expr.resolve_onto (setting : Setting) : (e : Expr) → (w : ScopeWalk) →
    e.resolve setting (w.onto hops errors) = (e.resolve setting w).onto hops errors
  | .literal _, w => rfl
  | .grouping inner, w => inner.resolve_onto setting w
  | .unary _ right, w => right.resolve_onto setting w
  | .binary left _ right, w => by
      simp only [Expr.resolve, left.resolve_onto setting, right.resolve_onto setting]
  | .logical left _ right, w => by
      simp only [Expr.resolve, left.resolve_onto setting, right.resolve_onto setting]
  | .variable _ _, w => by simp [Expr.resolve]
  | .assign _ _ value, w => by simp [Expr.resolve, value.resolve_onto setting]
  | .call callee _ arguments, w => by
      simp only [Expr.resolve, callee.resolve_onto setting,
        Expr.resolveEach_onto setting arguments]
  | .get object _, w => object.resolve_onto setting w
  | .set object _ value, w => by
      simp only [Expr.resolve, value.resolve_onto setting, object.resolve_onto setting]
  | .this _ _, w => by
      simp only [Expr.resolve]
      split <;> simp
  | .super _ _ _, w => by
      simp only [Expr.resolve]
      split <;> simp

theorem Expr.resolveEach_onto (setting : Setting) : (es : List Expr) → (w : ScopeWalk) →
    Expr.resolveEach setting es (w.onto hops errors) =
      (Expr.resolveEach setting es w).onto hops errors
  | [], w => rfl
  | e :: es, w => by
      simp only [Expr.resolveEach, e.resolve_onto setting, Expr.resolveEach_onto setting es]

end

theorem Expr.resolve?_onto (setting : Setting) (e : Option Expr) (w : ScopeWalk) :
    Expr.resolve? setting e (w.onto hops errors) =
      (Expr.resolve? setting e w).onto hops errors := by
  cases e with
  | none => rfl
  | some e => exact e.resolve_onto hops errors setting w

theorem Expr.resolveSuperclass_onto (setting : Setting) (name : Token) (superclass : Expr)
    (w : ScopeWalk) : superclass.resolveSuperclass setting name (w.onto hops errors) =
      (superclass.resolveSuperclass setting name w).onto hops errors := by
  unfold Expr.resolveSuperclass
  simp only
  split
  · split <;> simp [Expr.resolve_onto]
  · simp [Expr.resolve_onto]

mutual

theorem Stmt.resolve_onto (setting : Setting) : (s : Stmt) → (w : ScopeWalk) →
    s.resolve setting (w.onto hops errors) = (s.resolve setting w).onto hops errors
  | .expression e, w => e.resolve_onto hops errors setting w
  | .print e, w => e.resolve_onto hops errors setting w
  | .var _ _, w => by simp [Stmt.resolve, Expr.resolve?_onto]
  | .block body, w => by simp [Stmt.resolve, Stmt.resolveEach_onto setting body]
  | .ifThen condition thenBranch, w => by
      simp only [Stmt.resolve, condition.resolve_onto, thenBranch.resolve_onto setting]
  | .ifElse condition thenBranch elseBranch, w => by
      simp only [Stmt.resolve, condition.resolve_onto, thenBranch.resolve_onto setting,
        elseBranch.resolve_onto setting]
  | .loop condition body, w => by
      simp only [Stmt.resolve, condition.resolve_onto, body.resolve_onto setting]
  | .function decl, w => by simp [Stmt.resolve, decl.resolve_onto]
  | .ret _ _, w => by simp [Stmt.resolve, Expr.resolve?_onto]
  | .classDecl _ none methods, w => by
      simp [Stmt.resolve, FunctionDecl.resolveMethods_onto _ methods]
  | .classDecl _ (some superclass) methods, w => by
      simp [Stmt.resolve, Expr.resolveSuperclass_onto, FunctionDecl.resolveMethods_onto _ methods]

theorem Stmt.resolveEach_onto (setting : Setting) : (ss : List Stmt) → (w : ScopeWalk) →
    Stmt.resolveEach setting ss (w.onto hops errors) =
      (Stmt.resolveEach setting ss w).onto hops errors
  | [], w => rfl
  | s :: ss, w => by
      simp only [Stmt.resolveEach, s.resolve_onto setting, Stmt.resolveEach_onto setting ss]

theorem FunctionDecl.resolve_onto (setting : Setting) : (d : FunctionDecl) → (w : ScopeWalk) →
    d.resolve setting (w.onto hops errors) = (d.resolve setting w).onto hops errors
  | .mk _ _ body, w => by simp [FunctionDecl.resolve, Stmt.resolveEach_onto setting body]

theorem FunctionDecl.resolveMethods_onto (setting : Setting) : (ds : List FunctionDecl) →
    (w : ScopeWalk) → FunctionDecl.resolveMethods setting ds (w.onto hops errors) =
      (FunctionDecl.resolveMethods setting ds w).onto hops errors
  | [], w => rfl
  | d :: ds, w => by
      simp only [FunctionDecl.resolveMethods, d.resolve_onto,
        FunctionDecl.resolveMethods_onto setting ds]

end

end Onto

/-! ### What a walk does to the scopes -/

theorem Bindings.insertEntry_insertEntry {α : Type} (name : String) (a b : α)
    (entries : List (String × α)) :
    insertEntry name b (insertEntry name a entries) = insertEntry name b entries := by
  induction entries with
  | nil => simp [insertEntry]
  | cons entry rest ih =>
      obtain ⟨key, x⟩ := entry
      by_cases h : key = name <;> simp [insertEntry, h, ih]

theorem Bindings.insert_insert {α : Type} (bs : Bindings α) (name : String) (a b : α) :
    (bs.insert name a).insert name b = bs.insert name b := by
  simp [insert, insertEntry_insertEntry]

/-- A scope that is declaring a name. -/
def declaring (name : String) (scope : Scope) : Scope :=
  if scope.contains name then scope else scope.insert name false

theorem get?_declaring {name other : String} (hne : other ≠ name) (scope : Scope) :
    (declaring name scope).get? other = scope.get? other := by
  unfold declaring
  split
  · rfl
  · rw [Bindings.get?_insert, if_neg hne.symm]

/-- The scopes in which the innermost is declaring a name. -/
def declareIn (name : String) : List Scope → List Scope
  | [] => []
  | scope :: outer => declaring name scope :: outer

/-- The scopes in which the innermost has declared a name. -/
def completeIn (name : String) : List Scope → List Scope
  | [] => []
  | scope :: outer => scope.insert name true :: outer

@[simp]
theorem completeIn_declareIn (name : String) (scopes : List Scope) :
    completeIn name (declareIn name scopes) = completeIn name scopes := by
  cases scopes with
  | nil => rfl
  | cons scope outer =>
      by_cases h : scope.contains name <;>
        simp [declareIn, declaring, completeIn, h, Bindings.insert_insert]

@[simp]
theorem completeIn_tail (name : String) (scopes : List Scope) :
    (completeIn name scopes).tail = scopes.tail := by
  cases scopes <;> rfl

namespace ScopeWalk

@[simp]
theorem within_scopes (scopes : List Scope) : (within scopes).scopes = scopes := rfl

@[simp]
theorem error_scopes (w : ScopeWalk) (token : Token) (cause : ScopeCause) :
    (w.error token cause).scopes = w.scopes := rfl

@[simp]
theorem openScope_scopes (w : ScopeWalk) : w.openScope.scopes = .empty :: w.scopes := rfl

@[simp]
theorem closeScope_scopes (w : ScopeWalk) : w.closeScope.scopes = w.scopes.tail := rfl

@[simp]
theorem declare_scopes (w : ScopeWalk) (name : Token) :
    (w.declare name).scopes = declareIn name.lexeme w.scopes := by
  unfold declare declareIn
  split
  · simp_all
  · rename_i scope outer hscopes
    split <;> simp_all [declaring, error]

@[simp]
theorem define_scopes (w : ScopeWalk) (name : String) :
    (w.define name).scopes = completeIn name w.scopes := by
  unfold define completeIn
  split <;> simp_all

@[simp]
theorem declareComplete_scopes (w : ScopeWalk) (name : Token) :
    (w.declareComplete name).scopes = completeIn name.lexeme w.scopes := by
  simp [declareComplete]

@[simp]
theorem refer_scopes (w : ScopeWalk) (id : ExprId) (name : Token) :
    (w.refer id name).scopes = w.scopes := by
  unfold refer
  split <;> rfl

@[simp]
theorem checkComplete_scopes (w : ScopeWalk) (name : Token) :
    (w.checkComplete name).scopes = w.scopes := by
  unfold checkComplete
  split
  · rfl
  · split <;> rfl

@[simp]
theorem checkReturn_scopes (w : ScopeWalk) (setting : Setting) (keyword : Token)
    (hasValue : Bool) : (w.checkReturn setting keyword hasValue).scopes = w.scopes := by
  unfold checkReturn
  split
  · rfl
  · split <;> rfl
  · rfl

/-- Parameters are declared in the innermost scope. -/
theorem foldl_declareComplete_scopes (params : List Token) (w : ScopeWalk) :
    (params.foldl declareComplete w).scopes =
      params.foldl (fun scopes p => completeIn p.lexeme scopes) w.scopes := by
  induction params generalizing w with
  | nil => rfl
  | cons p params ih => simp [ih]

end ScopeWalk

theorem foldl_completeIn_tail (params : List Token) (scopes : List Scope) :
    (params.foldl (fun scopes p => completeIn p.lexeme scopes) scopes).tail = scopes.tail := by
  induction params generalizing scopes with
  | nil => rfl
  | cons p params ih => simp [ih]

mutual

@[simp]
theorem Expr.resolve_scopes (setting : Setting) : (e : Expr) → (w : ScopeWalk) →
    (e.resolve setting w).scopes = w.scopes
  | .literal _, w => rfl
  | .grouping inner, w => inner.resolve_scopes setting w
  | .unary _ right, w => right.resolve_scopes setting w
  | .binary left _ right, w => by
      rw [Expr.resolve, right.resolve_scopes, left.resolve_scopes]
  | .logical left _ right, w => by
      rw [Expr.resolve, right.resolve_scopes, left.resolve_scopes]
  | .variable _ _, w => by simp [Expr.resolve]
  | .assign _ _ value, w => by simp [Expr.resolve, value.resolve_scopes]
  | .call callee _ arguments, w => by
      rw [Expr.resolve, Expr.resolveEach_scopes setting arguments, callee.resolve_scopes]
  | .get object _, w => object.resolve_scopes setting w
  | .set object _ value, w => by
      rw [Expr.resolve, object.resolve_scopes, value.resolve_scopes]
  | .this _ _, w => by
      rw [Expr.resolve]
      split <;> simp
  | .super _ _ _, w => by
      rw [Expr.resolve]
      split <;> simp

theorem Expr.resolveEach_scopes (setting : Setting) : (es : List Expr) → (w : ScopeWalk) →
    (Expr.resolveEach setting es w).scopes = w.scopes
  | [], w => rfl
  | e :: es, w => by
      rw [Expr.resolveEach, Expr.resolveEach_scopes setting es, e.resolve_scopes]

end

@[simp]
theorem Expr.resolve?_scopes (setting : Setting) (e : Option Expr) (w : ScopeWalk) :
    (Expr.resolve? setting e w).scopes = w.scopes := by
  cases e with
  | none => rfl
  | some e => exact e.resolve_scopes setting w

@[simp]
theorem Expr.resolveSuperclass_scopes (setting : Setting) (name : Token) (superclass : Expr)
    (w : ScopeWalk) : (superclass.resolveSuperclass setting name w).scopes =
      completeIn "super" (.empty :: w.scopes) := by
  unfold Expr.resolveSuperclass
  simp only [ScopeWalk.define_scopes, ScopeWalk.openScope_scopes, Expr.resolve_scopes]
  split
  · split <;> rfl
  · rfl

/-- The names that a statement declares in the scope it stands in. -/
def Stmt.declared : Stmt → List Token
  | .var name _ => [name]
  | .function decl => [decl.name]
  | .classDecl name _ _ => [name]
  | .ifThen _ thenBranch => thenBranch.declared
  | .ifElse _ thenBranch elseBranch => thenBranch.declared ++ elseBranch.declared
  | .loop _ body => body.declared
  | _ => []

/-- The scopes after more names are declared in the innermost of them. -/
def completeEach (names : List Token) (scopes : List Scope) : List Scope :=
  names.foldl (fun scopes t => completeIn t.lexeme scopes) scopes

theorem completeEach_append (names more : List Token) (scopes : List Scope) :
    completeEach (names ++ more) scopes = completeEach more (completeEach names scopes) :=
  List.foldl_append

theorem completeEach_tail (names : List Token) (scopes : List Scope) :
    (completeEach names scopes).tail = scopes.tail :=
  foldl_completeIn_tail names scopes

theorem completeEach_nil (names : List Token) : completeEach names [] = [] := by
  induction names with
  | nil => rfl
  | cons t names ih => exact ih

mutual

theorem Stmt.resolve_completes (setting : Setting) : (s : Stmt) → (w : ScopeWalk) →
    (s.resolve setting w).scopes = completeEach s.declared w.scopes
  | .expression e, w => e.resolve_scopes setting w
  | .print e, w => e.resolve_scopes setting w
  | .var _ _, w => by simp [Stmt.resolve, Stmt.declared, completeEach]
  | .block body, w => by
      rw [Stmt.resolve, ScopeWalk.closeScope_scopes, Stmt.resolveEach_completes setting body,
        completeEach_tail]
      rfl
  | .ifThen condition thenBranch, w => by
      rw [Stmt.resolve, thenBranch.resolve_completes, condition.resolve_scopes, Stmt.declared]
  | .ifElse condition thenBranch elseBranch, w => by
      rw [Stmt.resolve, elseBranch.resolve_completes, thenBranch.resolve_completes,
        condition.resolve_scopes, Stmt.declared, completeEach_append]
  | .loop condition body, w => by
      rw [Stmt.resolve, body.resolve_completes, condition.resolve_scopes, Stmt.declared]
  | .function decl, w => by
      rw [Stmt.resolve, decl.resolve_scopes, ScopeWalk.declareComplete_scopes]
      rfl
  | .ret _ _, w => by
      rw [Stmt.resolve, Expr.resolve?_scopes, ScopeWalk.checkReturn_scopes]
      rfl
  | .classDecl _ none methods, w => by
      simp only [Stmt.resolve, ScopeWalk.closeScope_scopes,
        FunctionDecl.resolveMethods_scopes _ methods, ScopeWalk.define_scopes, completeIn_tail,
        ScopeWalk.openScope_scopes, ScopeWalk.declareComplete_scopes, List.tail_cons]
      rfl
  | .classDecl _ (some superclass) methods, w => by
      simp only [Stmt.resolve, ScopeWalk.closeScope_scopes,
        FunctionDecl.resolveMethods_scopes _ methods, ScopeWalk.define_scopes, completeIn_tail,
        ScopeWalk.openScope_scopes, Expr.resolveSuperclass_scopes,
        ScopeWalk.declareComplete_scopes, List.tail_cons]
      rfl

theorem Stmt.resolveEach_completes (setting : Setting) : (ss : List Stmt) → (w : ScopeWalk) →
    (Stmt.resolveEach setting ss w).scopes = completeEach (ss.flatMap Stmt.declared) w.scopes
  | [], w => rfl
  | s :: ss, w => by
      rw [Stmt.resolveEach, Stmt.resolveEach_completes setting ss, s.resolve_completes,
        List.flatMap_cons, completeEach_append]

theorem FunctionDecl.resolve_scopes (setting : Setting) : (d : FunctionDecl) → (w : ScopeWalk) →
    (d.resolve setting w).scopes = w.scopes
  | .mk _ params body, w => by
      simp only [FunctionDecl.resolve, ScopeWalk.closeScope_scopes,
        Stmt.resolveEach_completes setting body, completeEach_tail,
        ScopeWalk.foldl_declareComplete_scopes, foldl_completeIn_tail]
      rfl

theorem FunctionDecl.resolveMethods_scopes (setting : Setting) : (ds : List FunctionDecl) →
    (w : ScopeWalk) → (FunctionDecl.resolveMethods setting ds w).scopes = w.scopes
  | [], w => rfl
  | d :: ds, w => by
      simp only [FunctionDecl.resolveMethods, FunctionDecl.resolveMethods_scopes setting ds,
        d.resolve_scopes]

end

/-- The scopes after a statement. -/
def Stmt.after (s : Stmt) (scopes : List Scope) : List Scope :=
  match s.declares with
  | some name => completeIn name.lexeme scopes
  | none => scopes

theorem Stmt.after_nil (s : Stmt) : s.after [] = [] := by
  unfold Stmt.after
  split <;> rfl

theorem Stmt.after_of_declares {s : Stmt} (h : s.declares = none) (scopes : List Scope) :
    s.after scopes = scopes := by
  simp [Stmt.after, h]

/-- Outside blocks and bodies only declarations declare names. -/
theorem Stmt.declared_of_wellFormed : (s : Stmt) → s.WellFormed → s.declared = s.declares.toList
  | .expression _, _ | .print _, _ | .var _ _, _ | .block _, _ | .function _, _ | .ret _ _, _
  | .classDecl _ _ _, _ => rfl
  | .ifThen _ thenBranch, h => by
      rw [Stmt.declared, thenBranch.declared_of_wellFormed h.2.1, h.2.2]
      rfl
  | .ifElse _ thenBranch elseBranch, h => by
      rw [Stmt.declared, thenBranch.declared_of_wellFormed h.2.1.1, h.2.1.2,
        elseBranch.declared_of_wellFormed h.2.2.1, h.2.2.2]
      rfl
  | .loop _ body, h => by
      rw [Stmt.declared, body.declared_of_wellFormed h.2.1, h.2.2]
      rfl

theorem Stmt.resolve_scopes (setting : Setting) (s : Stmt) (w : ScopeWalk) (h : s.WellFormed) :
    (s.resolve setting w).scopes = s.after w.scopes := by
  rw [s.resolve_completes, s.declared_of_wellFormed h, Stmt.after]
  cases s.declares <;> rfl

end ScriptLang
