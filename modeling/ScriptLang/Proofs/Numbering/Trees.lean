import ScriptLang.Proofs.Matching.Trees
import ScriptLang.Proofs.Scoping.Trees

/-! Programs whose references have other ids. The scoping rules find the same in them, and they
match. -/

namespace ScriptLang

/-! ### Other ids -/

mutual

/-- The expression with other ids. -/
def Expr.renumber (σ : ExprId → ExprId) : Expr → Expr
  | .literal value => .literal value
  | .grouping inner => .grouping (inner.renumber σ)
  | .unary operator right => .unary operator (right.renumber σ)
  | .binary left operator right => .binary (left.renumber σ) operator (right.renumber σ)
  | .logical left operator right => .logical (left.renumber σ) operator (right.renumber σ)
  | .variable id name => .variable (σ id) name
  | .assign id name value => .assign (σ id) name (value.renumber σ)
  | .call callee paren arguments => .call (callee.renumber σ) paren (Expr.renumberEach σ arguments)
  | .get object name => .get (object.renumber σ) name
  | .set object name value => .set (object.renumber σ) name (value.renumber σ)
  | .this id keyword => .this (σ id) keyword
  | .super id keyword method => .super (σ id) keyword method

def Expr.renumberEach (σ : ExprId → ExprId) : List Expr → List Expr
  | [] => []
  | e :: es => e.renumber σ :: Expr.renumberEach σ es

end

mutual

/-- The statement with other ids. -/
def Stmt.renumber (σ : ExprId → ExprId) : Stmt → Stmt
  | .expression e => .expression (e.renumber σ)
  | .print e => .print (e.renumber σ)
  | .var name initializer => .var name (initializer.map (Expr.renumber σ))
  | .block body => .block (Stmt.renumberEach σ body)
  | .ifThen condition thenBranch => .ifThen (condition.renumber σ) (thenBranch.renumber σ)
  | .ifElse condition thenBranch elseBranch =>
    .ifElse (condition.renumber σ) (thenBranch.renumber σ) (elseBranch.renumber σ)
  | .loop condition body => .loop (condition.renumber σ) (body.renumber σ)
  | .function decl => .function (decl.renumber σ)
  | .ret keyword value => .ret keyword (value.map (Expr.renumber σ))
  | .classDecl name superclass methods =>
    .classDecl name (superclass.map (Expr.renumber σ)) (FunctionDecl.renumberEach σ methods)

def Stmt.renumberEach (σ : ExprId → ExprId) : List Stmt → List Stmt
  | [] => []
  | s :: ss => s.renumber σ :: Stmt.renumberEach σ ss

def FunctionDecl.renumber (σ : ExprId → ExprId) : FunctionDecl → FunctionDecl
  | .mk name params body => .mk name params (Stmt.renumberEach σ body)

def FunctionDecl.renumberEach (σ : ExprId → ExprId) : List FunctionDecl → List FunctionDecl
  | [] => []
  | d :: ds => d.renumber σ :: FunctionDecl.renumberEach σ ds

end

section

variable (σ : ExprId → ExprId)

theorem Expr.renumberEach_eq (es : List Expr) :
    Expr.renumberEach σ es = es.map (Expr.renumber σ) := by
  induction es with
  | nil => rfl
  | cons e es ih => rw [Expr.renumberEach, ih, List.map_cons]

theorem Stmt.renumberEach_eq (ss : List Stmt) :
    Stmt.renumberEach σ ss = ss.map (Stmt.renumber σ) := by
  induction ss with
  | nil => rfl
  | cons s ss ih => rw [Stmt.renumberEach, ih, List.map_cons]

theorem Stmt.renumberEach_reverse (ss : List Stmt) :
    (Stmt.renumberEach σ ss).reverse = Stmt.renumberEach σ ss.reverse := by
  simp only [Stmt.renumberEach_eq, List.map_reverse]

theorem FunctionDecl.renumberEach_eq (ds : List FunctionDecl) :
    FunctionDecl.renumberEach σ ds = ds.map (FunctionDecl.renumber σ) := by
  induction ds with
  | nil => rfl
  | cons d ds ih => rw [FunctionDecl.renumberEach, ih, List.map_cons]

theorem FunctionDecl.name_renumber (d : FunctionDecl) : (d.renumber σ).name = d.name := by
  cases d
  rfl

theorem FunctionKind.ofMethod_renumber (d : FunctionDecl) :
    FunctionKind.ofMethod (d.renumber σ) = FunctionKind.ofMethod d := by
  simp only [FunctionKind.ofMethod, FunctionDecl.isInit, d.name_renumber]
  rfl

end

mutual

theorem Expr.renumber_id : (e : Expr) → e.renumber id = e
  | .literal _ | .variable _ _ | .this _ _ | .super _ _ _ => rfl
  | .grouping inner => congrArg Expr.grouping inner.renumber_id
  | .unary _ right => congrArg (Expr.unary _) right.renumber_id
  | .binary left _ right | .logical left _ right => by
      rw [Expr.renumber, left.renumber_id, right.renumber_id]
  | .assign _ _ value => congrArg (Expr.assign _ _) value.renumber_id
  | .call callee _ arguments => by
      rw [Expr.renumber, callee.renumber_id, Expr.renumberEach_id arguments]
  | .get object _ => congrArg (Expr.get · _) object.renumber_id
  | .set object _ value => by rw [Expr.renumber, object.renumber_id, value.renumber_id]

theorem Expr.renumberEach_id : (es : List Expr) → Expr.renumberEach id es = es
  | [] => rfl
  | e :: es => by rw [Expr.renumberEach, e.renumber_id, Expr.renumberEach_id es]

end

theorem Expr.renumber?_id (e : Option Expr) : e.map (Expr.renumber id) = e := by
  cases e with
  | none => rfl
  | some e => exact congrArg some e.renumber_id

mutual

theorem Stmt.renumber_id : (s : Stmt) → s.renumber id = s
  | .expression e => congrArg Stmt.expression e.renumber_id
  | .print e => congrArg Stmt.print e.renumber_id
  | .var _ initializer => congrArg (Stmt.var _) (Expr.renumber?_id initializer)
  | .block body => congrArg Stmt.block (Stmt.renumberEach_id body)
  | .ifThen condition thenBranch | .loop condition thenBranch => by
      rw [Stmt.renumber, condition.renumber_id, thenBranch.renumber_id]
  | .ifElse condition thenBranch elseBranch => by
      rw [Stmt.renumber, condition.renumber_id, thenBranch.renumber_id, elseBranch.renumber_id]
  | .function decl => congrArg Stmt.function decl.renumber_id
  | .ret _ value => congrArg (Stmt.ret _) (Expr.renumber?_id value)
  | .classDecl _ superclass methods => by
      rw [Stmt.renumber, Expr.renumber?_id superclass, FunctionDecl.renumberEach_id methods]

theorem Stmt.renumberEach_id : (ss : List Stmt) → Stmt.renumberEach id ss = ss
  | [] => rfl
  | s :: ss => by rw [Stmt.renumberEach, s.renumber_id, Stmt.renumberEach_id ss]

theorem FunctionDecl.renumber_id : (d : FunctionDecl) → d.renumber id = d
  | .mk _ _ body => congrArg (FunctionDecl.mk _ _) (Stmt.renumberEach_id body)

theorem FunctionDecl.renumberEach_id : (ds : List FunctionDecl) →
    FunctionDecl.renumberEach id ds = ds
  | [] => rfl
  | d :: ds => by rw [FunctionDecl.renumberEach, d.renumber_id, FunctionDecl.renumberEach_id ds]

end

/-! ### Numbers further up -/

abbrev Expr.raise (n : Nat) : Expr → Expr := Expr.renumber (· + n)

abbrev Expr.raiseEach (n : Nat) : List Expr → List Expr := Expr.renumberEach (· + n)

abbrev Stmt.raise (n : Nat) : Stmt → Stmt := Stmt.renumber (· + n)

abbrev Stmt.raiseEach (n : Nat) : List Stmt → List Stmt := Stmt.renumberEach (· + n)

abbrev FunctionDecl.raise (n : Nat) : FunctionDecl → FunctionDecl := FunctionDecl.renumber (· + n)

abbrev FunctionDecl.raiseEach (n : Nat) : List FunctionDecl → List FunctionDecl :=
  FunctionDecl.renumberEach (· + n)

/-! ### Scoping -/

namespace ScopeWalk

/-- The walk with other ids. -/
def renumber (σ : ExprId → ExprId) (w : ScopeWalk) : ScopeWalk :=
  { w with hops := w.hops.map fun x => (σ x.1, x.2) }

variable (σ : ExprId → ExprId) (w : ScopeWalk)

theorem declare_renumber (name : Token) :
    (w.renumber σ).declare name = (w.declare name).renumber σ := by
  simp only [declare, renumber]
  split
  · rfl
  · split <;> rfl

theorem define_renumber (name : String) :
    (w.renumber σ).define name = (w.define name).renumber σ := by
  simp only [define, renumber]
  split <;> rfl

theorem declareComplete_renumber (name : Token) :
    (w.renumber σ).declareComplete name = (w.declareComplete name).renumber σ := by
  rw [declareComplete, declareComplete, declare_renumber, define_renumber]

theorem refer_renumber (id : ExprId) (name : Token) :
    (w.renumber σ).refer (σ id) name = (w.refer id name).renumber σ := by
  simp only [refer, renumber]
  split <;> rfl

theorem checkComplete_renumber (name : Token) :
    (w.renumber σ).checkComplete name = (w.checkComplete name).renumber σ := by
  simp only [checkComplete, renumber]
  split
  · rfl
  · split <;> rfl

theorem checkReturn_renumber (setting : Setting) (keyword : Token) (hasValue : Bool) :
    (w.renumber σ).checkReturn setting keyword hasValue =
      (w.checkReturn setting keyword hasValue).renumber σ := by
  simp only [checkReturn]
  split
  · rfl
  · split <;> rfl
  · rfl

theorem foldl_declareComplete_renumber (params : List Token) (w : ScopeWalk) :
    params.foldl declareComplete (w.renumber σ) = (params.foldl declareComplete w).renumber σ := by
  induction params generalizing w with
  | nil => rfl
  | cons p params ih => rw [List.foldl_cons, declareComplete_renumber, ih, List.foldl_cons]

end ScopeWalk

section Resolve

variable (σ : ExprId → ExprId)

mutual

theorem Expr.resolve_renumber (setting : Setting) : (e : Expr) → (w : ScopeWalk) →
    (e.renumber σ).resolve setting (w.renumber σ) = (e.resolve setting w).renumber σ
  | .literal _, _ => rfl
  | .grouping inner, w => inner.resolve_renumber setting w
  | .unary _ right, w => right.resolve_renumber setting w
  | .binary left _ right, w | .logical left _ right, w => by
      simp only [Expr.renumber, Expr.resolve, left.resolve_renumber, right.resolve_renumber]
  | .variable id name, w => by
      simp only [Expr.renumber, Expr.resolve, ScopeWalk.checkComplete_renumber,
        ScopeWalk.refer_renumber]
  | .assign id name value, w => by
      simp only [Expr.renumber, Expr.resolve, value.resolve_renumber, ScopeWalk.refer_renumber]
  | .call callee _ arguments, w => by
      simp only [Expr.renumber, Expr.resolve, callee.resolve_renumber,
        Expr.resolveEach_renumber setting arguments]
  | .get object _, w => object.resolve_renumber setting w
  | .set object _ value, w => by
      simp only [Expr.renumber, Expr.resolve, value.resolve_renumber, object.resolve_renumber]
  | .this id keyword, w => by
      simp only [Expr.renumber, Expr.resolve]
      split
      · rfl
      · exact w.refer_renumber σ id keyword
  | .super id keyword _, w => by
      simp only [Expr.renumber, Expr.resolve]
      split
      · rfl
      · rfl
      · exact w.refer_renumber σ id keyword

theorem Expr.resolveEach_renumber (setting : Setting) : (es : List Expr) → (w : ScopeWalk) →
    Expr.resolveEach setting (Expr.renumberEach σ es) (w.renumber σ) =
      (Expr.resolveEach setting es w).renumber σ
  | [], _ => rfl
  | e :: es, w => by
      simp only [Expr.renumberEach, Expr.resolveEach, e.resolve_renumber,
        Expr.resolveEach_renumber setting es]

end

theorem Expr.resolve?_renumber (setting : Setting) (e : Option Expr) (w : ScopeWalk) :
    Expr.resolve? setting (e.map (Expr.renumber σ)) (w.renumber σ) =
      (Expr.resolve? setting e w).renumber σ := by
  cases e with
  | none => rfl
  | some e => exact e.resolve_renumber σ setting w

theorem Expr.resolveSuperclass_renumber (setting : Setting) (name : Token) (e : Expr)
    (w : ScopeWalk) :
    (e.renumber σ).resolveSuperclass setting name (w.renumber σ) =
      (e.resolveSuperclass setting name w).renumber σ := by
  have hchecked : ∀ w : ScopeWalk, ((e.renumber σ).resolve { setting with cls := .derived }
      (w.renumber σ)).openScope.define "super" =
        ((e.resolve { setting with cls := .derived } w).openScope.define "super").renumber σ := by
    intro w
    rw [e.resolve_renumber]
    exact ScopeWalk.define_renumber σ (e.resolve _ w).openScope "super"
  simp only [Expr.resolveSuperclass]
  cases e with
  | «variable» id parent =>
      simp only [Expr.renumber] at hchecked ⊢
      split
      · exact hchecked (w.error parent .inheritsFromItself)
      · exact hchecked w
  | _ => exact hchecked w

mutual

theorem Stmt.resolve_renumber (setting : Setting) : (s : Stmt) → (w : ScopeWalk) →
    (s.renumber σ).resolve setting (w.renumber σ) = (s.resolve setting w).renumber σ
  | .expression e, w | .print e, w => e.resolve_renumber σ setting w
  | .var name initializer, w => by
      simp only [Stmt.renumber, Stmt.resolve, ScopeWalk.declare_renumber, Expr.resolve?_renumber,
        ScopeWalk.define_renumber]
  | .block body, w =>
      congrArg ScopeWalk.closeScope (Stmt.resolveEach_renumber setting body w.openScope)
  | .ifThen condition thenBranch, w | .loop condition thenBranch, w => by
      simp only [Stmt.renumber, Stmt.resolve, condition.resolve_renumber,
        thenBranch.resolve_renumber]
  | .ifElse condition thenBranch elseBranch, w => by
      simp only [Stmt.renumber, Stmt.resolve, condition.resolve_renumber,
        thenBranch.resolve_renumber, elseBranch.resolve_renumber]
  | .function decl, w => by
      simp only [Stmt.renumber, Stmt.resolve, decl.name_renumber,
        ScopeWalk.declareComplete_renumber, decl.resolve_renumber]
  | .ret keyword value, w => by
      simp only [Stmt.renumber, Stmt.resolve, Option.isSome_map, ScopeWalk.checkReturn_renumber,
        Expr.resolve?_renumber]
  | .classDecl name none methods, w => by
      have hthis := ScopeWalk.define_renumber σ (w.declareComplete name).openScope "this"
      simp only [Stmt.renumber, Option.map_none, Stmt.resolve, ScopeWalk.declareComplete_renumber]
      exact congrArg ScopeWalk.closeScope ((congrArg _ hthis).trans
        (FunctionDecl.resolveMethods_renumber { setting with cls := .base } methods _))
  | .classDecl name (some e) methods, w => by
      have hthis := ScopeWalk.define_renumber σ
        (e.resolveSuperclass setting name (w.declareComplete name)).openScope "this"
      simp only [Stmt.renumber, Option.map_some, Stmt.resolve, ScopeWalk.declareComplete_renumber,
        e.resolveSuperclass_renumber]
      exact congrArg (fun w => w.closeScope.closeScope) ((congrArg _ hthis).trans
        (FunctionDecl.resolveMethods_renumber { setting with cls := .derived } methods _))

theorem Stmt.resolveEach_renumber (setting : Setting) : (ss : List Stmt) → (w : ScopeWalk) →
    Stmt.resolveEach setting (Stmt.renumberEach σ ss) (w.renumber σ) =
      (Stmt.resolveEach setting ss w).renumber σ
  | [], _ => rfl
  | s :: ss, w => by
      simp only [Stmt.renumberEach, Stmt.resolveEach, s.resolve_renumber,
        Stmt.resolveEach_renumber setting ss]

theorem FunctionDecl.resolve_renumber (setting : Setting) : (d : FunctionDecl) → (w : ScopeWalk) →
    (d.renumber σ).resolve setting (w.renumber σ) = (d.resolve setting w).renumber σ
  | .mk _ params body, w => by
      have hparams := ScopeWalk.foldl_declareComplete_renumber σ params w.openScope
      exact congrArg ScopeWalk.closeScope ((congrArg _ hparams).trans
        (Stmt.resolveEach_renumber setting body _))

theorem FunctionDecl.resolveMethods_renumber (setting : Setting) : (ds : List FunctionDecl) →
    (w : ScopeWalk) →
    FunctionDecl.resolveMethods setting (FunctionDecl.renumberEach σ ds) (w.renumber σ) =
      (FunctionDecl.resolveMethods setting ds w).renumber σ
  | [], _ => rfl
  | d :: ds, w => by
      simp only [FunctionDecl.renumberEach, FunctionDecl.resolveMethods,
        FunctionKind.ofMethod_renumber, d.resolve_renumber,
        FunctionDecl.resolveMethods_renumber setting ds]

end

/-- The same references are found, and the same errors. -/
theorem Stmt.hopCounts_renumber (p : List Stmt) : Stmt.hopCounts (Stmt.renumberEach σ p) =
    (Stmt.hopCounts p).map (List.map fun x => (σ x.1, x.2)) := by
  have hwalk : Stmt.resolveEach ⟨.none, .none⟩ (Stmt.renumberEach σ p) .start =
      (Stmt.resolveEach ⟨.none, .none⟩ p .start).renumber σ :=
    Stmt.resolveEach_renumber σ ⟨.none, .none⟩ p .start
  simp only [Stmt.hopCounts, hwalk, ScopeWalk.renumber]
  split
  · simp [Except.map]
  · rfl

end Resolve

/-! ### Matching -/

section Matching

variable {μ : Matching} {f g : ExprId → ExprId}

/-- References stand for each other under the ids that `f` and `g` give them. -/
def Matching.Pairs (μ : Matching) (f g : ExprId → ExprId) (ids : List ExprId) : Prop :=
  ∀ id ∈ ids, ∃ hop, μ.ref (f id) (g id) hop

theorem Matching.Pairs.left {ids others : List ExprId} (h : μ.Pairs f g (ids ++ others)) :
    μ.Pairs f g ids :=
  fun id hid => h id (List.mem_append_left others hid)

theorem Matching.Pairs.right {ids others : List ExprId} (h : μ.Pairs f g (ids ++ others)) :
    μ.Pairs f g others :=
  fun id hid => h id (List.mem_append_right ids hid)

theorem Matching.Pairs.head {id : ExprId} {others : List ExprId} (h : μ.Pairs f g (id :: others)) :
    ∃ hop, μ.ref (f id) (g id) hop :=
  h id List.mem_cons_self

theorem Matching.Pairs.tail {id : ExprId} {others : List ExprId} (h : μ.Pairs f g (id :: others)) :
    μ.Pairs f g others :=
  fun other hother => h other (List.mem_cons_of_mem id hother)

/-- Where no scope has another name, names stand for themselves. -/
theorem Matching.names_none (hop : Option Nat) (t : Token) : μ.Names (Place.At none hop) t t :=
  .same fun h => absurd h (Place.at_none hop)

mutual

theorem Expr.renumber_matches : (e : Expr) → e.WellFormed → μ.Pairs f g e.ids →
    (e.renumber f).Matches μ none (e.renumber g)
  | .literal value, _, _ => .literal value
  | .grouping inner, hwf, hids => .grouping (inner.renumber_matches hwf hids)
  | .unary t right, hwf, hids => .unary t (right.renumber_matches hwf hids)
  | .binary left t right, hwf, hids =>
      .binary t (left.renumber_matches hwf.1 hids.left) (right.renumber_matches hwf.2 hids.right)
  | .logical left t right, hwf, hids =>
      .logical t (left.renumber_matches hwf.1 hids.left) (right.renumber_matches hwf.2 hids.right)
  | .variable _ t, _, hids => by
      obtain ⟨hop, hid⟩ := hids.head
      exact .variable hid (Matching.names_none hop t)
  | .assign _ t value, hwf, hids => by
      obtain ⟨hop, hid⟩ := hids.head
      exact .assign hid (Matching.names_none hop t) (value.renumber_matches hwf.2 hids.tail)
  | .call callee t arguments, hwf, hids =>
      .call t (callee.renumber_matches hwf.1 hids.left)
        (Expr.renumberEach_matches arguments hwf.2 hids.right)
  | .get object t, hwf, hids => .get t (object.renumber_matches hwf hids)
  | .set object t value, hwf, hids =>
      .set t (object.renumber_matches hwf.1 hids.right) (value.renumber_matches hwf.2 hids.left)
  | .this _ t, hwf, hids => by
      obtain ⟨hop, hid⟩ := hids.head
      have hlexeme : t.lexeme = "this" := hwf
      exact .this hid (hlexeme ▸ Matching.fixes_this)
  | .super _ t u, hwf, hids => by
      obtain ⟨hop, hid⟩ := hids.head
      have hlexeme : t.lexeme = "super" := hwf
      exact .super u hid (hlexeme ▸ Matching.fixes_super)

theorem Expr.renumberEach_matches : (es : List Expr) → Expr.WellFormedEach es →
    μ.Pairs f g (Expr.idsEach es) →
    Expr.MatchesEach μ none (Expr.renumberEach f es) (Expr.renumberEach g es)
  | [], _, _ => .nil
  | e :: es, hwf, hids =>
      .cons (e.renumber_matches hwf.1 hids.left) (Expr.renumberEach_matches es hwf.2 hids.right)

end

theorem Expr.renumber?_matches : (e : Option Expr) → Expr.WellFormed? e →
    μ.Pairs f g (Expr.ids? e) →
    Option.Rel (Expr.Matches μ none) (e.map (Expr.renumber f)) (e.map (Expr.renumber g))
  | none, _, _ => .none
  | some e, hwf, hids => .some (e.renumber_matches hwf hids)

/-- The superclass of a class is a name. -/
theorem Expr.wellFormed?_of_name {e : Option Expr}
    (h : ∀ e' ∈ e, ∃ id parent, e' = .variable id parent) : Expr.WellFormed? e := by
  cases e with
  | none => trivial
  | some e =>
      obtain ⟨id, parent, rfl⟩ := h e rfl
      trivial

mutual

theorem Stmt.renumber_matches : (s : Stmt) → s.WellFormed → μ.Pairs f g s.ids →
    (s.renumber f).Matches μ none (s.renumber g)
  | .expression e, hwf, hids => .expression (e.renumber_matches hwf hids)
  | .print e, hwf, hids => .print (e.renumber_matches hwf hids)
  | .var _ e, hwf, hids => .var (.same nofun) (Expr.renumber?_matches e hwf.2 hids)
  | .block body, hwf, hids => .block (.plain none) (Stmt.renumberEach_matches body hwf hids)
  | .ifThen e s, hwf, hids =>
      .ifThen (e.renumber_matches hwf.1 hids.left) (s.renumber_matches hwf.2.1 hids.right)
  | .ifElse e s u, hwf, hids =>
      .ifElse (e.renumber_matches hwf.1 hids.left) (s.renumber_matches hwf.2.1.1 hids.right.left)
        (u.renumber_matches hwf.2.2.1 hids.right.right)
  | .loop e s, hwf, hids =>
      .loop (e.renumber_matches hwf.1 hids.left) (s.renumber_matches hwf.2.1 hids.right)
  | .function d, hwf, hids => .function nofun (d.renumber_matches hwf.2 hids)
  | .ret t e, hwf, hids => .ret t (Expr.renumber?_matches e hwf hids)
  | .classDecl _ none methods, hwf, hids =>
      .classDecl nofun .none (FunctionDecl.renumberEach_matches methods hwf.2.2 hids.right)
  | .classDecl _ (some e) methods, hwf, hids =>
      .classDecl nofun
        (Expr.renumber?_matches (some e) (Expr.wellFormed?_of_name hwf.2.1) hids.left)
        (FunctionDecl.renumberEach_matches methods hwf.2.2 hids.right)

theorem Stmt.renumberEach_matches : (ss : List Stmt) → Stmt.WellFormedEach ss →
    μ.Pairs f g (Stmt.idsEach ss) →
    Stmt.MatchesEach μ none (Stmt.renumberEach f ss) (Stmt.renumberEach g ss)
  | [], _, _ => .nil none
  | s :: ss, hwf, hids =>
      .cons (s.renumber_matches hwf.1 hids.left) (Stmt.renumberEach_matches ss hwf.2 hids.right)

theorem FunctionDecl.renumber_matches : (d : FunctionDecl) → d.WellFormed → μ.Pairs f g d.ids →
    (d.renumber f).Matches μ none (d.renumber g)
  | .mk t _ body, hwf, hids =>
      .mk t (.plain none) (List.forall₂_same.mpr fun _ _ => .same nofun)
        (Stmt.renumberEach_matches body hwf.2 hids)

theorem FunctionDecl.renumberEach_matches : (ds : List FunctionDecl) →
    FunctionDecl.WellFormedEach ds → μ.Pairs f g (FunctionDecl.idsEach ds) →
    FunctionDecl.MatchesEach μ none (FunctionDecl.renumberEach f ds)
      (FunctionDecl.renumberEach g ds)
  | [], _, _ => .nil none
  | d :: ds, hwf, hids =>
      .cons (d.renumber_matches hwf.1 hids.left)
        (FunctionDecl.renumberEach_matches ds hwf.2 hids.right)

end

end Matching

end ScriptLang
