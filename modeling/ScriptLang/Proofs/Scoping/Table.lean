import ScriptLang.Proofs.Scoping.Points
import ScriptLang.Session

/-! The table of hop counts. Each reference of a program has an id of its own, so the table has for
it the distance that was found where it stands. -/

namespace ScriptLang

/-! ### Hop counts are found for references only -/

/-- Between two walks hop counts are added for these ids only. -/
def ScopeWalk.Adds (w : ScopeWalk) (ids : List ExprId) (w' : ScopeWalk) : Prop :=
  ∀ x ∈ w'.hops, x.1 ∈ ids ∨ x ∈ w.hops

namespace ScopeWalk.Adds

variable {w w₁ w₂ : ScopeWalk} {xs ys : List ExprId}

theorem of_hops_eq (h : w₁.hops = w.hops) : w.Adds xs w₁ := fun _ hx => .inr (h ▸ hx)

theorem trans (h : w.Adds xs w₁) (h' : w₁.Adds ys w₂) : w.Adds (xs ++ ys) w₂ := by
  intro x hx
  rcases h' x hx with hx | hx
  · exact .inl (List.mem_append_right xs hx)
  · exact (h x hx).imp (List.mem_append_left ys) id

theorem perm (h : w.Adds xs w₁) (hperm : xs.Perm ys) : w.Adds ys w₁ :=
  fun x hx => (h x hx).imp hperm.mem_iff.mp id

theorem congr (h : w.Adds xs w₁) (h₂ : w₂.hops = w₁.hops) : w.Adds xs w₂ :=
  fun x hx => h x (h₂ ▸ hx)

theorem congr_left (h : w.Adds xs w₁) (h₂ : w.hops = w₂.hops) : w₂.Adds xs w₁ :=
  fun x hx => (h x hx).imp id (h₂ ▸ ·)

theorem refer (w : ScopeWalk) (id : ExprId) (name : Token) : w.Adds [id] (w.refer id name) := by
  intro x hx
  rw [refer_hops] at hx
  rcases List.mem_append.mp hx with hx | hx
  · obtain ⟨d, -, rfl⟩ := List.mem_map.mp hx
    exact .inl (List.mem_singleton_self id)
  · exact .inr hx

end ScopeWalk.Adds

mutual

theorem Expr.resolve_adds (setting : Setting) : (e : Expr) → (w : ScopeWalk) →
    w.Adds e.ids (e.resolve setting w)
  | .literal _, w => .of_hops_eq rfl
  | .grouping inner, w => inner.resolve_adds setting w
  | .unary _ right, w => right.resolve_adds setting w
  | .binary left _ right, w => (left.resolve_adds setting w).trans (right.resolve_adds setting _)
  | .logical left _ right, w => (left.resolve_adds setting w).trans (right.resolve_adds setting _)
  | .variable id name, w => (ScopeWalk.Adds.refer _ id name).congr_left (w.checkComplete_hops name)
  | .assign id name value, w =>
      ((value.resolve_adds setting w).trans (.refer _ id name)).perm
        List.perm_append_comm
  | .call callee _ arguments, w =>
      (callee.resolve_adds setting w).trans (Expr.resolveEach_adds setting arguments _)
  | .get object _, w => object.resolve_adds setting w
  | .set object _ value, w => (value.resolve_adds setting w).trans (object.resolve_adds setting _)
  | .this id keyword, w => by
      rw [Expr.resolve]
      split
      · exact .of_hops_eq rfl
      · exact .refer w id keyword
  | .super id keyword _, w => by
      rw [Expr.resolve]
      split
      · exact .of_hops_eq rfl
      · exact .of_hops_eq rfl
      · exact .refer w id keyword

theorem Expr.resolveEach_adds (setting : Setting) : (es : List Expr) → (w : ScopeWalk) →
    w.Adds (Expr.idsEach es) (Expr.resolveEach setting es w)
  | [], _ => .of_hops_eq rfl
  | e :: es, w => (e.resolve_adds setting w).trans (Expr.resolveEach_adds setting es _)

end

theorem Expr.resolve?_adds (setting : Setting) (e : Option Expr) (w : ScopeWalk) :
    w.Adds (Expr.ids? e) (Expr.resolve? setting e w) := by
  cases e with
  | none => exact .of_hops_eq rfl
  | some e => exact e.resolve_adds setting w

theorem Expr.resolveSuperclass_adds (setting : Setting) (name : Token) (superclass : Expr)
    (w : ScopeWalk) : w.Adds superclass.ids (superclass.resolveSuperclass setting name w) := by
  intro x hx
  rw [Expr.resolveSuperclass_hops] at hx
  rcases List.mem_append.mp hx with hx | hx
  · exact .inl ((superclass.resolve_adds _ _ x hx).resolve_right List.not_mem_nil)
  · exact .inr hx

mutual

theorem Stmt.resolve_adds (setting : Setting) : (s : Stmt) → (w : ScopeWalk) →
    w.Adds s.ids (s.resolve setting w)
  | .expression e, w => e.resolve_adds setting w
  | .print e, w => e.resolve_adds setting w
  | .var name initializer, w =>
      ((Expr.resolve?_adds setting initializer (w.declare name)).congr_left
        (w.declare_hops name)).congr (ScopeWalk.define_hops _ _)
  | .block body, w => Stmt.resolveEach_adds setting body w.openScope
  | .ifThen condition thenBranch, w =>
      (condition.resolve_adds setting w).trans (thenBranch.resolve_adds setting _)
  | .ifElse condition thenBranch elseBranch, w =>
      (condition.resolve_adds setting w).trans
        ((thenBranch.resolve_adds setting _).trans (elseBranch.resolve_adds setting _))
  | .loop condition body, w =>
      (condition.resolve_adds setting w).trans (body.resolve_adds setting _)
  | .function decl, w => (decl.resolve_adds _ _).congr_left (w.declareComplete_hops decl.name)
  | .ret keyword value, w =>
      (Expr.resolve?_adds setting value _).congr_left (w.checkReturn_hops setting keyword _)
  | .classDecl name none methods, w =>
      (FunctionDecl.resolveMethods_adds { setting with cls := .base } methods
        (((w.declareComplete name).openScope).define "this")).congr_left (by simp)
  | .classDecl name (some superclass) methods, w =>
      ((superclass.resolveSuperclass_adds setting name (w.declareComplete name)).congr_left
        (by simp)).trans ((FunctionDecl.resolveMethods_adds { setting with cls := .derived } methods
          ((superclass.resolveSuperclass setting name (w.declareComplete name)).openScope.define
            "this")).congr_left (by simp))

theorem Stmt.resolveEach_adds (setting : Setting) : (ss : List Stmt) → (w : ScopeWalk) →
    w.Adds (Stmt.idsEach ss) (Stmt.resolveEach setting ss w)
  | [], _ => .of_hops_eq rfl
  | s :: ss, w => (s.resolve_adds setting w).trans (Stmt.resolveEach_adds setting ss _)

theorem FunctionDecl.resolve_adds (setting : Setting) : (d : FunctionDecl) → (w : ScopeWalk) →
    w.Adds d.ids (d.resolve setting w)
  | .mk _ params body, w =>
      (Stmt.resolveEach_adds setting body
        (params.foldl ScopeWalk.declareComplete w.openScope)).congr_left (by simp)

theorem FunctionDecl.resolveMethods_adds (setting : Setting) : (ds : List FunctionDecl) →
    (w : ScopeWalk) → w.Adds (FunctionDecl.idsEach ds) (FunctionDecl.resolveMethods setting ds w)
  | [], _ => .of_hops_eq rfl
  | d :: ds, w => (d.resolve_adds _ w).trans (FunctionDecl.resolveMethods_adds setting ds _)

end

namespace Point

theorem mem_ids_of_mem_found {p : Point} {x : ExprId × Nat} (h : x ∈ p.found.hops) :
    x.1 ∈ p.node.ids := by
  obtain ⟨node, setting, scopes, sites⟩ := p
  have hadds : (ScopeWalk.within scopes).Adds node.ids (node.resolve setting (.within scopes)) := by
    cases node with
    | expr e => exact e.resolve_adds setting _
    | stmt s => exact s.resolve_adds setting _
    | stmts ss => exact Stmt.resolveEach_adds setting ss _
    | decl d => exact d.resolve_adds setting _
  exact (hadds x h).resolve_right List.not_mem_nil

/-! ### References are told apart -/

theorem lookup_of_not_mem {id : ExprId} {p : Point} (h : id ∉ p.node.ids) :
    p.found.hops.lookup id = none := by
  refine List.lookup_eq_none_iff.mpr fun x hx => ?_
  have hne : id ≠ x.1 := fun heq => h (heq ▸ mem_ids_of_mem_found hx)
  simpa using hne

/-- Among points with distinct ids, a hop count is found at the point that has its id. -/
theorem lookup_flatMap {ps : List Point} (hnodup : (ps.flatMap (·.node.ids)).Nodup) {q : Point}
    (hq : q ∈ ps) {id : ExprId} (hid : id ∈ q.node.ids) :
    (ps.reverse.flatMap (·.found.hops)).lookup id = q.found.hops.lookup id := by
  induction ps with
  | nil => simp at hq
  | cons p ps ih =>
      simp only [List.flatMap_cons, List.nodup_append] at hnodup
      obtain ⟨-, hrest, hdisjoint⟩ := hnodup
      simp only [List.reverse_cons, List.flatMap_append, List.flatMap_singleton, List.lookup_append]
      rcases List.mem_cons.mp hq with rfl | hq
      · have hnone : (ps.reverse.flatMap (·.found.hops)).lookup id = none := by
          refine List.lookup_eq_none_iff.mpr fun x hx => ?_
          obtain ⟨p, hp, hx⟩ := List.mem_flatMap.mp hx
          have hne := hdisjoint id hid x.1
            (List.mem_flatMap.mpr ⟨p, List.mem_reverse.mp hp, mem_ids_of_mem_found hx⟩)
          simpa using hne
        rw [hnone, Option.none_or]
      · have hp : id ∉ p.node.ids := fun hp =>
          hdisjoint id hp id (List.mem_flatMap.mpr ⟨q, hq, hid⟩) rfl
        rw [ih hrest hq, lookup_of_not_mem hp, Option.or_none]

/-- A table that has for the references at a point the hop counts that are found there. -/
structure Recorded (table : ExprId → Option Nat) (p : Point) : Prop where
  nodup : p.node.ids.Nodup
  eq : ∀ id ∈ p.node.ids, table id = p.found.hops.lookup id

theorem lookup_own_of_not_mem {id : ExprId} {p : Point} (h : id ∉ p.ownIds) :
    p.own.lookup id = none := by
  refine List.lookup_eq_none_iff.mpr fun x hx => ?_
  have hne : id ≠ x.1 := by
    rintro rfl
    refine h ?_
    unfold own ownIds at *
    split at hx
    · split at hx
      · obtain ⟨d, -, rfl⟩ := List.mem_map.mp hx
        simp [*]
      · simp at hx
    · simp at hx
  simpa using hne

theorem recorded_part {table : ExprId → Option Nat} {p q : Point} (haccepted : p.Accepted)
    (h : p.Recorded table) (hq : q ∈ p.parts) : q.Recorded table := by
  obtain ⟨hnodup, heq⟩ := h
  rw [ids_eq] at hnodup heq
  rw [found_hops haccepted] at heq
  obtain ⟨-, hparts, hdisjoint⟩ := List.nodup_append.mp hnodup
  constructor
  · obtain ⟨front, rest, hsplit⟩ := List.append_of_mem hq
    rw [hsplit, List.flatMap_append, List.flatMap_cons] at hparts
    exact (List.nodup_append.mp (List.nodup_append.mp hparts).2.1).1
  · intro id hid
    have hmem : id ∈ p.parts.flatMap (·.node.ids) := List.mem_flatMap.mpr ⟨q, hq, hid⟩
    have hown : id ∉ p.ownIds := fun hown => hdisjoint id hown id hmem rfl
    rw [heq id (List.mem_append_right _ hmem), List.lookup_append, lookup_own_of_not_mem hown,
      Option.none_or, lookup_flatMap hparts hq hid]

/-- The table has for a reference the distance to the innermost scope that has its name. -/
theorem recorded_reference {table : ExprId → Option Nat} {e : Expr} {setting : Setting}
    {scopes : List Scope} {sites : List Site} {id : ExprId} {name : Token}
    (haccepted : Accepted ⟨.expr e, setting, scopes, sites⟩)
    (h : Recorded table ⟨.expr e, setting, scopes, sites⟩) (href : e.reference = some (id, name)) :
    table id = scopes.findIdx? (·.contains name.lexeme) := by
  obtain ⟨hnodup, heq⟩ := h
  rw [ids_eq] at hnodup heq
  rw [found_hops haccepted] at heq
  have hown : ownIds ⟨.expr e, setting, scopes, sites⟩ = [id] := by simp [ownIds, href]
  rw [heq id (by simp [hown]), List.lookup_append]
  cases hfound : scopes.findIdx? (·.contains name.lexeme) with
  | some d => simp [own, href, hfound]
  | none =>
      have hrest : ((parts ⟨.expr e, setting, scopes, sites⟩).reverse.flatMap
          (·.found.hops)).lookup id = none := by
        refine List.lookup_eq_none_iff.mpr fun x hx => ?_
        obtain ⟨q, hq, hx⟩ := List.mem_flatMap.mp hx
        have hne := (List.nodup_append.mp hnodup).2.2 id (by simp [hown]) x.1
          (List.mem_flatMap.mpr ⟨q, List.mem_reverse.mp hq, mem_ids_of_mem_found hx⟩)
        simpa using hne
      simp [own, href, hfound, hrest]

end Point

/-- At every point of an accepted program the table has the hop counts found there. -/
theorem Visits.recorded {program : List Stmt} {table : ExprId → Option Nat} {p : Point}
    (h : Visits program p)
    (haccepted : (Point.root program).Accepted)
    (hrecorded : (Point.root program).Recorded table) :
    p.Accepted ∧ p.Recorded table := by
  induction h with
  | program => exact ⟨haccepted, hrecorded⟩
  | part _ hq ih => exact ⟨Point.accepted_part ih.1 hq, Point.recorded_part ih.1 ih.2 hq⟩

/-! ### The table of a session -/

theorem Stmt.hopCounts_eq_ok_iff {program : List Stmt} {hops : List (ExprId × Nat)} :
    Stmt.hopCounts program = .ok hops ↔
      (Point.root program).found.errors = [] ∧ (Point.root program).found.hops.reverse = hops := by
  have hfound : (Point.root program).found = Stmt.resolveEach ⟨.none, .none⟩ program .start := rfl
  rw [hfound]
  simp only [Stmt.hopCounts]
  split <;> simp_all

/-- A table with more hop counts. -/
def HopTable.record (table : HopTable) (hops : List (ExprId × Nat)) : HopTable :=
  hops.foldl (fun table x => table.insert x.1 x.2) table

theorem HopTable.record_append (table : HopTable) (a b : List (ExprId × Nat)) :
    HopTable.record table (a ++ b) = HopTable.record (HopTable.record table a) b :=
  List.foldl_append

theorem HopTable.getElem?_record (table : HopTable) (hops : List (ExprId × Nat)) (id : ExprId) :
    (HopTable.record table hops)[id]? = (hops.reverse.lookup id).or table[id]? := by
  induction hops generalizing table with
  | nil => simp [record]
  | cons x hops ih =>
      obtain ⟨other, d⟩ := x
      have hinsert : (table.insert other d)[id]? = if other = id then some d else table[id]? := by
        simp only [Std.TreeMap.getElem?_insert, Std.LawfulEqCmp.compare_eq_iff_eq]
      rw [record, List.foldl_cons, ← record, ih, hinsert, List.reverse_cons, List.lookup_append,
        Option.or_assoc]
      by_cases h : other = id
      · simp [h]
      · have hne : (id == other) = false := by simpa using Ne.symm h
        simp [List.lookup_cons, h, hne]

/-- A program that keeps the scoping rules has its hop counts recorded, and nothing else
changes. -/
theorem Session.resolve_eq_ok_iff {s s' : Session} {program : List Stmt} :
    s.resolve program = .ok s' ↔ ∃ hops, Stmt.hopCounts program = .ok hops ∧
      s' = { s with hops := HopTable.record s.hops hops } := by
  have hfold (hops : List (ExprId × Nat)) (s : Session) :
      hops.foldl (fun s hop => s.recordHop hop.1 hop.2) s =
        { s with hops := HopTable.record s.hops hops } := by
    induction hops generalizing s with
    | nil => rfl
    | cons x hops ih =>
        rw [List.foldl_cons, ih]
        rfl
  unfold resolve
  cases Stmt.hopCounts program with
  | error errors => simp
  | ok hops =>
      constructor
      · rintro ⟨⟩
        exact ⟨hops, rfl, hfold hops s⟩
      · rintro ⟨_, ⟨⟩, rfl⟩
        exact congrArg Except.ok (hfold hops s)

end ScriptLang
