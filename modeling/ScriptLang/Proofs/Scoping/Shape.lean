import ScriptLang.Proofs.Scoping.Points

/-! The shape of the scopes around a point: which of them can hold `this` and `super`, and that
all but the innermost hold only names whose declaration is complete. -/

namespace ScriptLang

/-- A scope that holds one word. -/
def wordScope (word : String) : Scope := Bindings.empty.insert word true

theorem get?_wordScope {word name : String} {b : Bool} (h : (wordScope word).get? name = some b) :
    name = word ∧ b = true := by
  rw [wordScope, Bindings.get?_insert] at h
  split at h
  · exact ⟨Eq.symm ‹_›, (Option.some.inj h).symm⟩
  · cases h

/-- A scope of plain names, all of them declared. -/
def Ordinary (scope : Scope) : Prop :=
  ∀ name b, scope.get? name = some b → b = true ∧ name ≠ "this" ∧ name ≠ "super"

theorem Ordinary.empty : Ordinary Bindings.empty := by simp [Ordinary]

theorem Ordinary.insert {scope : Scope} (h : Ordinary scope) {name : Token} (hname : name.IsPlain) :
    Ordinary (Bindings.insert scope name.lexeme true) := by
  intro other b hget
  rw [Bindings.get?_insert] at hget
  split at hget
  · rename_i heq
    subst heq
    exact ⟨(Option.some.inj hget).symm, hname⟩
  · exact h other b hget

theorem Ordinary.contains_this {scope : Scope} (h : Ordinary scope) :
    scope.contains "this" = false := by
  cases hget : scope.get? "this" with
  | none => simp [Bindings.contains, hget]
  | some b => exact absurd rfl (h _ b hget).2.1

theorem Ordinary.contains_super {scope : Scope} (h : Ordinary scope) :
    scope.contains "super" = false := by
  cases hget : scope.get? "super" with
  | none => simp [Bindings.contains, hget]
  | some b => exact absurd rfl (h _ b hget).2.2

/-- The scopes around a statement in a class of this kind. Around a method stands the scope of
`this`, and around that, in a derived class, the scope of `super`. -/
inductive Settled : ClassKind → List Scope → List Site → Prop where
  | global : Settled .none [] []
  | block {kind scope scopes sites} (body : List Stmt) : Ordinary scope →
      Settled kind scopes sites → Settled kind (scope :: scopes) (.block body :: sites)
  | function {kind scope scopes sites} (d : FunctionDecl) : Ordinary scope →
      Settled kind scopes sites → Settled kind (scope :: scopes) (.body d :: sites)
  | method {kind scope scopes sites} (d : FunctionDecl) : Ordinary scope →
      Settled kind scopes sites →
      Settled .base (scope :: wordScope "this" :: scopes) (.body d :: .this d :: sites)
  | derived {kind scope scopes sites} (d : FunctionDecl) (name : Token)
      (methods : List FunctionDecl) : Ordinary scope → Settled kind scopes sites →
      Settled .derived (scope :: wordScope "this" :: wordScope "super" :: scopes)
        (.body d :: .this d :: .super name methods :: sites)

/-- The scopes around the parameters of a function. -/
inductive Encloses (d : FunctionDecl) : ClassKind → List Scope → List Site → Prop where
  | function {kind scopes sites} : Settled kind scopes sites → Encloses d kind scopes sites
  | method {kind scopes sites} : Settled kind scopes sites →
      Encloses d .base (wordScope "this" :: scopes) (.this d :: sites)
  | derived {kind scopes sites} (name : Token) (methods : List FunctionDecl) :
      Settled kind scopes sites →
      Encloses d .derived (wordScope "this" :: wordScope "super" :: scopes)
        (.this d :: .super name methods :: sites)

theorem Encloses.settled {d : FunctionDecl} {kind : ClassKind} {scope : Scope}
    {scopes : List Scope} {sites : List Site} (h : Encloses d kind scopes sites)
    (hscope : Ordinary scope) : Settled kind (scope :: scopes) (.body d :: sites) := by
  cases h with
  | function h => exact .function d hscope h
  | method h => exact .method d hscope h
  | derived name methods h => exact .derived d name methods hscope h

namespace Settled

variable {kind : ClassKind} {scopes : List Scope} {sites : List Site}

theorem length_eq (h : Settled kind scopes sites) : scopes.length = sites.length := by
  induction h <;> simp_all

theorem completeIn (h : Settled kind scopes sites) {name : Token} (hname : name.IsPlain) :
    Settled kind (completeIn name.lexeme scopes) sites := by
  cases h with
  | global => exact .global
  | block body hscope h => exact .block body (hscope.insert hname) h
  | function d hscope h => exact .function d (hscope.insert hname) h
  | method d hscope h => exact .method d (hscope.insert hname) h
  | derived d n methods hscope h => exact .derived d n methods (hscope.insert hname) h

theorem after (h : Settled kind scopes sites) {s : Stmt} (hwf : s.WellFormed) :
    Settled kind (s.after scopes) sites := by
  unfold Stmt.after
  split
  · rename_i name hname
    have hplain : name.IsPlain := by
      cases s with
      | var | function | classDecl =>
          obtain rfl := Option.some.inj hname
          exact hwf.1
      | _ => cases hname
    exact h.completeIn hplain
  · exact h

theorem complete (h : Settled kind scopes sites) {scope : Scope} (hscope : scope ∈ scopes)
    {name : String} {b : Bool} (hget : scope.get? name = some b) : b = true := by
  induction h with
  | global => simp at hscope
  | block _ hord _ ih | function _ hord _ ih =>
      rcases List.mem_cons.mp hscope with rfl | hscope
      · exact (hord name b hget).1
      · exact ih hscope
  | method _ hord _ ih =>
      simp only [List.mem_cons] at hscope
      rcases hscope with rfl | rfl | hscope
      · exact (hord name b hget).1
      · exact (get?_wordScope hget).2
      · exact ih hscope
  | derived _ _ _ hord _ ih =>
      simp only [List.mem_cons] at hscope
      rcases hscope with rfl | rfl | rfl | hscope
      · exact (hord name b hget).1
      · exact (get?_wordScope hget).2
      · exact (get?_wordScope hget).2
      · exact ih hscope

/-- In a class `this` is found in the scope of the method around it, right outside its body. -/
theorem findIdx?_this (h : Settled kind scopes sites) (hkind : kind ≠ .none) :
    ∃ inner m, scopes.findIdx? (·.contains "this") = some (inner + 1) ∧
      sites.findIdx? Site.isThis = some (inner + 1) ∧ sites[inner]? = some (.body m) ∧
      sites[inner + 1]? = some (.this m) := by
  have hthis : (wordScope "this").contains "this" = true := by decide
  induction h with
  | global => exact absurd rfl hkind
  | block _ hord _ ih | function _ hord _ ih =>
      obtain ⟨inner, m, hscope, hsite, hbody, hmethod⟩ := ih hkind
      refine ⟨inner + 1, m, ?_, ?_, by simpa using hbody, by simpa using hmethod⟩
      · simp [List.findIdx?_cons, hord.contains_this, hscope]
      · simp [List.findIdx?_cons, Site.isThis, hsite]
  | method m hord _ _ | derived m _ _ hord _ _ =>
      refine ⟨0, m, ?_, ?_, rfl, rfl⟩
      · simp [List.findIdx?_cons, hord.contains_this, hthis]
      · simp [List.findIdx?_cons, Site.isThis]

/-- In a derived class `super` is found right outside the scope of `this`. -/
theorem findIdx?_super (h : Settled .derived scopes sites) :
    ∃ inner m name methods, scopes.findIdx? (·.contains "super") = some (inner + 1) ∧
      sites.findIdx? Site.isThis = some inner ∧ sites[inner]? = some (.this m) ∧
      sites[inner + 1]? = some (.super name methods) := by
  have hthis : (wordScope "this").contains "super" = false := by decide
  have hsuper : (wordScope "super").contains "super" = true := by decide
  generalize hkind : ClassKind.derived = kind at h
  induction h with
  | global | method => cases hkind
  | block _ hord _ ih | function _ hord _ ih =>
      obtain ⟨inner, m, name, methods, hscope, hsite, hmethod, hclass⟩ := ih hkind
      refine ⟨inner + 1, m, name, methods, ?_, ?_, by simpa using hmethod, by simpa using hclass⟩
      · simp [List.findIdx?_cons, hord.contains_super, hscope]
      · simp [List.findIdx?_cons, Site.isThis, hsite]
  | derived m name methods hord _ _ =>
      refine ⟨1, m, name, methods, ?_, ?_, rfl, rfl⟩
      · simp [List.findIdx?_cons, hord.contains_super, hthis, hsuper]
      · simp [List.findIdx?_cons, Site.isThis]

end Settled

/-! ### Points -/

/-- The scopes around a point. In the initializer of a variable the innermost scope is still
declaring it; a superclass is only ever a variable. -/
def Point.Placed (p : Point) : Prop :=
  match p.node with
  | .expr e => ∃ kind scopes, Settled kind scopes p.sites ∧
      (kind = p.setting.cls ∨ ∃ id name, e = .variable id name) ∧
      (p.scopes = scopes ∨ ∃ name : Token, name.IsPlain ∧ p.scopes = declareIn name.lexeme scopes)
  | .stmt _ => Settled p.setting.cls p.scopes p.sites
  | .stmts _ => Settled p.setting.cls p.scopes p.sites
  | .decl d => Encloses d p.setting.cls p.scopes p.sites

theorem ordinary_params {params : List Token} (hparams : ∀ p ∈ params, p.IsPlain)
    {scope : Scope} (hscope : Ordinary scope) (scopes : List Scope) :
    ∃ inner, Ordinary inner ∧
      params.foldl (fun scopes p => completeIn p.lexeme scopes) (scope :: scopes) =
        inner :: scopes := by
  induction params generalizing scope with
  | nil => exact ⟨scope, hscope, rfl⟩
  | cons p params ih =>
      exact ih (fun q hq => hparams q (by simp [hq])) (hscope.insert (hparams p (by simp)))

theorem Point.placed_part {p q : Point} (h : p.Placed) (hwf : p.node.WellFormed)
    (hq : q ∈ p.parts) : q.Placed := by
  obtain ⟨node, setting, scopes, sites⟩ := p
  have hexpr (e : Expr) (h : Settled setting.cls scopes sites) :
      Placed ⟨.expr e, setting, scopes, sites⟩ := ⟨setting.cls, scopes, h, .inl rfl, .inl rfl⟩
  cases node with
  | expr e =>
      obtain ⟨e', he', rfl⟩ := List.mem_map.mp hq
      obtain ⟨kind, outer, hsettled, hkind, hscopes⟩ := h
      refine ⟨kind, outer, hsettled, .inl (hkind.resolve_right ?_), hscopes⟩
      rintro ⟨id, name, rfl⟩
      simp [Expr.parts] at he'
  | stmts ss =>
      cases ss with
      | nil => simp [parts] at hq
      | cons s ss =>
          simp only [parts, List.mem_cons, List.not_mem_nil, or_false] at hq
          rcases hq with rfl | rfl
          · exact h
          · show Settled setting.cls (s.resolve setting (.within scopes)).scopes sites
            rw [s.resolve_scopes _ _ hwf.1]
            exact Settled.after h hwf.1
  | decl d =>
      obtain ⟨name, params, body⟩ := d
      obtain rfl : q = _ := by simpa only [parts, List.mem_singleton] using hq
      obtain ⟨inner, hinner, heq⟩ := ordinary_params hwf.1 .empty scopes
      show Settled setting.cls (params.foldl ScopeWalk.declareComplete _).scopes _
      rw [ScopeWalk.foldl_declareComplete_scopes, ScopeWalk.openScope_scopes,
        ScopeWalk.within_scopes, heq]
      exact Encloses.settled h hinner
  | stmt s =>
      have hsettled : Settled setting.cls scopes sites := h
      cases s with
      | expression | print =>
          obtain rfl : q = _ := by simpa [parts] using hq
          exact hexpr _ hsettled
      | var name initializer =>
          obtain ⟨e, he, rfl⟩ := List.mem_map.mp hq
          exact ⟨setting.cls, scopes, hsettled, .inl rfl, .inr ⟨name, hwf.1, by simp⟩⟩
      | ret keyword value =>
          obtain ⟨e, he, rfl⟩ := List.mem_map.mp hq
          exact hexpr _ hsettled
      | block body =>
          obtain rfl : q = _ := by simpa only [parts, List.mem_singleton] using hq
          exact .block body .empty hsettled
      | ifThen condition body | loop condition body =>
          simp only [parts, List.mem_cons, List.not_mem_nil, or_false] at hq
          rcases hq with rfl | rfl
          · exact hexpr _ hsettled
          · exact hsettled
      | ifElse condition thenBranch elseBranch =>
          simp only [parts, List.mem_cons, List.not_mem_nil, or_false] at hq
          rcases hq with rfl | rfl | rfl
          · exact hexpr _ hsettled
          · exact hsettled
          · exact hsettled
      | function decl =>
          obtain rfl : q = _ := by simpa only [parts, List.mem_singleton] using hq
          refine .function ?_
          rw [ScopeWalk.declareComplete_scopes]
          exact hsettled.completeIn hwf.1
      | classDecl name superclass methods =>
          have hclass := hsettled.completeIn hwf.1
          cases superclass with
          | none =>
              obtain ⟨d, hd, rfl⟩ := List.mem_map.mp hq
              show Encloses d _ (ScopeWalk.define _ _).scopes _
              simp only [ScopeWalk.define_scopes, ScopeWalk.openScope_scopes,
                ScopeWalk.declareComplete_scopes, ScopeWalk.within_scopes]
              exact .method hclass
          | some superclass =>
              rcases List.mem_cons.mp hq with rfl | hq
              · refine ⟨setting.cls, _, hclass, .inr (hwf.2.1 superclass rfl), .inl ?_⟩
                rw [ScopeWalk.declareComplete_scopes, ScopeWalk.within_scopes]
              · obtain ⟨d, hd, rfl⟩ := List.mem_map.mp hq
                show Encloses d _ (ScopeWalk.define _ _).scopes _
                simp only [ScopeWalk.define_scopes, ScopeWalk.openScope_scopes,
                  ScopeWalk.declareComplete_scopes, ScopeWalk.within_scopes]
                exact .derived name methods hclass

/-- Where every point of a well-formed program stands. -/
theorem Visits.placed {program : List Stmt} {p : Point} (h : Visits program p)
    (haccepted : (Point.root program).Accepted) :
    p.Accepted ∧ p.Placed := by
  induction h with
  | program => exact ⟨haccepted, .global⟩
  | part _ hq ih => exact ⟨Point.accepted_part ih.1 hq, Point.placed_part ih.2 ih.1.wellFormed hq⟩

/-! ### Reading a name -/

/-- The reference whose value an expression is. -/
def Expr.read : Expr → Option (ExprId × Token)
  | .variable id name => some (id, name)
  | .this id keyword => some (id, keyword)
  | .super id keyword _ => some (id, keyword)
  | _ => none

theorem Expr.reference_of_read {e : Expr} {id : ExprId} {name : Token}
    (h : e.read = some (id, name)) : e.reference = some (id, name) := by
  cases e <;> first | exact h | cases h

theorem findIdx?_declareIn {name other : String} (hne : other ≠ name) (scopes : List Scope) :
    (declareIn name scopes).findIdx? (·.contains other) =
      scopes.findIdx? (·.contains other) := by
  cases scopes with
  | nil => rfl
  | cons scope outer => simp [declareIn, List.findIdx?_cons, Bindings.contains, get?_declaring hne]

/-- Reading a variable in its own initializer is an error. -/
theorem Point.complete_of_checked {e : Expr} {setting : Setting} {scope : Scope}
    {outer : List Scope} {sites : List Site}
    (haccepted : Accepted ⟨.expr e, setting, scope :: outer, sites⟩) {id : ExprId}
    {name declared : Token} (hread : e.read = some (id, name)) (hplain : declared.IsPlain)
    (hname : name.lexeme = declared.lexeme) {b : Bool} (hget : scope.get? name.lexeme = some b) :
    b = true := by
  obtain ⟨hwf, herrors⟩ := haccepted
  cases e with
  | «variable» =>
      obtain ⟨rfl, rfl⟩ : _ = id ∧ _ = name := by simpa [Expr.read] using hread
      cases b with
      | true => rfl
      | false => simp [Expr.resolve, ScopeWalk.checkComplete, ScopeWalk.within, hget,
          ScopeWalk.error] at herrors
  | this =>
      obtain ⟨rfl, rfl⟩ : _ = id ∧ _ = name := by simpa [Expr.read] using hread
      exact absurd (hname.symm.trans hwf) hplain.1
  | super =>
      obtain ⟨rfl, rfl⟩ : _ = id ∧ _ = name := by simpa [Expr.read] using hread
      exact absurd (hname.symm.trans hwf) hplain.2
  | _ => cases hread

/-- A name is complete in the scope in which reading it finds it. -/
theorem Point.complete_of_read {e : Expr} {setting : Setting} {scopes : List Scope}
    {sites : List Site} (haccepted : Accepted ⟨.expr e, setting, scopes, sites⟩)
    (hplaced : Placed ⟨.expr e, setting, scopes, sites⟩) {id : ExprId} {name : Token}
    (hread : e.read = some (id, name)) {d : Nat}
    (hfound : scopes.findIdx? (·.contains name.lexeme) = some d) :
    ∃ scope, scopes[d]? = some scope ∧ scope.get? name.lexeme = some true := by
  obtain ⟨hd, hcontains, -⟩ := List.findIdx?_eq_some_iff_getElem.mp hfound
  obtain ⟨b, hget⟩ := Option.isSome_iff_exists.mp hcontains
  suffices b = true from ⟨scopes[d], List.getElem?_eq_getElem hd, by rw [hget, this]⟩
  obtain ⟨kind, outer, hsettled, -, hscopes⟩ := hplaced
  rcases hscopes with hscopes | ⟨declared, hplain, hscopes⟩
  · obtain rfl : scopes = outer := hscopes
    exact hsettled.complete (List.getElem_mem hd) hget
  · cases outer with
    | nil =>
        obtain rfl : scopes = [] := hscopes
        simp at hd
    | cons scope outer =>
        obtain rfl : scopes = declaring declared.lexeme scope :: outer := hscopes
        cases d with
        | succ d =>
            exact hsettled.complete (List.mem_cons_of_mem _ (List.getElem_mem _)) hget
        | zero =>
            by_cases hname : name.lexeme = declared.lexeme
            · exact complete_of_checked haccepted hread hplain hname hget
            · rw [List.getElem_cons_zero, get?_declaring hname] at hget
              exact hsettled.complete (List.mem_cons_self ..) hget

end ScriptLang
