import ScriptLang.Proofs.Scoping.Walk

/-! The points of a program that checking its scopes comes to, each with the scopes that are open
there. What is found at a point is what is found at its parts, and the hop count of the reference
that stands there, if one does. -/

namespace ScriptLang

/-- What a scope is opened for: a block, the parameters and body of a function, the instance a
method is called on, or the superclass of a class with these methods. -/
inductive Site where
  | block (body : List Stmt)
  | body (decl : FunctionDecl)
  | this (method : FunctionDecl)
  | super (name : Token) (methods : List FunctionDecl)

/-- Whether a scope is opened for the instance of a method. -/
def Site.isThis : Site → Bool
  | .this _ => true
  | _ => false

/-- A part of a program. -/
inductive Node where
  | expr (e : Expr)
  | stmt (s : Stmt)
  | stmts (ss : List Stmt)
  | decl (d : FunctionDecl)

namespace Node

def resolve (setting : Setting) : Node → ScopeWalk → ScopeWalk
  | expr e => e.resolve setting
  | stmt s => s.resolve setting
  | stmts ss => Stmt.resolveEach setting ss
  | decl d => d.resolve setting

def ids : Node → List ExprId
  | expr e => e.ids
  | stmt s => s.ids
  | stmts ss => Stmt.idsEach ss
  | decl d => d.ids

def WellFormed : Node → Prop
  | expr e => e.WellFormed
  | stmt s => s.WellFormed
  | stmts ss => Stmt.WellFormedEach ss
  | decl d => d.WellFormed

end Node

/-- A part of a program, what it stands in, the scopes that are open there, innermost first, and
what each of them is opened for. -/
structure Point where
  node : Node
  setting : Setting
  scopes : List Scope
  sites : List Site

/-- The expressions directly inside an expression, in the order in which they are visited. -/
def Expr.parts : Expr → List Expr
  | .literal _ => []
  | .grouping inner => [inner]
  | .unary _ right => [right]
  | .binary left _ right => [left, right]
  | .logical left _ right => [left, right]
  | .variable _ _ => []
  | .assign _ _ value => [value]
  | .call callee _ arguments => callee :: arguments
  | .get object _ => [object]
  | .set object _ value => [value, object]
  | .this _ _ => []
  | .super _ _ _ => []

/-- The reference that an expression is. -/
def Expr.reference : Expr → Option (ExprId × Token)
  | .variable id name => some (id, name)
  | .assign id name _ => some (id, name)
  | .this id keyword => some (id, keyword)
  | .super id keyword _ => some (id, keyword)
  | _ => none

namespace Point

/-- A method of a class whose scope for `this` is opened in the scopes of `w`. -/
def method (cls : ClassKind) (w : ScopeWalk) (sites : List Site) (d : FunctionDecl) : Point where
  node := .decl d
  setting := ⟨.ofMethod d, cls⟩
  scopes := (w.openScope.define "this").scopes
  sites := .this d :: sites

/-- The points directly inside a point, in the order in which they are visited. -/
def parts (p : Point) : List Point :=
  match p.node with
  | .expr e => e.parts.map fun e => { p with node := .expr e }
  | .stmt (.expression e) => [{ p with node := .expr e }]
  | .stmt (.print e) => [{ p with node := .expr e }]
  | .stmt (.var name initializer) => initializer.toList.map fun e =>
      { p with node := .expr e, scopes := ((ScopeWalk.within p.scopes).declare name).scopes }
  | .stmt (.block body) =>
      [{ p with
        node := .stmts body
        scopes := (ScopeWalk.within p.scopes).openScope.scopes
        sites := .block body :: p.sites }]
  | .stmt (.ifThen condition thenBranch) =>
      [{ p with node := .expr condition }, { p with node := .stmt thenBranch }]
  | .stmt (.ifElse condition thenBranch elseBranch) =>
      [{ p with node := .expr condition }, { p with node := .stmt thenBranch },
        { p with node := .stmt elseBranch }]
  | .stmt (.loop condition body) =>
      [{ p with node := .expr condition }, { p with node := .stmt body }]
  | .stmt (.function decl) =>
      [{ p with
        node := .decl decl
        setting := { p.setting with function := .function }
        scopes := ((ScopeWalk.within p.scopes).declareComplete decl.name).scopes }]
  | .stmt (.ret _ value) => value.toList.map fun e => { p with node := .expr e }
  | .stmt (.classDecl name none methods) =>
      methods.map (method .base ((ScopeWalk.within p.scopes).declareComplete name) p.sites)
  | .stmt (.classDecl name (some superclass) methods) =>
      let w := (ScopeWalk.within p.scopes).declareComplete name
      { p with
        node := .expr superclass
        setting := { p.setting with cls := .derived }
        scopes := w.scopes } ::
        methods.map (method .derived (w.openScope.define "super") (.super name methods :: p.sites))
  | .stmts [] => []
  | .stmts (s :: ss) =>
      [{ p with node := .stmt s },
        { p with
          node := .stmts ss
          scopes := (s.resolve p.setting (.within p.scopes)).scopes }]
  | .decl (.mk name params body) =>
      [{ p with
        node := .stmts body
        scopes := (params.foldl ScopeWalk.declareComplete
          (ScopeWalk.within p.scopes).openScope).scopes
        sites := .body (.mk name params body) :: p.sites }]

/-- Where checking the scopes of a program starts. -/
abbrev root (program : Program) : Point := ⟨.stmts program, ⟨.none, .none⟩, [], []⟩

/-- What is found at a point. -/
def found (p : Point) : ScopeWalk := p.node.resolve p.setting (.within p.scopes)

/-- The hop count of the reference that stands at a point. -/
def own (p : Point) : List (ExprId × Nat) :=
  match p.node with
  | .expr e => match e.reference with
    | some (id, name) => (p.scopes.findIdx? (·.contains name.lexeme)).toList.map (id, ·)
    | none => []
  | _ => []

/-- The id of the reference that stands at a point. -/
def ownIds (p : Point) : List ExprId :=
  match p.node with
  | .expr e => (e.reference.map (·.1)).toList
  | _ => []

/-- A point at which no error is found. -/
structure Accepted (p : Point) : Prop where
  wellFormed : p.node.WellFormed
  errors : p.found.errors = []

end Point

/-! ### What is found at a point is found at its parts -/

namespace ScopeWalk

section Hops

variable (w : ScopeWalk)

@[simp]
theorem within_hops (scopes : List Scope) : (within scopes).hops = [] := rfl

@[simp]
theorem openScope_within (scopes : List Scope) :
    (within scopes).openScope = within (.empty :: scopes) := rfl

@[simp]
theorem openScope_hops : w.openScope.hops = w.hops := rfl

@[simp]
theorem openScope_errors : w.openScope.errors = w.errors := rfl

@[simp]
theorem closeScope_hops : w.closeScope.hops = w.hops := rfl

@[simp]
theorem closeScope_errors : w.closeScope.errors = w.errors := rfl

@[simp]
theorem declare_hops (name : Token) : (w.declare name).hops = w.hops := by
  unfold declare
  split
  · rfl
  · split <;> rfl

@[simp]
theorem define_hops (name : String) : (w.define name).hops = w.hops := by
  unfold define
  split <;> rfl

@[simp]
theorem define_errors (name : String) : (w.define name).errors = w.errors := by
  unfold define
  split <;> rfl

@[simp]
theorem declareComplete_hops (name : Token) : (w.declareComplete name).hops = w.hops := by
  simp [declareComplete]

@[simp]
theorem checkComplete_hops (name : Token) : (w.checkComplete name).hops = w.hops := by
  unfold checkComplete
  split
  · rfl
  · split <;> rfl

@[simp]
theorem checkReturn_hops (setting : Setting) (keyword : Token) (hasValue : Bool) :
    (w.checkReturn setting keyword hasValue).hops = w.hops := by
  unfold checkReturn
  split
  · rfl
  · split <;> rfl
  · rfl

@[simp]
theorem foldl_declareComplete_hops (params : List Token) :
    (params.foldl declareComplete w).hops = w.hops := by
  induction params generalizing w with
  | nil => rfl
  | cons p params ih => simp [ih]

theorem refer_hops (id : ExprId) (name : Token) : (w.refer id name).hops =
    (w.scopes.findIdx? (·.contains name.lexeme)).toList.map (id, ·) ++ w.hops := by
  unfold refer
  split <;> simp [*]

@[simp]
theorem refer_errors (id : ExprId) (name : Token) : (w.refer id name).errors = w.errors := by
  unfold refer
  split <;> rfl

end Hops

end ScopeWalk

section Within

variable (setting : Setting) (w : ScopeWalk)

theorem Expr.resolve_eq (e : Expr) :
    e.resolve setting w = (e.resolve setting (.within w.scopes)).onto w.hops w.errors := by
  rw [← e.resolve_onto, ← w.eq_within_onto]

theorem Stmt.resolve_eq (s : Stmt) :
    s.resolve setting w = (s.resolve setting (.within w.scopes)).onto w.hops w.errors := by
  rw [← s.resolve_onto, ← w.eq_within_onto]

theorem Stmt.resolveEach_eq (ss : List Stmt) : Stmt.resolveEach setting ss w =
    (Stmt.resolveEach setting ss (.within w.scopes)).onto w.hops w.errors := by
  rw [← Stmt.resolveEach_onto, ← w.eq_within_onto]

theorem FunctionDecl.resolve_eq (d : FunctionDecl) :
    d.resolve setting w = (d.resolve setting (.within w.scopes)).onto w.hops w.errors := by
  rw [← d.resolve_onto, ← w.eq_within_onto]

/-- Arguments are visited in the same scopes. -/
theorem Expr.resolveEach_eq (es : List Expr) : Expr.resolveEach setting es w =
    ⟨w.scopes, es.reverse.flatMap (fun e => (e.resolve setting (.within w.scopes)).hops) ++ w.hops,
      es.reverse.flatMap (fun e => (e.resolve setting (.within w.scopes)).errors) ++ w.errors⟩ := by
  induction es generalizing w with
  | nil => rfl
  | cons e es ih =>
      rw [Expr.resolveEach, ih, e.resolve_eq]
      simp

/-- The superclass is visited once its name is compared with that of the class. -/
theorem Expr.resolveSuperclass_hops (name : Token) (superclass : Expr) :
    (superclass.resolveSuperclass setting name w).hops =
      (superclass.resolve { setting with cls := .derived } (.within w.scopes)).hops ++ w.hops := by
  simp only [Expr.resolveSuperclass, ScopeWalk.define_hops, ScopeWalk.openScope_hops]
  rw [superclass.resolve_eq]
  split
  · split <;> rfl
  · rfl

theorem Expr.resolveSuperclass_errors {name parent : Token} {id : ExprId}
    (h : ((Expr.variable id parent).resolveSuperclass setting name w).errors = []) :
    w.errors = [] ∧ parent.lexeme ≠ name.lexeme ∧
      ((Expr.variable id parent).resolve { setting with cls := .derived }
        (.within w.scopes)).errors = [] := by
  simp only [Expr.resolveSuperclass, ScopeWalk.define_errors, ScopeWalk.openScope_errors] at h
  rw [Expr.resolve_eq] at h
  obtain ⟨hvisit, hcheck⟩ := List.append_eq_nil_iff.mp h
  by_cases hname : parent.lexeme = name.lexeme
  · simp [hname, ScopeWalk.error] at hcheck
  · simp only [hname, if_false] at hvisit hcheck
    exact ⟨hcheck, hname, hvisit⟩

/-- Methods are visited in the same scopes. -/
theorem FunctionDecl.resolveMethods_eq (ds : List FunctionDecl) :
    FunctionDecl.resolveMethods setting ds w =
    ⟨w.scopes,
      ds.reverse.flatMap (fun d =>
        (d.resolve ⟨.ofMethod d, setting.cls⟩ (.within w.scopes)).hops) ++ w.hops,
      ds.reverse.flatMap (fun d =>
        (d.resolve ⟨.ofMethod d, setting.cls⟩ (.within w.scopes)).errors) ++ w.errors⟩ := by
  induction ds generalizing w with
  | nil => rfl
  | cons d ds ih =>
      rw [FunctionDecl.resolveMethods, ih, d.resolve_eq]
      simp [d.resolve_scopes]

end Within

namespace Point

section Found

variable (setting : Setting) (scopes : List Scope) (sites : List Site)

@[simp]
theorem found_expr (e : Expr) :
    found ⟨.expr e, setting, scopes, sites⟩ = e.resolve setting (.within scopes) := rfl

@[simp]
theorem found_stmt (s : Stmt) :
    found ⟨.stmt s, setting, scopes, sites⟩ = s.resolve setting (.within scopes) := rfl

@[simp]
theorem found_stmts (ss : List Stmt) :
    found ⟨.stmts ss, setting, scopes, sites⟩ = Stmt.resolveEach setting ss (.within scopes) := rfl

@[simp]
theorem found_decl (d : FunctionDecl) :
    found ⟨.decl d, setting, scopes, sites⟩ = d.resolve setting (.within scopes) := rfl

end Found

theorem flatMap_reverse_map {α β : Type} (xs : List α) (f : α → Point) (g : Point → List β) :
    (xs.map f).reverse.flatMap g = xs.reverse.flatMap fun x => g (f x) := by
  rw [← List.map_reverse, List.flatMap_map]

/-- The hop counts found in an expression. -/
theorem found_hops_expr {e : Expr} {setting : Setting} {scopes : List Scope} {sites : List Site}
    (h : Accepted ⟨.expr e, setting, scopes, sites⟩) :
    (e.resolve setting (.within scopes)).hops = own ⟨.expr e, setting, scopes, sites⟩ ++
      e.parts.reverse.flatMap fun e => (e.resolve setting (.within scopes)).hops := by
  obtain ⟨-, herrors⟩ := h
  rw [found_expr] at herrors
  cases e with
  | literal | grouping | unary | get => simp [own, Expr.resolve, Expr.parts, Expr.reference]
  | «variable» | assign =>
      simp [own, Expr.resolve, Expr.parts, Expr.reference, ScopeWalk.refer_hops]
  | binary left operator right | logical left operator right | set right name left =>
      rw [Expr.resolve, right.resolve_eq]
      simp [own, Expr.parts, Expr.reference]
  | call callee paren arguments =>
      rw [Expr.resolve, Expr.resolveEach_eq]
      simp [own, Expr.parts, Expr.reference]
  | this | super =>
      rw [Expr.resolve] at herrors ⊢
      split at herrors <;> first
        | cases herrors
        | simp [own, Expr.parts, Expr.reference, ScopeWalk.refer_hops]

/-- The hop counts found at a point. -/
theorem found_hops {p : Point} (h : p.Accepted) :
    p.found.hops = p.own ++ p.parts.reverse.flatMap (·.found.hops) := by
  obtain ⟨node, setting, scopes, sites⟩ := p
  cases node with
  | expr e =>
      rw [parts, flatMap_reverse_map]
      exact found_hops_expr h
  | stmts ss =>
      cases ss with
      | nil => simp [own, parts, Stmt.resolveEach]
      | cons s ss =>
          rw [found_stmts, Stmt.resolveEach, Stmt.resolveEach_eq]
          simp [own, parts]
  | decl d =>
      obtain ⟨name, params, body⟩ := d
      simp only [found_decl, FunctionDecl.resolve, ScopeWalk.closeScope_hops]
      rw [Stmt.resolveEach_eq]
      simp [own, parts]
  | stmt s =>
      have hwf : s.WellFormed := h.wellFormed
      rw [found_stmt]
      cases s with
      | expression | print | block => simp [own, parts, Stmt.resolve]
      | var name initializer =>
          cases initializer with
          | none => simp [own, parts, Stmt.resolve, Expr.resolve?]
          | some e =>
              rw [Stmt.resolve, Expr.resolve?, e.resolve_eq]
              simp [own, parts]
      | ret keyword value =>
          cases value with
          | none => simp [own, parts, Stmt.resolve, Expr.resolve?]
          | some e =>
              rw [Stmt.resolve, Expr.resolve?, e.resolve_eq]
              simp [own, parts]
      | ifThen condition body | loop condition body =>
          rw [Stmt.resolve, body.resolve_eq]
          simp [own, parts]
      | ifElse condition thenBranch elseBranch =>
          rw [Stmt.resolve, elseBranch.resolve_eq, thenBranch.resolve_eq]
          simp [own, parts, thenBranch.resolve_scopes _ _ hwf.2.1.1,
            Stmt.after_of_declares hwf.2.1.2]
      | function decl =>
          rw [Stmt.resolve, decl.resolve_eq]
          simp [own, parts]
      | classDecl name superclass methods =>
          cases superclass with
          | none =>
              simp only [Stmt.resolve, FunctionDecl.resolveMethods_eq _ _ methods]
              simp [own, parts, method, flatMap_reverse_map]
          | some superclass =>
              simp only [Stmt.resolve, FunctionDecl.resolveMethods_eq _ _ methods]
              simp [own, parts, method, flatMap_reverse_map, Expr.resolveSuperclass_hops]

theorem accepted_expr {e e' : Expr} {setting : Setting} {scopes : List Scope} {sites : List Site}
    (h : Accepted ⟨.expr e, setting, scopes, sites⟩) (he : e' ∈ e.parts) :
    Accepted ⟨.expr e', setting, scopes, sites⟩ := by
  obtain ⟨hwf, herrors⟩ := h
  rw [found_expr] at herrors
  simp only [Node.WellFormed] at hwf
  suffices e'.WellFormed ∧ (e'.resolve setting (.within scopes)).errors = [] from ⟨this.1, this.2⟩
  cases e with
  | literal | «variable» | this | super => simp [Expr.parts] at he
  | grouping | unary | get =>
      obtain rfl : e' = _ := by simpa [Expr.parts] using he
      exact ⟨hwf, herrors⟩
  | assign =>
      obtain rfl : e' = _ := by simpa [Expr.parts] using he
      exact ⟨hwf.2, by simpa [Expr.resolve] using herrors⟩
  | binary left operator right | logical left operator right =>
      rw [Expr.resolve, right.resolve_eq] at herrors
      simp only [Expr.resolve_scopes, ScopeWalk.within_scopes, ScopeWalk.onto_errors,
        List.append_eq_nil_iff] at herrors
      simp only [Expr.parts, List.mem_cons, List.not_mem_nil, or_false] at he
      rcases he with rfl | rfl
      · exact ⟨hwf.1, herrors.2⟩
      · exact ⟨hwf.2, herrors.1⟩
  | set object name value =>
      rw [Expr.resolve, object.resolve_eq] at herrors
      simp only [Expr.resolve_scopes, ScopeWalk.within_scopes, ScopeWalk.onto_errors,
        List.append_eq_nil_iff] at herrors
      simp only [Expr.parts, List.mem_cons, List.not_mem_nil, or_false] at he
      rcases he with rfl | rfl
      · exact ⟨hwf.2, herrors.2⟩
      · exact ⟨hwf.1, herrors.1⟩
  | call callee paren arguments =>
      rw [Expr.resolve, Expr.resolveEach_eq] at herrors
      simp only [Expr.resolve_scopes, ScopeWalk.within_scopes, List.append_eq_nil_iff,
        List.flatMap_eq_nil_iff, List.mem_reverse] at herrors
      rcases List.mem_cons.mp he with rfl | he
      · exact ⟨hwf.1, herrors.2⟩
      · exact ⟨Expr.wellFormedEach_iff.mp hwf.2 e' he, herrors.1 e' he⟩

/-- A superclass is a variable that does not have the name of its class. -/
theorem accepted_superclass {name : Token} {superclass : Expr} {methods : List FunctionDecl}
    {setting : Setting} {scopes : List Scope} {sites : List Site}
    (h : Accepted ⟨.stmt (.classDecl name (some superclass) methods), setting, scopes, sites⟩) :
    ∃ id parent, superclass = .variable id parent ∧ parent.lexeme ≠ name.lexeme := by
  obtain ⟨hwf, herrors⟩ := h
  obtain ⟨id, parent, rfl⟩ := hwf.2.1 superclass rfl
  simp only [found_stmt, Stmt.resolve, FunctionDecl.resolveMethods_eq _ _ methods,
    ScopeWalk.closeScope_errors, List.append_eq_nil_iff, ScopeWalk.define_errors,
    ScopeWalk.openScope_errors] at herrors
  exact ⟨id, parent, rfl, (Expr.resolveSuperclass_errors _ _ herrors.2).2.1⟩

/-- `this` stands in a class. -/
theorem accepted_this {id : ExprId} {keyword : Token} {setting : Setting} {scopes : List Scope}
    {sites : List Site} (h : Accepted ⟨.expr (.this id keyword), setting, scopes, sites⟩) :
    setting.cls ≠ .none := by
  intro hcls
  have herrors := h.errors
  simp [Expr.resolve, hcls, ScopeWalk.error] at herrors

/-- `super` stands in a class with a superclass. -/
theorem accepted_super {id : ExprId} {keyword method : Token} {setting : Setting}
    {scopes : List Scope} {sites : List Site}
    (h : Accepted ⟨.expr (.super id keyword method), setting, scopes, sites⟩) :
    setting.cls = .derived := by
  have herrors := h.errors
  cases hcls : setting.cls with
  | derived => rfl
  | none | base => simp [Expr.resolve, hcls, ScopeWalk.error] at herrors

/-- No error is found at the parts of a point at which none is found. -/
theorem accepted_part {p q : Point} (h : p.Accepted) (hq : q ∈ p.parts) : q.Accepted := by
  obtain ⟨node, setting, scopes, sites⟩ := p
  cases node with
  | expr e =>
      obtain ⟨e', he', rfl⟩ := List.mem_map.mp hq
      exact accepted_expr h he'
  | stmts ss =>
      cases ss with
      | nil => simp [parts] at hq
      | cons s ss =>
          obtain ⟨hwf, herrors⟩ := h
          rw [found_stmts, Stmt.resolveEach, Stmt.resolveEach_eq] at herrors
          simp only [ScopeWalk.onto_errors, List.append_eq_nil_iff] at herrors
          simp only [parts, List.mem_cons, List.not_mem_nil, or_false] at hq
          rcases hq with rfl | rfl
          · exact ⟨hwf.1, herrors.2⟩
          · exact ⟨hwf.2, herrors.1⟩
  | decl d =>
      obtain ⟨name, params, body⟩ := d
      obtain ⟨hwf, herrors⟩ := h
      simp only [found_decl, FunctionDecl.resolve, ScopeWalk.closeScope_errors] at herrors
      rw [Stmt.resolveEach_eq] at herrors
      simp only [ScopeWalk.onto_errors, List.append_eq_nil_iff] at herrors
      obtain rfl : q = _ := by simpa [parts] using hq
      exact ⟨hwf.2, herrors.1⟩
  | stmt s =>
      obtain ⟨hwf, herrors⟩ := h
      rw [found_stmt] at herrors
      simp only [Node.WellFormed] at hwf
      cases s with
      | expression | print | block =>
          obtain rfl : q = _ := by simpa [parts] using hq
          exact ⟨hwf, herrors⟩
      | var name initializer =>
          cases initializer with
          | none => simp [parts] at hq
          | some e =>
              obtain rfl : q = _ := by simpa [parts] using hq
              rw [Stmt.resolve, Expr.resolve?, e.resolve_eq] at herrors
              simp only [ScopeWalk.define_errors, ScopeWalk.onto_errors, ScopeWalk.declare_scopes,
                ScopeWalk.within_scopes, List.append_eq_nil_iff] at herrors
              exact ⟨hwf.2, herrors.1⟩
      | ret keyword value =>
          cases value with
          | none => simp [parts] at hq
          | some e =>
              obtain rfl : q = _ := by simpa [parts] using hq
              rw [Stmt.resolve, Expr.resolve?, e.resolve_eq] at herrors
              simp only [ScopeWalk.checkReturn_scopes, ScopeWalk.within_scopes,
                ScopeWalk.onto_errors, List.append_eq_nil_iff] at herrors
              exact ⟨hwf, herrors.1⟩
      | ifThen condition body | loop condition body =>
          rw [Stmt.resolve, body.resolve_eq] at herrors
          simp only [Expr.resolve_scopes, ScopeWalk.within_scopes, ScopeWalk.onto_errors,
            List.append_eq_nil_iff] at herrors
          simp only [parts, List.mem_cons, List.not_mem_nil, or_false] at hq
          rcases hq with rfl | rfl
          · exact ⟨hwf.1, herrors.2⟩
          · exact ⟨hwf.2.1, herrors.1⟩
      | ifElse condition thenBranch elseBranch =>
          rw [Stmt.resolve, elseBranch.resolve_eq, thenBranch.resolve_eq] at herrors
          simp only [ScopeWalk.onto_scopes, thenBranch.resolve_scopes _ _ hwf.2.1.1,
            Stmt.after_of_declares hwf.2.1.2, Expr.resolve_scopes, ScopeWalk.within_scopes,
            ScopeWalk.onto_errors, List.append_eq_nil_iff] at herrors
          simp only [parts, List.mem_cons, List.not_mem_nil, or_false] at hq
          rcases hq with rfl | rfl | rfl
          · exact ⟨hwf.1, herrors.2.2⟩
          · exact ⟨hwf.2.1.1, herrors.2.1⟩
          · exact ⟨hwf.2.2.1, herrors.1⟩
      | function decl =>
          rw [Stmt.resolve, decl.resolve_eq] at herrors
          simp only [ScopeWalk.onto_errors, ScopeWalk.declareComplete_scopes,
            ScopeWalk.within_scopes, List.append_eq_nil_iff] at herrors
          obtain rfl : q = _ := by simpa [parts] using hq
          exact ⟨hwf.2, herrors.1⟩
      | classDecl name superclass methods =>
          have hmethods := FunctionDecl.wellFormedEach_iff.mp hwf.2.2
          cases superclass with
          | none =>
              obtain ⟨d, hd, rfl⟩ := List.mem_map.mp hq
              simp only [Stmt.resolve, FunctionDecl.resolveMethods_eq _ _ methods,
                ScopeWalk.closeScope_errors, List.append_eq_nil_iff, List.flatMap_eq_nil_iff,
                List.mem_reverse] at herrors
              exact ⟨hmethods d hd, herrors.1 d hd⟩
          | some superclass =>
              obtain ⟨id, parent, rfl⟩ := hwf.2.1 superclass rfl
              simp only [Stmt.resolve, FunctionDecl.resolveMethods_eq _ _ methods,
                ScopeWalk.closeScope_errors, List.append_eq_nil_iff, List.flatMap_eq_nil_iff,
                List.mem_reverse, ScopeWalk.define_errors, ScopeWalk.openScope_errors] at herrors
              have hsuper := Expr.resolveSuperclass_errors _ _ herrors.2
              rcases List.mem_cons.mp hq with rfl | hq
              · exact ⟨trivial, hsuper.2.2⟩
              · obtain ⟨d, hd, rfl⟩ := List.mem_map.mp hq
                have hd' := herrors.1 d hd
                simp only [ScopeWalk.define_scopes, ScopeWalk.openScope_scopes,
                  Expr.resolveSuperclass_scopes] at hd'
                refine ⟨hmethods d hd, ?_⟩
                simpa [method] using hd'

/-- The ids at a point. -/
theorem ids_eq (p : Point) : p.node.ids = p.ownIds ++ p.parts.flatMap (·.node.ids) := by
  obtain ⟨node, setting, scopes, sites⟩ := p
  cases node with
  | expr e =>
      cases e with
      | call callee paren arguments =>
          simp [Node.ids, Expr.ids, ownIds, Expr.reference, parts, Expr.parts, List.flatMap_map,
            Expr.idsEach_eq]
      | _ => simp [Node.ids, Expr.ids, ownIds, Expr.reference, parts, Expr.parts]
  | stmts ss => cases ss <;> simp [Node.ids, Stmt.idsEach, ownIds, parts]
  | decl d =>
      obtain ⟨name, params, body⟩ := d
      simp [Node.ids, FunctionDecl.ids, ownIds, parts]
  | stmt s =>
      cases s with
      | var name value | ret name value =>
          cases value <;> simp [Node.ids, Stmt.ids, Expr.ids?, ownIds, parts]
      | classDecl name superclass methods =>
          cases superclass <;>
            simp [Node.ids, Stmt.ids, Expr.ids?, ownIds, parts, method, List.flatMap_map,
              FunctionDecl.idsEach_eq]
      | _ => simp [Node.ids, Stmt.ids, ownIds, parts]

end Point

/-- The points of a program. -/
inductive Visits (program : List Stmt) : Point → Prop where
  | program : Visits program (.root program)
  | part {p q : Point} : Visits program p → q ∈ p.parts → Visits program q

end ScriptLang
