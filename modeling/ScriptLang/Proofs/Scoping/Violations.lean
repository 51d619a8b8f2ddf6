import ScriptLang.Proofs.Scoping.Points
import ScriptLang.Scan
import ScriptLang.Stmt.Parser

/-! The scoping rules, said of the places in a program. Every place has around it the blocks,
functions, classes and initializers that it stands in, and whether a rule is broken there can be
seen from these. Walking over the program once notes each broken rule at each place, and nothing
else. -/

namespace ScriptLang

/-! ### Places -/

/-- What a part of a program stands in. -/
inductive Enclosure where
  /-- The initializer of a variable. -/
  | initializer (name : Token)
  /-- A block, or the parameters and the body of a function, after these declarations. -/
  | scope (earlier : List Token)
  /-- A function that is no method. -/
  | function (decl : FunctionDecl)
  | method (decl : FunctionDecl)
  | cls (superclass : Option Expr)

def Enclosure.isFunction : Enclosure → Bool
  | .function _ | .method _ => true
  | _ => false

def Enclosure.isClass : Enclosure → Bool
  | .cls _ => true
  | _ => false

/-- A part of a program in which a rule can be broken. -/
inductive Part where
  | expr (e : Expr)
  | stmt (s : Stmt)
  | param (name : Token)

/-- A part of a program at its place. What is around it stands innermost first. -/
structure Occurrence where
  part : Part
  around : List Enclosure

mutual

/-- All expressions in an expression, itself among them. -/
def Expr.nodes (e : Expr) : List Expr :=
  e :: match e with
    | .literal _ => []
    | .grouping inner => inner.nodes
    | .unary _ right => right.nodes
    | .binary left _ right => left.nodes ++ right.nodes
    | .logical left _ right => left.nodes ++ right.nodes
    | .variable _ _ => []
    | .assign _ _ value => value.nodes
    | .call callee _ arguments => callee.nodes ++ Expr.nodesEach arguments
    | .get object _ => object.nodes
    | .set object _ value => object.nodes ++ value.nodes
    | .this _ _ => []
    | .super _ _ _ => []

def Expr.nodesEach : List Expr → List Expr
  | [] => []
  | e :: es => e.nodes ++ Expr.nodesEach es

end

def Expr.occurrences (around : List Enclosure) (e : Expr) : List Occurrence :=
  e.nodes.map fun node => ⟨.expr node, around⟩

def Expr.occurrences? (around : List Enclosure) : Option Expr → List Occurrence
  | none => []
  | some e => e.occurrences around

/-- The parameters of a function, each after those before it. -/
def Token.occurrences (around : List Enclosure) : List Token → List Token → List Occurrence
  | _, [] => []
  | earlier, p :: params =>
    ⟨.param p, .scope earlier :: around⟩ :: Token.occurrences around (earlier ++ [p]) params

/-- What is around a part that stands after more declarations of the same scope. -/
def Enclosure.after (names : List Token) : List Enclosure → List Enclosure
  | .scope earlier :: around => .scope (earlier ++ names) :: around
  | around => around

mutual

/-- The statement and all parts in it, where they stand. -/
def Stmt.occurrences (around : List Enclosure) (s : Stmt) : List Occurrence :=
  ⟨.stmt s, around⟩ :: match s with
    | .expression e => e.occurrences around
    | .print e => e.occurrences around
    | .var name initializer => Expr.occurrences? (.initializer name :: around) initializer
    | .block body => Stmt.occurrencesEach around [] body
    | .ifThen condition thenBranch =>
      condition.occurrences around ++ thenBranch.occurrences around
    | .ifElse condition thenBranch elseBranch =>
      condition.occurrences around ++ thenBranch.occurrences around ++
        elseBranch.occurrences (Enclosure.after thenBranch.declared around)
    | .loop condition body => condition.occurrences around ++ body.occurrences around
    | .function decl => decl.occurrences (.function decl :: around)
    | .ret _ value => Expr.occurrences? around value
    | .classDecl _ superclass methods =>
      Expr.occurrences? (.cls superclass :: around) superclass ++
        FunctionDecl.occurrencesEach (.cls superclass :: around) methods

/-- The parts of the statements of a scope, each after what is declared before it. -/
def Stmt.occurrencesEach (around : List Enclosure) : List Token → List Stmt → List Occurrence
  | _, [] => []
  | earlier, s :: ss =>
    s.occurrences (.scope earlier :: around) ++
      Stmt.occurrencesEach around (earlier ++ s.declared) ss

def FunctionDecl.occurrences (around : List Enclosure) : FunctionDecl → List Occurrence
  | .mk _ params body =>
    Token.occurrences around [] params ++ Stmt.occurrencesEach around params body

def FunctionDecl.occurrencesEach (around : List Enclosure) : List FunctionDecl → List Occurrence
  | [] => []
  | d :: ds => d.occurrences (.method d :: around) ++ FunctionDecl.occurrencesEach around ds

end

/-- All parts of a program. -/
def Stmt.occurrencesIn (program : List Stmt) : List Occurrence :=
  program.flatMap (·.occurrences [])

/-! ### Rules -/

/-- The name that a part declares in the scope it stands in. -/
def Part.declares : Part → Option Token
  | .stmt (.var name _) => some name
  | .stmt (.function decl) => some decl.name
  | .stmt (.classDecl name _ _) => some name
  | .param name => some name
  | _ => none

/-- The rules that can be broken at a place, and the token to which the error points. -/
inductive Occurrence.Breaks : Occurrence → ScopeError → Prop where
  | returnOutsideFunction {keyword value around} :
      around.find? (·.isFunction) = none →
      Breaks ⟨.stmt (.ret keyword value), around⟩ ⟨keyword, .returnOutsideFunction⟩
  | valueFromInitializer {keyword value around decl} :
      around.find? (·.isFunction) = some (.method decl) → decl.name.lexeme = initName →
      Breaks ⟨.stmt (.ret keyword (some value)), around⟩ ⟨keyword, .valueFromInitializer⟩
  | thisOutsideClass {id keyword around} :
      around.find? (·.isClass) = none →
      Breaks ⟨.expr (.this id keyword), around⟩ ⟨keyword, .thisOutsideClass⟩
  | superOutsideClass {id keyword method around} :
      around.find? (·.isClass) = none →
      Breaks ⟨.expr (.super id keyword method), around⟩ ⟨keyword, .superOutsideClass⟩
  | superWithoutSuperclass {id keyword method around} :
      around.find? (·.isClass) = some (.cls none) →
      Breaks ⟨.expr (.super id keyword method), around⟩ ⟨keyword, .superWithoutSuperclass⟩
  | inheritsFromItself {name id parent methods around} :
      parent.lexeme = name.lexeme →
      Breaks ⟨.stmt (.classDecl name (some (.variable id parent)) methods), around⟩
        ⟨parent, .inheritsFromItself⟩
  | alreadyDeclared {part name earlier around} :
      part.declares = some name → name.lexeme ∈ earlier.map Token.lexeme →
      Breaks ⟨part, .scope earlier :: around⟩ ⟨name, .alreadyDeclared⟩
  | readInOwnInitializer {id name declared earlier around} :
      name.lexeme = declared.lexeme → name.lexeme ∉ earlier.map Token.lexeme →
      Breaks ⟨.expr (.variable id name), .initializer declared :: .scope earlier :: around⟩
        ⟨name, .readInOwnInitializer⟩

/-- The error of a name that its scope has already. -/
def Enclosure.redeclared (name : Token) : List Enclosure → List ScopeError
  | .scope earlier :: _ =>
    if name.lexeme ∈ earlier.map Token.lexeme then [⟨name, .alreadyDeclared⟩] else []
  | _ => []

/-- Whether the first declaration of a name is still waiting for its initializer. -/
def Enclosure.undone (name : String) : List Enclosure → Bool
  | .initializer declared :: .scope earlier :: _ =>
    name = declared.lexeme ∧ name ∉ earlier.map Token.lexeme
  | _ => false

/-- The kinds of the innermost function and class around a place. -/
def Setting.around (around : List Enclosure) : Setting where
  function := match around.find? (·.isFunction) with
    | none => .none
    | some (.method decl) => .ofMethod decl
    | some _ => .function
  cls := match around.find? (·.isClass) with
    | none => .none
    | some (.cls none) => .base
    | some _ => .derived

namespace Setting

variable {around : List Enclosure}

theorem find?_of_function_none (h : (Setting.around around).function = .none) :
    around.find? (·.isFunction) = none := by
  simp only [Setting.around] at h
  split at h
  · assumption
  · unfold FunctionKind.ofMethod at h
    split at h <;> cases h
  · cases h

theorem find?_of_initializer (h : (Setting.around around).function = .initializer) :
    ∃ decl, around.find? (·.isFunction) = some (.method decl) ∧ decl.name.lexeme = initName := by
  simp only [Setting.around] at h
  split at h
  · cases h
  · rename_i decl hfind
    unfold FunctionKind.ofMethod at h
    split at h
    · rename_i hinit
      exact ⟨decl, hfind, by simpa [FunctionDecl.isInit] using hinit⟩
    · cases h
  · cases h

theorem find?_of_cls_none (h : (Setting.around around).cls = .none) :
    around.find? (·.isClass) = none := by
  simp only [Setting.around] at h
  split at h
  · assumption
  · cases h
  · cases h

theorem find?_of_base (h : (Setting.around around).cls = .base) :
    around.find? (·.isClass) = some (.cls none) := by
  simp only [Setting.around] at h
  split at h
  · cases h
  · assumption
  · cases h

theorem around_scope (earlier : List Token) (around : List Enclosure) :
    Setting.around (.scope earlier :: around) = Setting.around around := rfl

theorem around_after (names : List Token) (around : List Enclosure) :
    Setting.around (Enclosure.after names around) = Setting.around around := by
  unfold Enclosure.after
  split <;> rfl

end Setting

/-- The errors at an expression itself. -/
def Expr.violations (around : List Enclosure) : Expr → List ScopeError
  | .variable _ name =>
    if Enclosure.undone name.lexeme around then [⟨name, .readInOwnInitializer⟩] else []
  | .this _ keyword =>
    match (Setting.around around).cls with
    | .none => [⟨keyword, .thisOutsideClass⟩]
    | _ => []
  | .super _ keyword _ =>
    match (Setting.around around).cls with
    | .none => [⟨keyword, .superOutsideClass⟩]
    | .base => [⟨keyword, .superWithoutSuperclass⟩]
    | .derived => []
  | _ => []

/-- The error of a class that extends itself. -/
def Expr.inheritance (name : Token) : Option Expr → List ScopeError
  | some (.variable _ parent) =>
    if parent.lexeme = name.lexeme then [⟨parent, .inheritsFromItself⟩] else []
  | _ => []

/-- The errors at a statement itself. -/
def Stmt.violations (around : List Enclosure) : Stmt → List ScopeError
  | .var name _ => Enclosure.redeclared name around
  | .function decl => Enclosure.redeclared decl.name around
  | .classDecl name superclass _ =>
    Enclosure.redeclared name around ++ Expr.inheritance name superclass
  | .ret keyword value =>
    match (Setting.around around).function with
    | .none => [⟨keyword, .returnOutsideFunction⟩]
    | .initializer => if value.isSome then [⟨keyword, .valueFromInitializer⟩] else []
    | _ => []
  | _ => []

namespace Occurrence

/-- The errors at a place. -/
def violations : Occurrence → List ScopeError
  | ⟨.expr e, around⟩ => e.violations around
  | ⟨.stmt s, around⟩ => s.violations around
  | ⟨.param name, around⟩ => Enclosure.redeclared name around

theorem mem_redeclared {name : Token} {around : List Enclosure} {e : ScopeError} :
    e ∈ Enclosure.redeclared name around ↔ ∃ earlier outer, around = .scope earlier :: outer ∧
      name.lexeme ∈ earlier.map Token.lexeme ∧ e = ⟨name, .alreadyDeclared⟩ := by
  unfold Enclosure.redeclared
  split
  · split <;> simp_all
  · simp_all

theorem Breaks.mem {o : Occurrence} {e : ScopeError} (h : o.Breaks e) : e ∈ o.violations := by
  cases h with
  | returnOutsideFunction h => simp [violations, Stmt.violations, Setting.around, h]
  | valueFromInitializer h hinit =>
      simp [violations, Stmt.violations, Setting.around, h, FunctionKind.ofMethod,
        FunctionDecl.isInit, hinit]
  | thisOutsideClass h => simp [violations, Expr.violations, Setting.around, h]
  | superOutsideClass h => simp [violations, Expr.violations, Setting.around, h]
  | superWithoutSuperclass h => simp [violations, Expr.violations, Setting.around, h]
  | inheritsFromItself h => simp [violations, Stmt.violations, Expr.inheritance, h]
  | @alreadyDeclared part name earlier around hpart hearlier =>
      have hmem : (⟨name, .alreadyDeclared⟩ : ScopeError) ∈
          Enclosure.redeclared name (.scope earlier :: around) :=
        mem_redeclared.mpr ⟨earlier, around, rfl, hearlier, rfl⟩
      unfold Part.declares at hpart
      split at hpart <;> cases hpart
      · exact hmem
      · exact hmem
      · exact List.mem_append_left _ hmem
      · exact hmem
  | readInOwnInitializer h hearlier =>
      simp_all [violations, Expr.violations, Enclosure.undone]

theorem breaks_of_mem {o : Occurrence} {e : ScopeError} (h : e ∈ o.violations) : o.Breaks e := by
  obtain ⟨part, around⟩ := o
  have hdeclared {name : Token} (hpart : part.declares = some name)
      (h : e ∈ Enclosure.redeclared name around) : Breaks ⟨part, around⟩ e := by
    obtain ⟨earlier, outer, rfl, hearlier, rfl⟩ := mem_redeclared.mp h
    exact .alreadyDeclared hpart hearlier
  cases part with
  | param name => exact hdeclared rfl h
  | stmt s =>
      cases s with
      | var name initializer => exact hdeclared rfl h
      | function decl => exact hdeclared rfl h
      | classDecl name superclass methods =>
          rcases List.mem_append.mp h with h | h
          · exact hdeclared rfl h
          · unfold Expr.inheritance at h
            split at h
            · split at h
              · obtain rfl := List.mem_singleton.mp h
                exact .inheritsFromItself ‹_›
              · cases h
            · cases h
      | ret keyword value =>
          simp only [violations, Stmt.violations] at h
          split at h
          · rename_i hkind
            obtain rfl := List.mem_singleton.mp h
            exact .returnOutsideFunction (Setting.find?_of_function_none hkind)
          · rename_i hkind
            obtain ⟨decl, hfind, hinit⟩ := Setting.find?_of_initializer hkind
            cases value with
            | none => cases h
            | some e =>
                obtain rfl := List.mem_singleton.mp h
                exact .valueFromInitializer hfind hinit
          · cases h
      | _ => cases h
  | expr x =>
      cases x with
      | «variable» id name =>
          simp only [violations, Expr.violations] at h
          split at h
          · rename_i hundone
            obtain rfl := List.mem_singleton.mp h
            unfold Enclosure.undone at hundone
            split at hundone
            · obtain ⟨hname, hearlier⟩ := of_decide_eq_true hundone
              exact .readInOwnInitializer hname hearlier
            · cases hundone
          · cases h
      | this id keyword =>
          simp only [violations, Expr.violations] at h
          split at h
          · rename_i hkind
            obtain rfl := List.mem_singleton.mp h
            exact .thisOutsideClass (Setting.find?_of_cls_none hkind)
          · cases h
      | super id keyword method =>
          simp only [violations, Expr.violations] at h
          split at h
          · rename_i hkind
            obtain rfl := List.mem_singleton.mp h
            exact .superOutsideClass (Setting.find?_of_cls_none hkind)
          · rename_i hkind
            obtain rfl := List.mem_singleton.mp h
            exact .superWithoutSuperclass (Setting.find?_of_base hkind)
          · cases h
      | _ => cases h

theorem mem_violations {o : Occurrence} {e : ScopeError} : e ∈ o.violations ↔ o.Breaks e :=
  ⟨breaks_of_mem, Breaks.mem⟩

instance (o : Occurrence) (e : ScopeError) : Decidable (o.Breaks e) :=
  decidable_of_iff (e ∈ o.violations) mem_violations

theorem nodup_ite {condition : Prop} [Decidable condition] (e : ScopeError) :
    (if condition then [e] else []).Nodup := by
  split
  · exact List.pairwise_singleton _ _
  · exact .nil

theorem nodup_redeclared (name : Token) (around : List Enclosure) :
    (Enclosure.redeclared name around).Nodup := by
  unfold Enclosure.redeclared
  split
  · exact nodup_ite _
  · exact .nil

theorem nodup_inheritance (name : Token) (superclass : Option Expr) :
    (Expr.inheritance name superclass).Nodup := by
  unfold Expr.inheritance
  split
  · exact nodup_ite _
  · exact .nil

theorem cause_of_mem_inheritance {name : Token} {superclass : Option Expr} {e : ScopeError}
    (h : e ∈ Expr.inheritance name superclass) : e.cause = .inheritsFromItself := by
  unfold Expr.inheritance at h
  split at h
  · split at h
    · rw [List.mem_singleton.mp h]
    · cases h
  · cases h

/-- A rule is broken at most once at a place. -/
theorem nodup_violations (o : Occurrence) : o.violations.Nodup := by
  obtain ⟨part, around⟩ := o
  cases part with
  | param name => exact nodup_redeclared name around
  | stmt s =>
      cases s with
      | var name initializer => exact nodup_redeclared name around
      | function decl => exact nodup_redeclared decl.name around
      | classDecl name superclass methods =>
          refine List.nodup_append.mpr
            ⟨nodup_redeclared name around, nodup_inheritance name superclass, ?_⟩
          rintro e he _ hmem rfl
          obtain ⟨-, -, -, -, rfl⟩ := mem_redeclared.mp he
          cases cause_of_mem_inheritance hmem
      | ret keyword value =>
          simp only [violations, Stmt.violations]
          split
          · exact List.pairwise_singleton _ _
          · exact nodup_ite _
          · exact .nil
      | _ => exact .nil
  | expr x =>
      cases x with
      | «variable» id name => exact nodup_ite _
      | this id keyword =>
          simp only [violations, Expr.violations]
          split
          · exact List.pairwise_singleton _ _
          · exact .nil
      | super id keyword method =>
          simp only [violations, Expr.violations]
          split
          · exact List.pairwise_singleton _ _
          · exact List.pairwise_singleton _ _
          · exact .nil
      | _ => exact .nil

theorem count_flatMap_violations (os : List Occurrence) (e : ScopeError) :
    (os.flatMap violations).count e = os.countP (·.Breaks e) := by
  induction os with
  | nil => rfl
  | cons o os ih =>
      rw [List.flatMap_cons, List.count_append, ih, List.countP_cons, Nat.add_comm,
        o.nodup_violations.count]
      simp only [mem_violations, decide_eq_true_eq]

end Occurrence

/-! ### Scopes at a place -/

/-- In a new scope exactly the names declared since are found, all of them complete. -/
theorem completeEach_cons (names : List Token) (scope : Scope) (outer : List Scope) :
    ∃ scope', completeEach names (scope :: outer) = scope' :: outer ∧ ∀ name,
      scope'.get? name = if name ∈ names.map Token.lexeme then some true else scope.get? name := by
  induction names generalizing scope with
  | nil => exact ⟨scope, rfl, fun name => by simp⟩
  | cons t names ih =>
      obtain ⟨scope', hscopes, hget⟩ := ih (scope.insert t.lexeme true)
      refine ⟨scope', hscopes, fun name => ?_⟩
      rw [hget, Bindings.get?_insert]
      by_cases hmem : name ∈ names.map Token.lexeme
      · simp [hmem]
      · by_cases heq : t.lexeme = name
        · simp [heq]
        · simp [hmem, heq, Ne.symm heq]

/-- The open scopes at the place of a statement: none outside all blocks, and otherwise a scope
with the names declared before it. -/
def Enclosure.Open : List Enclosure → List Scope → Prop
  | [], scopes => scopes = []
  | .scope earlier :: _, scopes => ∃ outer, scopes = completeEach earlier (.empty :: outer)
  | _, _ => False

/-- Whether the innermost scope is still declaring a name. -/
def Scope.declares (name : String) : List Scope → Bool
  | [] => false
  | scope :: _ => scope.get? name = some false

namespace Enclosure.Open

variable {around : List Enclosure} {scopes : List Scope}

theorem after (h : Open around scopes) (names : List Token) :
    Open (Enclosure.after names around) (completeEach names scopes) := by
  cases around with
  | nil =>
      obtain rfl : scopes = [] := h
      exact completeEach_nil names
  | cons x around =>
      cases x with
      | scope earlier =>
          obtain ⟨outer, rfl⟩ := h
          exact ⟨outer, (completeEach_append earlier names _).symm⟩
      | _ => cases h

theorem declares_eq (h : Open around scopes) (name : String) :
    Scope.declares name scopes = undone name around := by
  cases around with
  | nil =>
      obtain rfl : scopes = [] := h
      rfl
  | cons x around =>
      cases x with
      | scope earlier =>
          obtain ⟨outer, rfl⟩ := h
          obtain ⟨scope, hscopes, hget⟩ := completeEach_cons earlier .empty outer
          rw [hscopes]
          simp [Scope.declares, hget, undone]
      | _ => cases h

/-- At the place of a statement no name waits for its initializer. -/
theorem declares_cls (h : Open around scopes) (superclass : Option Expr) (outer : List Enclosure)
    (name : String) : Scope.declares name scopes = undone name (.cls superclass :: outer) := by
  rw [h.declares_eq]
  cases around with
  | nil => rfl
  | cons x around =>
      cases x with
      | scope earlier => rfl
      | _ => cases h

/-- While a variable waits for its initializer, its name is declared and not complete, unless an
earlier declaration of the scope has completed it. -/
theorem declares_declareIn (h : Open around scopes) (declared : Token) (name : String) :
    Scope.declares name (declareIn declared.lexeme scopes) =
      undone name (.initializer declared :: around) := by
  cases around with
  | nil =>
      obtain rfl : scopes = [] := h
      rfl
  | cons x around =>
      cases x with
      | scope earlier =>
          obtain ⟨outer, rfl⟩ := h
          obtain ⟨scope, hscopes, hget⟩ := completeEach_cons earlier .empty outer
          rw [hscopes]
          show decide ((declaring declared.lexeme scope).get? name = some false) =
            decide (name = declared.lexeme ∧ name ∉ earlier.map Token.lexeme)
          rw [decide_eq_decide]
          by_cases hname : name = declared.lexeme
          · by_cases hmem : name ∈ earlier.map Token.lexeme
            · have hcontains : scope.contains declared.lexeme := by
                rw [← hname, Bindings.contains, hget, if_pos hmem]
                rfl
              rw [declaring, if_pos hcontains, hget, if_pos hmem]
              simp [hmem]
            · have hcontains : ¬ scope.contains declared.lexeme := by
                rw [← hname, Bindings.contains, hget, if_neg hmem]
                exact Bool.false_ne_true
              rw [declaring, if_neg hcontains, hname, Bindings.get?_insert_self]
              simp [← hname, hmem]
          · rw [get?_declaring hname, hget]
            simp [hname]
      | _ => cases h

end Enclosure.Open

namespace ScopeWalk

theorem count_error (w : ScopeWalk) (token : Token) (cause : ScopeCause) (e : ScopeError) :
    (w.error token cause).errors.count e = [⟨token, cause⟩].count e + w.errors.count e := by
  rw [← List.count_append]
  rfl

theorem count_declare {around : List Enclosure} {w : ScopeWalk}
    (h : Enclosure.Open around w.scopes) (name : Token) (e : ScopeError) :
    (w.declare name).errors.count e =
      (Enclosure.redeclared name around).count e + w.errors.count e := by
  cases around with
  | nil =>
      have hscopes : w.scopes = [] := h
      simp [declare, hscopes, Enclosure.redeclared]
  | cons x around =>
      cases x with
      | scope earlier =>
          obtain ⟨outer, hscopes⟩ := h
          obtain ⟨scope, hscope, hget⟩ := completeEach_cons earlier .empty outer
          rw [hscope] at hscopes
          by_cases hmem : name.lexeme ∈ earlier.map Token.lexeme
          · have hcontains : scope.contains name.lexeme := by
              rw [Bindings.contains, hget, if_pos hmem]
              rfl
            simp only [declare, hscopes, if_pos hcontains, Enclosure.redeclared, if_pos hmem,
              count_error]
          · have hcontains : ¬ scope.contains name.lexeme := by
              rw [Bindings.contains, hget, if_neg hmem]
              exact Bool.false_ne_true
            simp only [declare, hscopes, if_neg hcontains, Enclosure.redeclared, if_neg hmem,
              List.count_nil, Nat.zero_add]
      | _ => cases h

theorem count_declareComplete {around : List Enclosure} {w : ScopeWalk}
    (h : Enclosure.Open around w.scopes) (name : Token) (e : ScopeError) :
    (w.declareComplete name).errors.count e =
      (Enclosure.redeclared name around).count e + w.errors.count e := by
  rw [declareComplete, define_errors, count_declare h]

theorem count_checkComplete {around : List Enclosure} {w : ScopeWalk}
    (h : ∀ name, Scope.declares name w.scopes = Enclosure.undone name around) (id : ExprId)
    (name : Token) (e : ScopeError) : (w.checkComplete name).errors.count e =
      ((Expr.variable id name).violations around).count e + w.errors.count e := by
  simp only [Expr.violations, ← h]
  unfold checkComplete
  cases w.scopes with
  | nil => simp [Scope.declares]
  | cons scope outer =>
      by_cases hget : scope.get? name.lexeme = some false
      · simp only [if_pos hget, Scope.declares, decide_eq_true hget, if_true, count_error]
      · simp [hget, Scope.declares]

/-- Declaring the parameters of a function, in a scope that may have names already. -/
theorem count_foldl_declareComplete (around : List Enclosure) (e : ScopeError)
    (params : List Token) {earlier : List Token} {outer : List Scope} {w : ScopeWalk}
    (h : w.scopes = completeEach earlier (.empty :: outer)) :
    (params.foldl declareComplete w).errors.count e =
      ((Token.occurrences around earlier params).flatMap Occurrence.violations).count e +
        w.errors.count e := by
  induction params generalizing earlier w with
  | nil => simp [Token.occurrences]
  | cons p params ih =>
      have hopen : Enclosure.Open (.scope earlier :: around) w.scopes := ⟨outer, h⟩
      have hnext : (w.declareComplete p).scopes =
          completeEach (earlier ++ [p]) (.empty :: outer) := by
        rw [declareComplete_scopes, h, completeEach_append]
        rfl
      rw [List.foldl_cons, ih hnext, count_declareComplete hopen, Token.occurrences,
        List.flatMap_cons, List.count_append]
      simp only [Occurrence.violations]
      omega

end ScopeWalk

/-! ### What a walk notes -/

mutual

theorem Expr.count_nodes {around : List Enclosure} {scopes : List Scope}
    (hscopes : ∀ name, Scope.declares name scopes = Enclosure.undone name around)
    (e : ScopeError) : (x : Expr) → (w : ScopeWalk) → w.scopes = scopes →
    (x.resolve (.around around) w).errors.count e =
      (x.nodes.flatMap (Expr.violations around)).count e + w.errors.count e
  | .literal _, w, _ => by simp [Expr.resolve, Expr.nodes, Expr.violations]
  | .grouping inner, w, hw => by
      rw [Expr.resolve, inner.count_nodes hscopes e w hw, Expr.nodes]
      rfl
  | .unary _ right, w, hw => by
      rw [Expr.resolve, right.count_nodes hscopes e w hw, Expr.nodes]
      rfl
  | .binary left _ right, w, hw => by
      rw [Expr.resolve, right.count_nodes hscopes e _ (by rw [left.resolve_scopes, hw]),
        left.count_nodes hscopes e w hw, Expr.nodes, List.flatMap_cons, List.flatMap_append]
      simp only [Expr.violations, List.nil_append, List.count_append]
      omega
  | .logical left _ right, w, hw => by
      rw [Expr.resolve, right.count_nodes hscopes e _ (by rw [left.resolve_scopes, hw]),
        left.count_nodes hscopes e w hw, Expr.nodes, List.flatMap_cons, List.flatMap_append]
      simp only [Expr.violations, List.nil_append, List.count_append]
      omega
  | .variable id name, w, hw => by
      subst hw
      rw [Expr.resolve, ScopeWalk.refer_errors, ScopeWalk.count_checkComplete hscopes id,
        Expr.nodes]
      simp
  | .assign _ _ value, w, hw => by
      rw [Expr.resolve, ScopeWalk.refer_errors, value.count_nodes hscopes e w hw, Expr.nodes]
      rfl
  | .call callee _ arguments, w, hw => by
      rw [Expr.resolve,
        Expr.count_nodesEach hscopes e arguments _ (by rw [callee.resolve_scopes, hw]),
        callee.count_nodes hscopes e w hw, Expr.nodes, List.flatMap_cons, List.flatMap_append]
      simp only [Expr.violations, List.nil_append, List.count_append]
      omega
  | .get object _, w, hw => by
      rw [Expr.resolve, object.count_nodes hscopes e w hw, Expr.nodes]
      rfl
  | .set object _ value, w, hw => by
      rw [Expr.resolve, object.count_nodes hscopes e _ (by rw [value.resolve_scopes, hw]),
        value.count_nodes hscopes e w hw, Expr.nodes, List.flatMap_cons, List.flatMap_append]
      simp only [Expr.violations, List.nil_append, List.count_append]
      omega
  | .this id keyword, w, _ => by
      simp only [Expr.resolve, Expr.nodes, List.flatMap_cons, List.flatMap_nil, List.append_nil,
        Expr.violations]
      cases (Setting.around around).cls <;>
        simp only [ScopeWalk.count_error, ScopeWalk.refer_errors, List.count_nil, Nat.zero_add]
  | .super id keyword _, w, _ => by
      simp only [Expr.resolve, Expr.nodes, List.flatMap_cons, List.flatMap_nil, List.append_nil,
        Expr.violations]
      cases (Setting.around around).cls <;>
        simp only [ScopeWalk.count_error, ScopeWalk.refer_errors, List.count_nil, Nat.zero_add]

theorem Expr.count_nodesEach {around : List Enclosure} {scopes : List Scope}
    (hscopes : ∀ name, Scope.declares name scopes = Enclosure.undone name around)
    (e : ScopeError) : (xs : List Expr) → (w : ScopeWalk) → w.scopes = scopes →
    (Expr.resolveEach (.around around) xs w).errors.count e =
      ((Expr.nodesEach xs).flatMap (Expr.violations around)).count e + w.errors.count e
  | [], w, _ => by simp [Expr.resolveEach, Expr.nodesEach]
  | x :: xs, w, hw => by
      rw [Expr.resolveEach, Expr.count_nodesEach hscopes e xs _ (by rw [x.resolve_scopes, hw]),
        x.count_nodes hscopes e w hw, Expr.nodesEach, List.flatMap_append, List.count_append]
      omega

end

theorem Expr.count_resolve {around : List Enclosure} {w : ScopeWalk}
    (h : ∀ name, Scope.declares name w.scopes = Enclosure.undone name around) (e : ScopeError)
    (x : Expr) : (x.resolve (.around around) w).errors.count e =
      ((x.occurrences around).flatMap Occurrence.violations).count e + w.errors.count e := by
  rw [x.count_nodes h e w rfl, Expr.occurrences, List.flatMap_map]
  rfl

theorem Expr.count_resolve? {around : List Enclosure} {w : ScopeWalk}
    (h : ∀ name, Scope.declares name w.scopes = Enclosure.undone name around) (e : ScopeError)
    (x : Option Expr) : (Expr.resolve? (.around around) x w).errors.count e =
      ((Expr.occurrences? around x).flatMap Occurrence.violations).count e +
        w.errors.count e := by
  cases x with
  | none => simp [Expr.resolve?, Expr.occurrences?]
  | some x => exact x.count_resolve h e

theorem ScopeWalk.count_checkReturn (around : List Enclosure) (w : ScopeWalk) (keyword : Token)
    (value : Option Expr) (e : ScopeError) :
    (w.checkReturn (.around around) keyword value.isSome).errors.count e =
      ((Stmt.ret keyword value).violations around).count e + w.errors.count e := by
  simp only [checkReturn, Stmt.violations]
  cases (Setting.around around).function with
  | none => exact count_error w keyword _ e
  | initializer =>
      cases value with
      | none => exact (Nat.zero_add _).symm
      | some x => exact count_error w keyword _ e
  | function | method => exact (Nat.zero_add _).symm

/-- A superclass stands in its class, where the name of the class is declared. -/
theorem Expr.count_resolveSuperclass {around : List Enclosure} {superclass : Expr} {w : ScopeWalk}
    (h : ∀ name, Scope.declares name w.scopes =
      Enclosure.undone name (.cls (some superclass) :: around))
    (name : Token) (e : ScopeError) :
    (superclass.resolveSuperclass (.around around) name w).errors.count e =
      (Expr.inheritance name (some superclass)).count e +
        ((superclass.occurrences (.cls (some superclass) :: around)).flatMap
          Occurrence.violations).count e + w.errors.count e := by
  have hvisit {w' : ScopeWalk} (hscopes : w'.scopes = w.scopes)
      (hcount : w'.errors.count e =
        (Expr.inheritance name (some superclass)).count e + w.errors.count e) :
      ((superclass.resolve (.around (.cls (some superclass) :: around)) w').openScope.define
        "super").errors.count e =
        (Expr.inheritance name (some superclass)).count e +
          ((superclass.occurrences (.cls (some superclass) :: around)).flatMap
            Occurrence.violations).count e + w.errors.count e := by
    rw [ScopeWalk.define_errors]
    refine (superclass.count_resolve (hscopes ▸ h) e).trans ?_
    omega
  cases superclass with
  | «variable» id parent =>
      by_cases heq : parent.lexeme = name.lexeme
      · simp only [Expr.resolveSuperclass, if_pos heq]
        refine hvisit rfl ?_
        rw [ScopeWalk.count_error, Expr.inheritance, if_pos heq]
      · simp only [Expr.resolveSuperclass, if_neg heq]
        refine hvisit rfl ?_
        rw [Expr.inheritance, if_neg heq, List.count_nil, Nat.zero_add]
  | _ => exact hvisit rfl (Nat.zero_add _).symm

mutual

theorem Stmt.count_resolve (e : ScopeError) : (s : Stmt) → {around : List Enclosure} →
    {w : ScopeWalk} → Enclosure.Open around w.scopes →
    (s.resolve (.around around) w).errors.count e =
      ((s.occurrences around).flatMap Occurrence.violations).count e + w.errors.count e
  | .expression x, around, w, h => by
      rw [Stmt.resolve, x.count_resolve h.declares_eq, Stmt.occurrences]
      rfl
  | .print x, around, w, h => by
      rw [Stmt.resolve, x.count_resolve h.declares_eq, Stmt.occurrences]
      rfl
  | .var name initializer, around, w, h => by
      have hscopes (other : String) : Scope.declares other (w.declare name).scopes =
          Enclosure.undone other (.initializer name :: around) := by
        rw [ScopeWalk.declare_scopes, h.declares_declareIn]
      have hinitializer := Expr.count_resolve? hscopes e initializer
      rw [Stmt.resolve, ScopeWalk.define_errors, Stmt.occurrences, List.flatMap_cons,
        List.count_append]
      refine hinitializer.trans ?_
      rw [ScopeWalk.count_declare h]
      simp only [Occurrence.violations, Stmt.violations]
      omega
  | .block body, around, w, h => by
      have hopen : w.openScope.scopes = completeEach [] (.empty :: w.scopes) := rfl
      rw [Stmt.resolve, Stmt.occurrences]
      exact Stmt.count_resolveEach e body hopen
  | .ifThen condition thenBranch, around, w, h => by
      have hthen : Enclosure.Open around (condition.resolve (.around around) w).scopes := by
        rw [Expr.resolve_scopes]
        exact h
      rw [Stmt.resolve, thenBranch.count_resolve e hthen, condition.count_resolve h.declares_eq,
        Stmt.occurrences, List.flatMap_cons, List.flatMap_append]
      simp only [Occurrence.violations, Stmt.violations, List.nil_append, List.count_append]
      omega
  | .ifElse condition thenBranch elseBranch, around, w, h => by
      have hthen : Enclosure.Open around (condition.resolve (.around around) w).scopes := by
        rw [Expr.resolve_scopes]
        exact h
      have helse : Enclosure.Open (Enclosure.after thenBranch.declared around)
          (thenBranch.resolve (.around around) (condition.resolve (.around around) w)).scopes := by
        rw [Stmt.resolve_completes, Expr.resolve_scopes]
        exact h.after _
      have hsetting : Setting.around (Enclosure.after thenBranch.declared around) =
          Setting.around around := Setting.around_after _ _
      have hcount := elseBranch.count_resolve e helse
      rw [hsetting] at hcount
      rw [Stmt.resolve, hcount, thenBranch.count_resolve e hthen,
        condition.count_resolve h.declares_eq, Stmt.occurrences, List.flatMap_cons,
        List.flatMap_append, List.flatMap_append]
      simp only [Occurrence.violations, Stmt.violations, List.nil_append, List.count_append]
      omega
  | .loop condition body, around, w, h => by
      have hbody : Enclosure.Open around (condition.resolve (.around around) w).scopes := by
        rw [Expr.resolve_scopes]
        exact h
      rw [Stmt.resolve, body.count_resolve e hbody, condition.count_resolve h.declares_eq,
        Stmt.occurrences, List.flatMap_cons, List.flatMap_append]
      simp only [Occurrence.violations, Stmt.violations, List.nil_append, List.count_append]
      omega
  | .function decl, around, w, h => by
      have hdecl := decl.count_resolve e (.function decl :: around) (w.declareComplete decl.name)
      rw [Stmt.resolve, Stmt.occurrences, List.flatMap_cons, List.count_append]
      refine hdecl.trans ?_
      rw [ScopeWalk.count_declareComplete h]
      simp only [Occurrence.violations, Stmt.violations]
      omega
  | .ret keyword value, around, w, h => by
      have hscopes (name : String) : Scope.declares name
          (w.checkReturn (.around around) keyword value.isSome).scopes =
            Enclosure.undone name around := by
        rw [ScopeWalk.checkReturn_scopes, h.declares_eq]
      rw [Stmt.resolve, Expr.count_resolve? hscopes, ScopeWalk.count_checkReturn,
        Stmt.occurrences, List.flatMap_cons, List.count_append]
      simp only [Occurrence.violations]
      omega
  | .classDecl name none methods, around, w, h => by
      have hmethods := FunctionDecl.count_resolveMethods e methods (.cls none :: around)
        ((w.declareComplete name).openScope.define "this")
      rw [ScopeWalk.define_errors] at hmethods
      rw [Stmt.resolve, Stmt.occurrences, List.flatMap_cons, List.count_append]
      refine hmethods.trans ?_
      show _ + (w.declareComplete name).errors.count e = _
      rw [ScopeWalk.count_declareComplete h]
      simp only [Occurrence.violations, Stmt.violations, Expr.inheritance, List.append_nil,
        Expr.occurrences?, List.nil_append]
      omega
  | .classDecl name (some superclass) methods, around, w, h => by
      have hname : Enclosure.Open (Enclosure.after [name] around)
          (w.declareComplete name).scopes := by
        rw [ScopeWalk.declareComplete_scopes]
        exact h.after [name]
      have hmethods := FunctionDecl.count_resolveMethods e methods
        (.cls (some superclass) :: around) ((superclass.resolveSuperclass (.around around) name
          (w.declareComplete name)).openScope.define "this")
      rw [ScopeWalk.define_errors] at hmethods
      rw [Stmt.resolve, Stmt.occurrences, List.flatMap_cons, List.flatMap_append,
        List.count_append, List.count_append]
      refine hmethods.trans ?_
      show _ + (superclass.resolveSuperclass (.around around) name
        (w.declareComplete name)).errors.count e = _
      rw [Expr.count_resolveSuperclass (hname.declares_cls _ _),
        ScopeWalk.count_declareComplete h]
      simp only [Occurrence.violations, Stmt.violations, Expr.occurrences?, List.count_append]
      omega

theorem Stmt.count_resolveEach (e : ScopeError) : (ss : List Stmt) → {around : List Enclosure} →
    {earlier : List Token} → {outer : List Scope} → {w : ScopeWalk} →
    w.scopes = completeEach earlier (.empty :: outer) →
    (Stmt.resolveEach (.around around) ss w).errors.count e =
      ((Stmt.occurrencesEach around earlier ss).flatMap Occurrence.violations).count e +
        w.errors.count e
  | [], _, _, _, w, _ => by simp [Stmt.resolveEach, Stmt.occurrencesEach]
  | s :: ss, around, earlier, outer, w, hw => by
      have hopen : Enclosure.Open (.scope earlier :: around) w.scopes := ⟨outer, hw⟩
      -- The names of a statement count as earlier ones for those after it.
      have hnext : (s.resolve (.around around) w).scopes =
          completeEach (earlier ++ s.declared) (.empty :: outer) := by
        rw [s.resolve_completes, hw, completeEach_append]
      have hs := s.count_resolve e hopen
      rw [Setting.around_scope] at hs
      rw [Stmt.resolveEach, Stmt.count_resolveEach e ss hnext, hs, Stmt.occurrencesEach,
        List.flatMap_append, List.count_append]
      omega

theorem FunctionDecl.count_resolve (e : ScopeError) : (d : FunctionDecl) →
    (around : List Enclosure) → (w : ScopeWalk) →
    (d.resolve (.around around) w).errors.count e =
      ((d.occurrences around).flatMap Occurrence.violations).count e + w.errors.count e
  | .mk _ params body, around, w => by
      have hopen : w.openScope.scopes = completeEach [] (.empty :: w.scopes) := rfl
      have hparams : (params.foldl ScopeWalk.declareComplete w.openScope).scopes =
          completeEach params (.empty :: w.scopes) :=
        ScopeWalk.foldl_declareComplete_scopes params w.openScope
      rw [FunctionDecl.resolve, FunctionDecl.occurrences, List.flatMap_append, List.count_append]
      refine (Stmt.count_resolveEach e body hparams).trans ?_
      rw [ScopeWalk.count_foldl_declareComplete around e params hopen, ← Nat.add_assoc]
      show _ + w.errors.count e = _
      omega

theorem FunctionDecl.count_resolveMethods (e : ScopeError) : (ds : List FunctionDecl) →
    (around : List Enclosure) → (w : ScopeWalk) →
    (FunctionDecl.resolveMethods (.around around) ds w).errors.count e =
      ((FunctionDecl.occurrencesEach around ds).flatMap Occurrence.violations).count e +
        w.errors.count e
  | [], _, w => by simp [FunctionDecl.resolveMethods, FunctionDecl.occurrencesEach]
  | d :: ds, around, w => by
      have hd := d.count_resolve e (.method d :: around) w
      rw [FunctionDecl.resolveMethods, FunctionDecl.count_resolveMethods e ds,
        FunctionDecl.occurrencesEach, List.flatMap_append, List.count_append]
      refine (congrArg _ hd).trans ?_
      omega

end

/-- Outside all blocks no scope is open. -/
theorem Stmt.count_resolveEach_nil (e : ScopeError) (program : List Stmt) {w : ScopeWalk}
    (hw : w.scopes = []) : (Stmt.resolveEach (.around []) program w).errors.count e =
      ((Stmt.occurrencesIn program).flatMap Occurrence.violations).count e + w.errors.count e := by
  induction program generalizing w with
  | nil => simp [Stmt.resolveEach, Stmt.occurrencesIn]
  | cons s program ih =>
      have hopen : Enclosure.Open [] w.scopes := hw
      have hnext : (s.resolve (.around []) w).scopes = [] := by
        rw [s.resolve_completes, hw, completeEach_nil]
      have hcons : Stmt.occurrencesIn (s :: program) =
          s.occurrences [] ++ Stmt.occurrencesIn program := List.flatMap_cons
      rw [Stmt.resolveEach, ih hnext, s.count_resolve e hopen, hcons, List.flatMap_append,
        List.count_append]
      omega

/-- The scoping errors of a program. -/
def Stmt.scopeErrors (program : List Stmt) : List ScopeError :=
  match Stmt.hopCounts program with
  | .ok _ => []
  | .error errors => errors

theorem Stmt.scopeErrors_eq (program : List Stmt) :
    Stmt.scopeErrors program = (Stmt.resolveEach (.around []) program .start).errors.reverse := by
  have hstart : Setting.around [] = ⟨.none, .none⟩ := rfl
  rw [hstart, Stmt.scopeErrors, Stmt.hopCounts]
  cases (Stmt.resolveEach ⟨.none, .none⟩ program .start).errors with
  | nil => rfl
  | cons e errors => rfl

theorem Stmt.scopeErrors_eq_nil_iff (program : List Stmt) :
    Stmt.scopeErrors program = [] ↔ ∃ hops, Stmt.hopCounts program = .ok hops := by
  have hstart : Setting.around [] = ⟨.none, .none⟩ := rfl
  rw [Stmt.scopeErrors_eq, hstart, Stmt.hopCounts]
  cases (Stmt.resolveEach ⟨.none, .none⟩ program .start).errors with
  | nil => simp
  | cons e errors => simp

/-- Checking a program finds each broken rule once for each place where it is broken, and nothing
else. -/
theorem scope_errors_are_violations (program : List Stmt) :
    (∀ e, (Stmt.scopeErrors program).count e =
      (Stmt.occurrencesIn program).countP (·.Breaks e)) ∧
    ((∃ hops, Stmt.hopCounts program = .ok hops) ↔
      ∀ o ∈ Stmt.occurrencesIn program, ∀ e, ¬ o.Breaks e) := by
  have hcount (e : ScopeError) : (Stmt.scopeErrors program).count e =
      (Stmt.occurrencesIn program).countP (·.Breaks e) := by
    rw [Stmt.scopeErrors_eq, List.count_reverse, Stmt.count_resolveEach_nil e program rfl,
      Occurrence.count_flatMap_violations]
    rfl
  refine ⟨hcount, ?_⟩
  rw [← Stmt.scopeErrors_eq_nil_iff, List.eq_nil_iff_forall_not_mem]
  constructor
  · intro hnone o ho e hbreaks
    have hpos : 0 < (Stmt.scopeErrors program).count e := by
      rw [hcount, List.countP_pos_iff]
      exact ⟨o, ho, decide_eq_true hbreaks⟩
    exact hnone e (List.count_pos_iff.mp hpos)
  · intro hnone e he
    have hpos := List.count_pos_iff.mpr he
    rw [hcount, List.countP_pos_iff] at hpos
    obtain ⟨o, ho, hbreaks⟩ := hpos
    exact hnone o ho e (of_decide_eq_true hbreaks)

/-- Several rules are broken at once here, one of them twice, and none hides another. -/
example :
    let source := "return a; class A < A \x7b init(b, b) \x7b var b = b; return super.a; \x7d \x7d
      \x7b var a = a + a; class a \x7b\x7d \x7d"
    (Parsed.ofTokens (Source.tokens source.toUTF8.toList) 0).program.toOption.map (fun program =>
      (Stmt.scopeErrors program).map fun e => (e.token.lexeme, e.cause)) =
        some [("return", .returnOutsideFunction), ("A", .inheritsFromItself),
          ("b", .alreadyDeclared), ("b", .alreadyDeclared), ("return", .valueFromInitializer),
          ("a", .readInOwnInitializer), ("a", .readInOwnInitializer), ("a", .alreadyDeclared)] := by
  decide +kernel

end ScriptLang
