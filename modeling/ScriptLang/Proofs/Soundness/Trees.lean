import ScriptLang.Operator
import ScriptLang.Proofs.Scoping.Points

/-! What reading a script and checking its scopes make sure of: operators stand where they can be
applied, names are plain, and `return` stands only where a function can end. -/

namespace ScriptLang

/-! ### Operators -/

/-- The operators that stand between two values. -/
def Kind.isBinary : Kind → Bool
  | .bangEqual | .equalEqual | .greater | .greaterEqual | .less | .lessEqual
  | .minus | .plus | .slash | .star => true
  | _ => false

namespace Value

variable {kind : Kind} {cause : FaultCause}

theorem applyUnary_eq_error {v : Value} (hkind : kind.isUnary = true)
    (h : v.applyUnary kind = .error cause) : cause = .operandNotNumber := by
  cases kind with
  | bang => cases h
  | minus =>
      cases v with
      | number x => cases h
      | _ =>
          cases h
          rfl
  | _ => cases hkind

theorem arithmetic_ne_error {a b : Float} (hkind : kind.isBinary = true) (hplus : kind ≠ .plus)
    (hequal : kind ≠ .equalEqual) (hdiffer : kind ≠ .bangEqual) :
    arithmetic kind a b ≠ .error cause := by
  cases kind with
  | plus => exact absurd rfl hplus
  | equalEqual => exact absurd rfl hequal
  | bangEqual => exact absurd rfl hdiffer
  | minus | star | slash | greater | greaterEqual | less | lessEqual => exact nofun
  | _ => cases hkind

theorem applyBinary_eq_error {a b : Value} (hkind : kind.isBinary = true)
    (h : a.applyBinary kind b = .error cause) :
    cause = .operandsNotAddable ∨ cause = .operandsNotNumbers := by
  unfold applyBinary at h
  split at h
  · split at h <;> cases h
    exact .inl rfl
  · cases h
  · cases h
  · rename_i hplus hequal hdiffer
    split at h
    · exact absurd h (arithmetic_ne_error hkind hplus hequal hdiffer)
    · cases h
      exact .inr rfl

end Value

/-! ### Trees as they are read -/

section Written

variable (P : Token → Prop)

/-- An expression whose operators can be applied, in which only plain names name something, and
which can fail only at tokens with the property `P`. -/
inductive Expr.Written : Expr → Prop where
  | literal (value : Literal) : Expr.Written (.literal value)
  | grouping {e} : Expr.Written e → Expr.Written (.grouping e)
  | unary {operator e} : P operator → operator.kind.isUnary = true → Expr.Written e →
      Expr.Written (.unary operator e)
  | binary {e operator u} : P operator → operator.kind.isBinary = true → Expr.Written e →
      Expr.Written u → Expr.Written (.binary e operator u)
  | logical {e operator u} : Expr.Written e → Expr.Written u →
      Expr.Written (.logical e operator u)
  | variable {id name} : P name → name.IsPlain → Expr.Written (.variable id name)
  | assign {id name e} : P name → name.IsPlain → Expr.Written e →
      Expr.Written (.assign id name e)
  | call {e paren es} : P paren → Expr.Written e → (∀ e ∈ es, Expr.Written e) →
      Expr.Written (.call e paren es)
  | get {e name} : P name → name.IsPlain → Expr.Written e → Expr.Written (.get e name)
  | set {e name u} : P name → Expr.Written e → Expr.Written u → Expr.Written (.set e name u)
  | this {id keyword} : Expr.Written (.this id keyword)
  | super {id keyword method} : P method → method.IsPlain →
      Expr.Written (.super id keyword method)

inductive Stmt.Written : Stmt → Prop where
  | expression {e} : e.Written P → Stmt.Written (.expression e)
  | print {e} : e.Written P → Stmt.Written (.print e)
  | var {name initializer} : (∀ e ∈ initializer, e.Written P) →
      Stmt.Written (.var name initializer)
  | block {body} : (∀ s ∈ body, Stmt.Written s) → Stmt.Written (.block body)
  | ifThen {e s} : e.Written P → Stmt.Written s → Stmt.Written (.ifThen e s)
  | ifElse {e s u} : e.Written P → Stmt.Written s → Stmt.Written u →
      Stmt.Written (.ifElse e s u)
  | loop {e s} : e.Written P → Stmt.Written s → Stmt.Written (.loop e s)
  | function {d} : (∀ s ∈ d.body, Stmt.Written s) → Stmt.Written (.function d)
  | ret {keyword value} : (∀ e ∈ value, e.Written P) → Stmt.Written (.ret keyword value)
  | classDecl {name superclass methods} : (∀ e ∈ superclass, e.Written P) →
      (∀ d ∈ methods, ∀ s ∈ d.body, Stmt.Written s) →
      Stmt.Written (.classDecl name superclass methods)

/-- What is true of the tree of a phrase. -/
def Symbol.Written : (x : Symbol) → x.Tree → Prop
  | .declarations => fun ss => ∀ s ∈ ss, s.Written P
  | .declaration => Stmt.Written P
  | .varDecl => Stmt.Written P
  | .functions => fun ds => ∀ d ∈ ds, ∀ s ∈ d.body, s.Written P
  | .function => fun d => ∀ s ∈ d.body, s.Written P
  | .parameters => fun _ => True
  | .statement _ => Stmt.Written P
  | .exprStmt => Stmt.Written P
  | .forInit => fun init => ∀ s ∈ init, s.Written P
  | .optional => fun value => ∀ e ∈ value, e.Written P
  | .expression => Expr.Written P
  | .operation _ => Expr.Written P
  | .unary => Expr.Written P
  | .call => Expr.Written P
  | .arguments => fun es => ∀ e ∈ es, e.Written P
  | .primary => Expr.Written P

end Written

variable {P : Token → Prop}

theorem Level.Joins.written {level : Level} {left right e : Expr} {operator : Token}
    (h : level.Joins left operator right e) (hoperator : P operator) (hleft : left.Written P)
    (hright : right.Written P) : e.Written P := by
  have hbinary (hkind : operator.kind.isBinary = true) :
      (Expr.binary left operator right).Written P := .binary hoperator hkind hleft hright
  cases h with
  | or | and => exact .logical hleft hright
  | equality h =>
      apply hbinary
      rcases h with h | h <;> rw [h] <;> rfl
  | comparison h =>
      apply hbinary
      rcases h with h | h | h | h <;> rw [h] <;> rfl
  | term h =>
      apply hbinary
      rcases h with h | h <;> rw [h] <;> rfl
  | factor h =>
      apply hbinary
      rcases h with h | h <;> rw [h] <;> rfl

theorem Stmt.ForForm.written {init : Option Stmt} {condition increment : Option Expr}
    {body s : Stmt} (h : ForForm init condition increment body s)
    (hinit : ∀ s ∈ init, s.Written P) (hcondition : ∀ e ∈ condition, e.Written P)
    (hincrement : ∀ e ∈ increment, e.Written P) (hbody : body.Written P) : s.Written P := by
  induction h with
  | endless => exact .loop (.literal _) hbody
  | loop => exact .loop (hcondition _ rfl) hbody
  | increment _ ih =>
      apply ih hinit hcondition nofun
      apply Stmt.Written.block
      simpa using ⟨hbody, .expression (hincrement _ rfl)⟩
  | initializer _ ih =>
      apply Stmt.Written.block
      simpa using ⟨hinit _ rfl, ih nofun hcondition hincrement hbody⟩

/-- The trees of scripts are written so. -/
theorem Derives.written {x : Symbol} {i j : ExprId} {ts : List Token} {a : x.Tree}
    (h : Derives x i ts a j) (hts : ∀ t ∈ ts, P t ∧ t.Fits) : x.Written P a := by
  induction h with
  | noDeclarations | noFunctions | absent | forNone => exact nofun
  | parameter | parameters => trivial
  | number | string | trueWord | falseWord | nilWord => exact .literal _
  | this => exact .this
  | reference hkind => exact .variable (hts _ (by simp)).1 ((hts _ (by simp)).2.plain hkind)
  | super _ _ hkind => exact .super (hts _ (by simp)).1 ((hts _ (by simp)).2.plain hkind)
  | varBare => exact .var nofun
  | varInit _ _ _ _ _ ih =>
      have he : Expr.Written P _ := ih fun t ht => hts t (by simp [ht])
      exact .var (by simpa using he)
  | assign hkind _ _ ih =>
      exact .assign (hts _ (by simp)).1 ((hts _ (by simp)).2.plain hkind)
        (ih fun t ht => hts t (by simp [ht]))
  | set _ _ _ _ _ ih ih₂ =>
      exact .set (hts _ (by simp)).1 (ih fun t ht => hts t (by simp [ht]))
        (ih₂ fun t ht => hts t (by simp [ht]))
  | unary hkind _ ih =>
      apply Expr.Written.unary (hts _ (by simp)).1 _ (ih fun t ht => hts t (by simp [ht]))
      rcases hkind with hkind | hkind <;> rw [hkind] <;> rfl
  | join _ _ hjoins ih ih₂ =>
      exact hjoins.written (hts _ (by simp)).1 (ih fun t ht => hts t (by simp [ht]))
        (ih₂ fun t ht => hts t (by simp [ht]))
  | callBare _ _ _ ih =>
      exact .call (hts _ (by simp)).1 (ih fun t ht => hts t (by simp [ht])) nofun
  | callWith _ _ _ _ _ ih ih₂ =>
      exact .call (hts _ (by simp)).1 (ih fun t ht => hts t (by simp [ht]))
        (ih₂ fun t ht => hts t (by simp [ht]))
  | get _ _ hkind ih =>
      exact .get (hts _ (by simp)).1 ((hts _ (by simp)).2.plain hkind)
        (ih fun t ht => hts t (by simp [ht]))
  | grouping _ _ _ ih => exact .grouping (ih fun t ht => hts t (by simp [ht]))
  | declarations _ _ ih ih₂ | functions _ _ ih ih₂ | arguments _ _ _ ih ih₂ =>
      have hfirst := ih fun t ht => hts t (by simp [ht])
      have hothers := ih₂ fun t ht => hts t (by simp [ht])
      simp only [Symbol.Written, List.mem_cons, forall_eq_or_imp] at hothers ⊢
      exact ⟨hfirst, hothers⟩
  | argument _ ih | present _ ih | forVar _ ih | forExpr _ ih =>
      have hone := ih hts
      simpa [Symbol.Written] using hone
  | baseClass _ _ _ _ _ ih => exact .classDecl nofun (ih fun t ht => hts t (by simp [ht]))
  | derivedClass _ _ _ hkind _ _ _ ih =>
      refine .classDecl ?_ (ih fun t ht => hts t (by simp [ht]))
      simpa using .variable (hts _ (by simp)).1 ((hts _ (by simp)).2.plain hkind)
  | funDecl _ _ ih => exact .function (ih fun t ht => hts t (by simp [ht]))
  | ifThen _ _ _ _ _ _ ih ih₂ =>
      exact .ifThen (ih fun t ht => hts t (by simp [ht])) (ih₂ fun t ht => hts t (by simp [ht]))
  | whileStatement _ _ _ _ _ ih ih₂ =>
      exact .loop (ih fun t ht => hts t (by simp [ht])) (ih₂ fun t ht => hts t (by simp [ht]))
  | ifElse _ _ _ _ _ _ _ ih ih₂ ih₃ =>
      exact .ifElse (ih fun t ht => hts t (by simp [ht])) (ih₂ fun t ht => hts t (by simp [ht]))
        (ih₃ fun t ht => hts t (by simp [ht]))
  | forStatement _ _ _ _ _ _ _ _ hform ih ih₂ ih₃ ih₄ =>
      exact hform.written (ih fun t ht => hts t (by simp [ht]))
        (ih₂ fun t ht => hts t (by simp [ht])) (ih₃ fun t ht => hts t (by simp [ht]))
        (ih₄ fun t ht => hts t (by simp [ht]))
  | print _ _ _ ih => exact .print (ih fun t ht => hts t (by simp [ht]))
  | ret _ _ _ ih => exact .ret (ih fun t ht => hts t (by simp [ht]))
  | block _ _ _ ih => exact .block (ih fun t ht => hts t (by simp [ht]))
  | exprStmt _ _ ih => exact .expression (ih fun t ht => hts t (by simp [ht]))
  | functionBare _ _ _ _ _ _ ih => exact ih fun t ht => hts t (by simp [ht])
  | function _ _ _ _ _ _ _ _ _ ih => exact ih fun t ht => hts t (by simp [ht])
  | varDecl _ ih | statement _ _ ih | exprStatement _ ih | operation _ ih | operand _ ih
  | tighter _ ih | call _ ih | callee _ ih => exact ih hts

/-! ### Trees as they are checked -/

/-- A statement that is written as it should be and that the scoping rules let stand in a function
of this kind. -/
structure Stmt.Vetted (P : Token → Prop) (kind : FunctionKind) (s : Stmt) : Prop where
  written : s.Written P
  allowed : ∃ setting scopes sites, setting.function = kind ∧
    Point.Accepted ⟨.stmt s, setting, scopes, sites⟩

/-- A function whose body may stand in a function of this kind. -/
def FunctionDecl.Vetted (P : Token → Prop) (kind : FunctionKind) (d : FunctionDecl) : Prop :=
  ∀ s ∈ d.body, s.Vetted P kind

section Accepted

variable {setting : Setting} {scopes : List Scope} {sites : List Site}

theorem Stmt.vettedEach {ss : List Stmt} (hwritten : ∀ s ∈ ss, s.Written P)
    (haccepted : Point.Accepted ⟨.stmts ss, setting, scopes, sites⟩) :
    ∀ s ∈ ss, s.Vetted P setting.function := by
  induction ss generalizing scopes with
  | nil => exact nofun
  | cons s ss ih =>
      simp only [List.mem_cons, forall_eq_or_imp] at hwritten ⊢
      have hfirst := Point.accepted_part haccepted List.mem_cons_self
      have hothers := Point.accepted_part haccepted (List.mem_cons_of_mem _ List.mem_cons_self)
      exact ⟨⟨hwritten.1, setting, scopes, sites, rfl, hfirst⟩, ih hwritten.2 hothers⟩

theorem FunctionDecl.vetted {d : FunctionDecl} (hwritten : ∀ s ∈ d.body, s.Written P)
    (haccepted : Point.Accepted ⟨.decl d, setting, scopes, sites⟩) :
    d.Vetted P setting.function := by
  obtain ⟨name, params, body⟩ := d
  exact Stmt.vettedEach hwritten (Point.accepted_part haccepted List.mem_cons_self)

theorem Expr.errors_of_resolve? {e : Option Expr} {w : ScopeWalk}
    (h : (Expr.resolve? setting e w).errors = []) : w.errors = [] := by
  cases e with
  | none => exact h
  | some e =>
      rw [Expr.resolve?, e.resolve_eq] at h
      exact (List.append_eq_nil_iff.mp h).2

/-- `return` stands in a function, and gives no value in an initializer. -/
theorem Point.accepted_ret {keyword : Token} {value : Option Expr}
    (h : Accepted ⟨.stmt (.ret keyword value), setting, scopes, sites⟩) :
    setting.function ≠ .none ∧ (setting.function = .initializer → value = none) := by
  have hcheck := Expr.errors_of_resolve? h.errors
  cases hkind : setting.function with
  | none => simp [ScopeWalk.checkReturn, hkind, ScopeWalk.error] at hcheck
  | initializer =>
      cases value with
      | none => simp
      | some e => simp [ScopeWalk.checkReturn, hkind, ScopeWalk.error] at hcheck
  | function | method => simp

end Accepted

namespace Stmt.Vetted

variable {kind : FunctionKind}

/-- A statement inside another one, in the same scopes. -/
theorem part {s s' : Stmt} (h : s.Vetted P kind) (hwritten : s'.Written P)
    (hpart : ∀ setting scopes sites, ⟨.stmt s', setting, scopes, sites⟩ ∈
      Point.parts ⟨.stmt s, setting, scopes, sites⟩) : s'.Vetted P kind := by
  obtain ⟨-, setting, scopes, sites, hkind, haccepted⟩ := h
  exact ⟨hwritten, setting, scopes, sites, hkind,
    Point.accepted_part haccepted (hpart setting scopes sites)⟩

theorem block {body : List Stmt} (h : (Stmt.block body).Vetted P kind) :
    ∀ s ∈ body, s.Vetted P kind := by
  obtain ⟨hwritten, setting, scopes, sites, rfl, haccepted⟩ := h
  cases hwritten with
  | block hbody =>
      exact Stmt.vettedEach hbody (Point.accepted_part haccepted List.mem_cons_self)

theorem function {d : FunctionDecl} (h : (Stmt.function d).Vetted P kind) :
    d.Vetted P .function := by
  obtain ⟨hwritten, setting, scopes, sites, -, haccepted⟩ := h
  cases hwritten with
  | function hbody =>
      exact FunctionDecl.vetted hbody (Point.accepted_part haccepted List.mem_cons_self)

theorem ret {keyword : Token} {value : Option Expr} (h : (Stmt.ret keyword value).Vetted P kind) :
    kind ≠ .none ∧ (kind = .initializer → value = none) := by
  obtain ⟨-, setting, scopes, sites, rfl, haccepted⟩ := h
  exact Point.accepted_ret haccepted

theorem classMethods {name : Token} {superclass : Option Expr} {methods : List FunctionDecl}
    (h : (Stmt.classDecl name superclass methods).Vetted P kind) :
    ∀ d ∈ methods, d.Vetted P (.ofMethod d) := by
  intro d hd
  obtain ⟨hwritten, setting, scopes, sites, -, haccepted⟩ := h
  cases hwritten with
  | classDecl _ hmethods =>
      cases superclass with
      | none =>
          exact FunctionDecl.vetted (hmethods d hd)
            (Point.accepted_part haccepted (List.mem_map_of_mem hd))
      | some e =>
          exact FunctionDecl.vetted (hmethods d hd)
            (Point.accepted_part haccepted (List.mem_cons_of_mem _ (List.mem_map_of_mem hd)))

/-- A superclass is a name. -/
theorem superclass {name : Token} {e : Expr} {methods : List FunctionDecl}
    (h : (Stmt.classDecl name (some e) methods).Vetted P kind) :
    ∃ id parent, e = .variable id parent ∧ P parent := by
  obtain ⟨hwritten, setting, scopes, sites, -, haccepted⟩ := h
  obtain ⟨id, parent, rfl, -⟩ := Point.accepted_superclass haccepted
  cases hwritten with
  | classDecl hsuperclass _ =>
      cases hsuperclass _ rfl with
      | «variable» hparent _ => exact ⟨id, parent, rfl, hparent⟩

end Stmt.Vetted

end ScriptLang
