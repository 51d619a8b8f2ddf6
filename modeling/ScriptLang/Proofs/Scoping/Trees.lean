import ScriptLang.Proofs.Grammar
import ScriptLang.Proofs.Scanning

/-! What is true of every tree that reading gives: its references have ids of their own, the words
`this` and `super` name nothing else, and only declarations declare names. -/

namespace ScriptLang

/-! ### Ids -/

mutual

/-- The ids of the references in an expression. -/
def Expr.ids : Expr → List ExprId
  | .literal _ => []
  | .grouping inner => inner.ids
  | .unary _ right => right.ids
  | .binary left _ right => left.ids ++ right.ids
  | .logical left _ right => left.ids ++ right.ids
  | .variable id _ => [id]
  | .assign id _ value => id :: value.ids
  | .call callee _ arguments => callee.ids ++ Expr.idsEach arguments
  | .get object _ => object.ids
  | .set object _ value => value.ids ++ object.ids
  | .this id _ => [id]
  | .super id _ _ => [id]

def Expr.idsEach : List Expr → List ExprId
  | [] => []
  | e :: es => e.ids ++ Expr.idsEach es

end

def Expr.ids? : Option Expr → List ExprId
  | none => []
  | some e => e.ids

mutual

/-- The ids of the references in a statement. -/
def Stmt.ids : Stmt → List ExprId
  | .expression e => e.ids
  | .print e => e.ids
  | .var _ initializer => Expr.ids? initializer
  | .block body => Stmt.idsEach body
  | .ifThen condition thenBranch => condition.ids ++ thenBranch.ids
  | .ifElse condition thenBranch elseBranch => condition.ids ++ (thenBranch.ids ++ elseBranch.ids)
  | .loop condition body => condition.ids ++ body.ids
  | .function decl => decl.ids
  | .ret _ value => Expr.ids? value
  | .classDecl _ superclass methods => Expr.ids? superclass ++ FunctionDecl.idsEach methods

def Stmt.idsEach : List Stmt → List ExprId
  | [] => []
  | s :: ss => s.ids ++ Stmt.idsEach ss

def FunctionDecl.ids : FunctionDecl → List ExprId
  | .mk _ _ body => Stmt.idsEach body

def FunctionDecl.idsEach : List FunctionDecl → List ExprId
  | [] => []
  | d :: ds => d.ids ++ FunctionDecl.idsEach ds

end

theorem Expr.idsEach_eq (es : List Expr) : Expr.idsEach es = es.flatMap Expr.ids := by
  induction es with
  | nil => rfl
  | cons e es ih => simp [Expr.idsEach, ih]

theorem FunctionDecl.idsEach_eq (ds : List FunctionDecl) :
    FunctionDecl.idsEach ds = ds.flatMap FunctionDecl.ids := by
  induction ds with
  | nil => rfl
  | cons d ds ih => simp [FunctionDecl.idsEach, ih]

/-- The ids in what a phrase stands for. -/
def Symbol.ids : (x : Symbol) → x.Tree → List ExprId
  | .declarations => Stmt.idsEach
  | .declaration => Stmt.ids
  | .varDecl => Stmt.ids
  | .functions => FunctionDecl.idsEach
  | .function => FunctionDecl.ids
  | .parameters => fun _ => []
  | .statement _ => Stmt.ids
  | .exprStmt => Stmt.ids
  | .forInit => fun init => Stmt.idsEach init.toList
  | .optional => Expr.ids?
  | .expression => Expr.ids
  | .operation _ => Expr.ids
  | .unary => Expr.ids
  | .call => Expr.ids
  | .arguments => Expr.idsEach
  | .primary => Expr.ids

/-- Distinct numbers from `i` up to but not including `j`. -/
structure Numbered (i : ExprId) (ids : List ExprId) (j : ExprId) : Prop where
  le : i ≤ j
  nodup : ids.Nodup
  mem : ∀ id ∈ ids, i ≤ id ∧ id < j

namespace Numbered

variable {i j k : ExprId} {xs ys : List ExprId}

theorem nil (i : ExprId) : Numbered i [] i := ⟨Nat.le_refl i, .nil, by simp⟩

theorem one (i : ExprId) : Numbered i [i] (i + 1) := ⟨Nat.le_succ i, by simp, by simp⟩

theorem append (hx : Numbered i xs j) (hy : Numbered j ys k) : Numbered i (xs ++ ys) k := by
  refine ⟨Nat.le_trans hx.le hy.le, List.nodup_append.mpr ⟨hx.nodup, hy.nodup, ?_⟩, ?_⟩
  · rintro x hxs y hys rfl
    exact Nat.lt_irrefl x (Nat.lt_of_lt_of_le (hx.mem x hxs).2 (hy.mem x hys).1)
  · intro x hmem
    rcases List.mem_append.mp hmem with hmem | hmem
    · exact ⟨(hx.mem x hmem).1, Nat.lt_of_lt_of_le (hx.mem x hmem).2 hy.le⟩
    · exact ⟨Nat.le_trans hx.le (hy.mem x hmem).1, (hy.mem x hmem).2⟩

theorem perm (hx : Numbered i xs j) (h : xs.Perm ys) : Numbered i ys j :=
  ⟨hx.le, h.nodup_iff.mp hx.nodup, fun id hid => hx.mem id (h.mem_iff.mpr hid)⟩

end Numbered

theorem Level.Joins.ids {level : Level} {left right e : Expr} {operator : Token}
    (h : level.Joins left operator right e) : e.ids = left.ids ++ right.ids := by
  cases h <;> rfl

/-- A loop has the ids of its parts, the increment after the body. -/
theorem Stmt.ForForm.ids_perm {init : Option Stmt} {condition increment : Option Expr}
    {body s : Stmt} (h : ForForm init condition increment body s) :
    (Stmt.idsEach init.toList ++ (Expr.ids? condition ++ (Expr.ids? increment ++ body.ids))).Perm
      s.ids := by
  induction h with
  | endless => simp [Stmt.idsEach, Expr.ids?, Stmt.ids, Expr.ids]
  | loop => simp [Stmt.idsEach, Expr.ids?, Stmt.ids]
  | increment _ ih =>
      refine (List.Perm.append_left _ (List.Perm.append_left _ ?_)).trans ih
      simpa [Stmt.ids, Stmt.idsEach, Expr.ids?] using List.perm_append_comm
  | initializer _ ih => simpa [Stmt.ids, Stmt.idsEach] using ih.append_left _

/-- The references of a phrase are numbered without gaps to the phrases before and after it. -/
theorem Derives.numbered {x : Symbol} {i j : ExprId} {ts : List Token} {a : x.Tree}
    (h : Derives x i ts a j) : Numbered i (x.ids a) j := by
  induction h with
  | noDeclarations | varBare | noFunctions | parameter | forNone | absent | number | string
  | trueWord | falseWord | nilWord => exact .nil _
  | this | reference | super => exact .one _
  | declarations _ _ ih ih₂ | functions _ _ ih ih₂ | arguments _ _ _ ih ih₂
  | callWith _ _ _ _ _ ih ih₂ | ifThen _ _ _ _ _ _ ih ih₂ | whileStatement _ _ _ _ _ ih ih₂ =>
      exact ih.append ih₂
  | function _ _ _ _ _ _ _ _ ih ih₂ => exact ih.append ih₂
  | derivedClass _ _ _ _ _ _ _ ih => exact (Numbered.one _).append ih
  | assign _ _ _ ih => exact (Numbered.one _).append ih
  | set _ _ _ _ _ ih ih₂ => exact (ih.append ih₂).perm List.perm_append_comm
  | join _ _ hjoins ih ih₂ =>
      show Numbered _ (Expr.ids _) _
      rw [hjoins.ids]
      exact ih.append ih₂
  | ifElse _ _ _ _ _ _ _ ih ih₂ ih₃ => exact ih.append (ih₂.append ih₃)
  | forStatement _ _ _ _ _ _ _ _ hform ih ih₂ ih₃ ih₄ =>
      exact (ih.append (ih₂.append (ih₃.append ih₄))).perm hform.ids_perm
  | forVar _ ih | forExpr _ ih | callBare _ _ _ ih | argument _ ih =>
      simpa [Symbol.ids, Stmt.idsEach, Expr.ids, Expr.idsEach] using ih
  | _ => assumption

/-! ### Names -/

/-- The name that a statement declares in the scope it stands in. -/
def Stmt.declares : Stmt → Option Token
  | .var name _ => some name
  | .function decl => some decl.name
  | .classDecl name _ _ => some name
  | _ => none

mutual

/-- An expression in which `this` and `super` are written so and never assigned to. -/
def Expr.WellFormed : Expr → Prop
  | .literal _ => True
  | .grouping inner => inner.WellFormed
  | .unary _ right => right.WellFormed
  | .binary left _ right => left.WellFormed ∧ right.WellFormed
  | .logical left _ right => left.WellFormed ∧ right.WellFormed
  | .variable _ _ => True
  | .assign _ name value => name.IsPlain ∧ value.WellFormed
  | .call callee _ arguments => callee.WellFormed ∧ Expr.WellFormedEach arguments
  | .get object _ => object.WellFormed
  | .set object _ value => object.WellFormed ∧ value.WellFormed
  | .this _ keyword => keyword.lexeme = "this"
  | .super _ keyword _ => keyword.lexeme = "super"

def Expr.WellFormedEach : List Expr → Prop
  | [] => True
  | e :: es => e.WellFormed ∧ Expr.WellFormedEach es

end

def Expr.WellFormed? : Option Expr → Prop
  | none => True
  | some e => e.WellFormed

mutual

/-- A statement in which only plain names are declared, declarations stand only in blocks, and
superclasses are names. -/
def Stmt.WellFormed : Stmt → Prop
  | .expression e => e.WellFormed
  | .print e => e.WellFormed
  | .var name initializer => name.IsPlain ∧ Expr.WellFormed? initializer
  | .block body => Stmt.WellFormedEach body
  | .ifThen condition thenBranch =>
    condition.WellFormed ∧ thenBranch.WellFormed ∧ thenBranch.declares = none
  | .ifElse condition thenBranch elseBranch =>
    condition.WellFormed ∧ (thenBranch.WellFormed ∧ thenBranch.declares = none) ∧
      elseBranch.WellFormed ∧ elseBranch.declares = none
  | .loop condition body => condition.WellFormed ∧ body.WellFormed ∧ body.declares = none
  | .function decl => decl.name.IsPlain ∧ decl.WellFormed
  | .ret _ value => Expr.WellFormed? value
  | .classDecl name superclass methods =>
    name.IsPlain ∧ (∀ e ∈ superclass, ∃ id parent, e = .variable id parent) ∧
      FunctionDecl.WellFormedEach methods

def Stmt.WellFormedEach : List Stmt → Prop
  | [] => True
  | s :: ss => s.WellFormed ∧ Stmt.WellFormedEach ss

def FunctionDecl.WellFormed : FunctionDecl → Prop
  | .mk _ params body => (∀ p ∈ params, p.IsPlain) ∧ Stmt.WellFormedEach body

def FunctionDecl.WellFormedEach : List FunctionDecl → Prop
  | [] => True
  | d :: ds => d.WellFormed ∧ FunctionDecl.WellFormedEach ds

end

theorem Expr.wellFormedEach_iff {es : List Expr} :
    Expr.WellFormedEach es ↔ ∀ e ∈ es, e.WellFormed := by
  induction es with
  | nil => simp [Expr.WellFormedEach]
  | cons e es ih => simp [Expr.WellFormedEach, ih]

theorem FunctionDecl.wellFormedEach_iff {ds : List FunctionDecl} :
    FunctionDecl.WellFormedEach ds ↔ ∀ d ∈ ds, d.WellFormed := by
  induction ds with
  | nil => simp [FunctionDecl.WellFormedEach]
  | cons d ds ih => simp [FunctionDecl.WellFormedEach, ih]

/-- What is true of the tree of a phrase of tokens that fit. -/
def Symbol.WellFormed : (x : Symbol) → x.Tree → Prop
  | .declarations => Stmt.WellFormedEach
  | .declaration => Stmt.WellFormed
  | .varDecl => Stmt.WellFormed
  | .functions => FunctionDecl.WellFormedEach
  | .function => fun d => d.name.IsPlain ∧ d.WellFormed
  | .parameters => fun params => ∀ p ∈ params, p.IsPlain
  | .statement _ => fun s => s.WellFormed ∧ s.declares = none
  | .exprStmt => fun s => s.WellFormed ∧ s.declares = none
  | .forInit => fun init => Stmt.WellFormedEach init.toList
  | .optional => Expr.WellFormed?
  | .expression => Expr.WellFormed
  | .operation _ => Expr.WellFormed
  | .unary => Expr.WellFormed
  | .call => Expr.WellFormed
  | .arguments => Expr.WellFormedEach
  | .primary => Expr.WellFormed

theorem Level.Joins.wellFormed {level : Level} {left right e : Expr} {operator : Token}
    (h : level.Joins left operator right e) (hleft : left.WellFormed) (hright : right.WellFormed) :
    e.WellFormed := by
  cases h <;> exact ⟨hleft, hright⟩

theorem Stmt.ForForm.wellFormed {init : Option Stmt} {condition increment : Option Expr}
    {body s : Stmt} (h : ForForm init condition increment body s)
    (hinit : Stmt.WellFormedEach init.toList) (hcondition : Expr.WellFormed? condition)
    (hincrement : Expr.WellFormed? increment) (hbody : body.WellFormed ∧ body.declares = none) :
    s.WellFormed ∧ s.declares = none := by
  induction h with
  | endless => exact ⟨⟨trivial, hbody⟩, rfl⟩
  | loop => exact ⟨⟨hcondition, hbody⟩, rfl⟩
  | increment _ ih => exact ih hinit hcondition trivial ⟨⟨hbody.1, hincrement, trivial⟩, rfl⟩
  | initializer _ ih =>
      exact ⟨⟨hinit.1, (ih trivial hcondition hincrement hbody).1, trivial⟩, rfl⟩

/-- The trees of scripts are well-formed. -/
theorem Derives.wellFormed {x : Symbol} {i j : ExprId} {ts : List Token} {a : x.Tree}
    (h : Derives x i ts a j) (hfits : ∀ t ∈ ts, t.Fits) : x.WellFormed a := by
  induction h with
  | noDeclarations | noFunctions | absent | forNone | number | string | trueWord | falseWord
  | nilWord | reference => trivial
  | this hkind => exact (hfits _ (by simp)).this hkind
  | super hkind => exact (hfits _ (by simp)).super hkind
  | varBare _ hname => exact ⟨(hfits _ (by simp)).plain hname, trivial⟩
  | varInit _ hname _ _ _ ih | assign hname _ _ ih =>
      exact ⟨(hfits _ (by simp)).plain hname, ih fun t ht => hfits t (by simp [ht])⟩
  | baseClass _ hname _ _ _ ih | derivedClass _ hname _ _ _ _ _ ih =>
      exact ⟨(hfits _ (by simp)).plain hname, by simp, ih fun t ht => hfits t (by simp [ht])⟩
  | functionBare hname _ _ _ _ _ ih =>
      have hplain := (hfits _ (by simp)).plain hname
      exact ⟨hplain, by simp, ih fun t ht => hfits t (by simp [ht])⟩
  | function hname _ _ _ _ _ _ _ ih ih₂ =>
      have hplain := (hfits _ (by simp)).plain hname
      exact ⟨hplain, ih fun t ht => hfits t (by simp [ht]), ih₂ fun t ht => hfits t (by simp [ht])⟩
  | parameter hname =>
      have hplain := (hfits _ (by simp)).plain hname
      simpa [Symbol.WellFormed] using hplain
  | parameters hname _ _ ih =>
      have hplain := (hfits _ (by simp)).plain hname
      have hothers := ih fun t ht => hfits t (by simp [ht])
      simp only [Symbol.WellFormed, List.mem_cons, forall_eq_or_imp] at hothers ⊢
      exact ⟨hplain, hothers⟩
  | declarations _ _ ih ih₂ | functions _ _ ih ih₂ | arguments _ _ _ ih ih₂ =>
      have hfirst := ih fun t ht => hfits t (by simp [ht])
      have hothers := ih₂ fun t ht => hfits t (by simp [ht])
      first | exact ⟨hfirst, hothers⟩ | exact ⟨hfirst.2, hothers⟩
  | set _ _ _ _ _ ih ih₂ | callWith _ _ _ _ _ ih ih₂ =>
      exact ⟨ih fun t ht => hfits t (by simp [ht]), ih₂ fun t ht => hfits t (by simp [ht])⟩
  | join _ _ hjoins ih ih₂ =>
      exact hjoins.wellFormed (ih fun t ht => hfits t (by simp [ht]))
        (ih₂ fun t ht => hfits t (by simp [ht]))
  | ifThen _ _ _ _ _ _ ih ih₂ | whileStatement _ _ _ _ _ ih ih₂ =>
      exact ⟨⟨ih fun t ht => hfits t (by simp [ht]), ih₂ fun t ht => hfits t (by simp [ht])⟩, rfl⟩
  | ifElse _ _ _ _ _ _ _ ih ih₂ ih₃ =>
      exact ⟨⟨ih fun t ht => hfits t (by simp [ht]), ih₂ fun t ht => hfits t (by simp [ht]),
        ih₃ fun t ht => hfits t (by simp [ht])⟩, rfl⟩
  | forStatement _ _ _ _ _ _ _ _ hform ih ih₂ ih₃ ih₄ =>
      exact hform.wellFormed (ih fun t ht => hfits t (by simp [ht]))
        (ih₂ fun t ht => hfits t (by simp [ht])) (ih₃ fun t ht => hfits t (by simp [ht]))
        (ih₄ fun t ht => hfits t (by simp [ht]))
  | print _ _ _ ih | ret _ _ _ ih | block _ _ _ ih | exprStmt _ _ ih =>
      exact ⟨ih fun t ht => hfits t (by simp [ht]), rfl⟩
  | forVar _ ih | argument _ ih | callBare _ _ _ ih =>
      exact ⟨ih fun t ht => hfits t (by simp [ht]), trivial⟩
  | forExpr _ ih => exact ⟨(ih hfits).1, trivial⟩
  | statement _ _ ih => exact (ih hfits).1
  | _ =>
      rename_i ih
      exact ih fun t ht => hfits t (by simp [ht])

end ScriptLang
