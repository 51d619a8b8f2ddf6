import ScriptLang.Proofs.Joining.Trees
import ScriptLang.Proofs.Numbering.Trees

/-! Programs in which a local name is written as another one. A variable or a parameter is chosen
by the scope that declares it; the references that mean it are those whose hop count leads to that
scope. -/

namespace ScriptLang

/-- A name, what it is to be called, and where references lead. -/
structure Renaming where
  old : String
  new : String
  hop : ExprId → Option Nat

/-- The token under its other name, where that one holds. -/
def Renaming.token (r : Renaming) (here : Prop) [Decidable here] (t : Token) : Token :=
  if here ∧ t.lexeme = r.old then { t with lexeme := r.new } else t

instance (k : Place) (hop : Option Nat) : Decidable (k.At hop) :=
  inferInstanceAs (Decidable (_ ∧ _))

section Rename

variable (r : Renaming)

/-! ### Inside the scope -/

mutual

/-- The expression in a scope that sees the other name at `k`. -/
def Expr.rename (k : Place) : Expr → Expr
  | .literal value => .literal value
  | .grouping inner => .grouping (inner.rename k)
  | .unary operator right => .unary operator (right.rename k)
  | .binary left operator right => .binary (left.rename k) operator (right.rename k)
  | .logical left operator right => .logical (left.rename k) operator (right.rename k)
  | .variable id name => .variable id (r.token (k.At (r.hop id)) name)
  | .assign id name value => .assign id (r.token (k.At (r.hop id)) name) (value.rename k)
  | .call callee paren arguments => .call (callee.rename k) paren (Expr.renameEach k arguments)
  | .get object name => .get (object.rename k) name
  | .set object name value => .set (object.rename k) name (value.rename k)
  | .this id keyword => .this id keyword
  | .super id keyword method => .super id keyword method

def Expr.renameEach (k : Place) : List Expr → List Expr
  | [] => []
  | e :: es => e.rename k :: Expr.renameEach k es

end

mutual

/-- The statement in a scope that sees the other name at `k`. Only a variable that the scope itself
declares is called otherwise: functions and classes keep their names. -/
def Stmt.rename (k : Place) : Stmt → Stmt
  | .expression e => .expression (e.rename r k)
  | .print e => .print (e.rename r k)
  | .var name initializer => .var (r.token (k = some 0) name) (initializer.map (Expr.rename r k))
  | .block body => .block (Stmt.renameEach k.inner body)
  | .ifThen condition thenBranch => .ifThen (condition.rename r k) (thenBranch.rename k)
  | .ifElse condition thenBranch elseBranch =>
    .ifElse (condition.rename r k) (thenBranch.rename k) (elseBranch.rename k)
  | .loop condition body => .loop (condition.rename r k) (body.rename k)
  | .function decl => .function (decl.rename k)
  | .ret keyword value => .ret keyword (value.map (Expr.rename r k))
  | .classDecl name superclass methods =>
    .classDecl name (superclass.map (Expr.rename r k))
      (FunctionDecl.renameEach (k.ofClass superclass).inner methods)

def Stmt.renameEach (k : Place) : List Stmt → List Stmt
  | [] => []
  | s :: ss => s.rename k :: Stmt.renameEach k ss

/-- The function as declared in a scope that sees the other name at `k`. -/
def FunctionDecl.rename (k : Place) : FunctionDecl → FunctionDecl
  | .mk name params body => .mk name params (Stmt.renameEach k.inner body)

def FunctionDecl.renameEach (k : Place) : List FunctionDecl → List FunctionDecl
  | [] => []
  | d :: ds => d.rename k :: FunctionDecl.renameEach k ds

end

/-! ### The choice of a scope -/

/-- Statements of a scope that declare a variable of this name. -/
def Stmt.DeclareVar (name : String) (body : List Stmt) : Prop :=
  ∃ t e, Stmt.var t e ∈ body ∧ t.lexeme = name

mutual

/-- One scope in the first statement declares the name, as a variable or a parameter. In the second
statement that variable has the other name, and so have the references that mean it. -/
inductive Stmt.Renames : Stmt → Stmt → Prop where
  | here {body} : Stmt.DeclareVar r.old body →
      Stmt.Renames (.block body) (.block (Stmt.renameEach r (some 0) body))
  | block {body body'} : Stmt.RenamesOne body body' → Stmt.Renames (.block body) (.block body')
  | ifThen (e) {s s'} : Stmt.Renames s s' → Stmt.Renames (.ifThen e s) (.ifThen e s')
  | thenBranch (e) {s s'} (u) : Stmt.Renames s s' → Stmt.Renames (.ifElse e s u) (.ifElse e s' u)
  | elseBranch (e s) {u u'} : Stmt.Renames u u' → Stmt.Renames (.ifElse e s u) (.ifElse e s u')
  | loop (e) {s s'} : Stmt.Renames s s' → Stmt.Renames (.loop e s) (.loop e s')
  | function {d d'} : FunctionDecl.Renames d d' → Stmt.Renames (.function d) (.function d')
  | classDecl (t e) {ds ds'} : FunctionDecl.RenamesOne ds ds' →
      Stmt.Renames (.classDecl t e ds) (.classDecl t e ds')

inductive Stmt.RenamesOne : List Stmt → List Stmt → Prop where
  | head {s s'} (ss) : Stmt.Renames s s' → Stmt.RenamesOne (s :: ss) (s' :: ss)
  | tail (s) {ss ss'} : Stmt.RenamesOne ss ss' → Stmt.RenamesOne (s :: ss) (s :: ss')

inductive FunctionDecl.Renames : FunctionDecl → FunctionDecl → Prop where
  | here {t ps body} : (∃ p ∈ ps, p.lexeme = r.old) ∨ Stmt.DeclareVar r.old body →
      FunctionDecl.Renames (.mk t ps body)
        (.mk t (ps.map (r.token True)) (Stmt.renameEach r (some 0) body))
  | body (t ps) {body body'} : Stmt.RenamesOne body body' →
      FunctionDecl.Renames (.mk t ps body) (.mk t ps body')

inductive FunctionDecl.RenamesOne : List FunctionDecl → List FunctionDecl → Prop where
  | head {d d'} (ds) : FunctionDecl.Renames d d' → FunctionDecl.RenamesOne (d :: ds) (d' :: ds)
  | tail (d) {ds ds'} : FunctionDecl.RenamesOne ds ds' →
      FunctionDecl.RenamesOne (d :: ds) (d :: ds')

end

end Rename

/-! ### Where there is no other name -/

section None

variable (r : Renaming)

theorem Renaming.token_of_not {here : Prop} [Decidable here] (h : ¬here) (t : Token) :
    r.token here t = t :=
  if_neg fun hhere => h hhere.1

mutual

theorem Expr.rename_none : (e : Expr) → e.rename r none = e
  | .literal _ | .this _ _ | .super _ _ _ => rfl
  | .grouping e | .unary _ e | .get e _ => by rw [Expr.rename, e.rename_none]
  | .binary e _ u | .logical e _ u | .set e _ u => by
      rw [Expr.rename, e.rename_none, u.rename_none]
  | .variable _ _ => by rw [Expr.rename, r.token_of_not (Place.at_none _)]
  | .assign _ _ e => by rw [Expr.rename, r.token_of_not (Place.at_none _), e.rename_none]
  | .call e _ es => by rw [Expr.rename, e.rename_none, Expr.renameEach_none es]

theorem Expr.renameEach_none : (es : List Expr) → Expr.renameEach r none es = es
  | [] => rfl
  | e :: es => by rw [Expr.renameEach, e.rename_none, Expr.renameEach_none es]

end

theorem Expr.rename?_none (e : Option Expr) : e.map (Expr.rename r none) = e := by
  cases e with
  | none => rfl
  | some e => exact congrArg some (e.rename_none r)

mutual

theorem Stmt.rename_none : (s : Stmt) → s.rename r none = s
  | .expression e | .print e => by rw [Stmt.rename, e.rename_none]
  | .var _ e => by rw [Stmt.rename, r.token_of_not nofun, Expr.rename?_none]
  | .block ss => congrArg Stmt.block (Stmt.renameEach_none ss)
  | .ifThen e s | .loop e s => by rw [Stmt.rename, e.rename_none, s.rename_none]
  | .ifElse e s u => by rw [Stmt.rename, e.rename_none, s.rename_none, u.rename_none]
  | .function d => by rw [Stmt.rename, d.rename_none]
  | .ret _ e => by rw [Stmt.rename, Expr.rename?_none]
  | .classDecl _ e ds => by
      have hplace : (Place.ofClass none e).inner = none := by cases e <;> rfl
      rw [Stmt.rename, Expr.rename?_none, hplace, FunctionDecl.renameEach_none ds]

theorem Stmt.renameEach_none : (ss : List Stmt) → Stmt.renameEach r none ss = ss
  | [] => rfl
  | s :: ss => by rw [Stmt.renameEach, s.rename_none, Stmt.renameEach_none ss]

theorem FunctionDecl.rename_none : (d : FunctionDecl) → d.rename r none = d
  | .mk name params body => congrArg (FunctionDecl.mk name params) (Stmt.renameEach_none body)

theorem FunctionDecl.renameEach_none : (ds : List FunctionDecl) →
    FunctionDecl.renameEach r none ds = ds
  | [] => rfl
  | d :: ds => by rw [FunctionDecl.renameEach, d.rename_none, FunctionDecl.renameEach_none ds]

end

end None

/-! ### Renamed programs match -/

/-- What a matching must know for renamed programs to match: that references stand for themselves,
and that the other name is nowhere. -/
structure Matching.Renames (μ : Matching) (r : Renaming) (l : Likeness) : Prop where
  old : μ.old = r.old
  new : μ.new = r.new
  ref {id : ExprId} : l.id id → μ.ref id id (r.hop id)
  fresh {t t' : Token} : l.token t t' → t.lexeme ≠ r.new

/-- Declares no function and no class of this name. -/
def Stmt.Keeps (name : String) : Stmt → Prop
  | .function d => d.name.lexeme ≠ name
  | .classDecl t _ _ => t.lexeme ≠ name
  | _ => True

theorem Stmt.keeps_of_declares {s : Stmt} (h : s.declares = none) (name : String) :
    s.Keeps name := by
  cases s <;> trivial

section Matches

variable {μ : Matching} {r : Renaming} {l : Likeness}

theorem Matching.Renames.fixes (hμ : μ.Renames r l) {t t' : Token} (ht : l.token t t')
    (hne : t.lexeme ≠ r.old) : μ.Fixes t.lexeme := by
  rw [Fixes, hμ.old, hμ.new]
  exact ⟨hne, hμ.fresh ht⟩

theorem Matching.Renames.names (hμ : μ.Renames r l) (here : Prop) [Decidable here] {t t' : Token}
    (ht : l.token t t') : μ.Names here t (r.token here t) := by
  unfold Renaming.token
  split
  · rename_i h
    rw [← hμ.new]
    exact .renamed h.1 (h.2.trans hμ.old.symm)
  · rename_i h
    exact .same fun hhere => hμ.fixes ht fun heq => h ⟨hhere, heq⟩

mutual

theorem Expr.Alike.rename_matches (hμ : μ.Renames r l) (k : Place) : {e : Expr} →
    e.Alike l e → e.WellFormed → e.Matches μ k (e.rename r k)
  | _, .literal value, _ => .literal value
  | _, .grouping h, hwf => .grouping (h.rename_matches hμ k hwf)
  | _, .unary _ h, hwf => .unary _ (h.rename_matches hμ k hwf)
  | _, .binary h _ hu, hwf =>
      .binary _ (h.rename_matches hμ k hwf.1) (hu.rename_matches hμ k hwf.2)
  | _, .logical h _ hu, hwf =>
      .logical _ (h.rename_matches hμ k hwf.1) (hu.rename_matches hμ k hwf.2)
  | _, .variable hid ht, _ => .variable (hμ.ref hid) (hμ.names _ ht)
  | _, .assign hid ht h, hwf =>
      .assign (hμ.ref hid) (hμ.names _ ht) (h.rename_matches hμ k hwf.2)
  | _, .call h _ hs, hwf => .call _ (h.rename_matches hμ k hwf.1) (hs.rename_matches hμ k hwf.2)
  | _, .get h _, hwf => .get _ (h.rename_matches hμ k hwf)
  | _, .set h _ hu, hwf => .set _ (h.rename_matches hμ k hwf.1) (hu.rename_matches hμ k hwf.2)
  | .this _ t, .this hid _, hwf => by
      have hlexeme : t.lexeme = "this" := hwf
      exact .this (hμ.ref hid) (hlexeme ▸ Matching.fixes_this)
  | .super _ t u, .super hid _ _, hwf => by
      have hlexeme : t.lexeme = "super" := hwf
      exact .super u (hμ.ref hid) (hlexeme ▸ Matching.fixes_super)

theorem Expr.AlikeEach.rename_matches (hμ : μ.Renames r l) (k : Place) : {es : List Expr} →
    AlikeEach l es es → Expr.WellFormedEach es → Expr.MatchesEach μ k es (Expr.renameEach r k es)
  | _, .nil, _ => .nil
  | _, .cons h hs, hwf => .cons (h.rename_matches hμ k hwf.1) (hs.rename_matches hμ k hwf.2)

end

theorem Expr.alike?_rename_matches (hμ : μ.Renames r l) (k : Place) {e : Option Expr}
    (h : Option.Rel (Expr.Alike l) e e) (hwf : Expr.WellFormed? e) :
    Option.Rel (Expr.Matches μ k) e (e.map (Expr.rename r k)) := by
  cases h with
  | none => exact .none
  | some h => exact .some (h.rename_matches hμ k hwf)

mutual

/-- A scope that declares the name keeps the names of its functions and classes apart from it. -/
theorem Stmt.Alike.rename_matches (hμ : μ.Renames r l) (k : Place) : {s : Stmt} →
    s.Alike l s → s.WellFormed → (k = some 0 → s.Keeps r.old) → s.Matches μ k (s.rename r k)
  | _, .expression h, hwf, _ => .expression (h.rename_matches hμ k hwf)
  | _, .print h, hwf, _ => .print (h.rename_matches hμ k hwf)
  | _, .var ht h, hwf, _ => .var (hμ.names _ ht) (Expr.alike?_rename_matches hμ k h hwf.2)
  | _, .block hs, hwf, _ =>
      .block (.plain k) (hs.rename_matches hμ k.inner hwf fun hk => absurd hk k.inner_ne_zero)
  | _, .ifThen h hs, hwf, _ =>
      .ifThen (h.rename_matches hμ k hwf.1)
        (hs.rename_matches hμ k hwf.2.1 fun _ => Stmt.keeps_of_declares hwf.2.2 _)
  | _, .ifElse h hs hu, hwf, _ =>
      .ifElse (h.rename_matches hμ k hwf.1)
        (hs.rename_matches hμ k hwf.2.1.1 fun _ => Stmt.keeps_of_declares hwf.2.1.2 _)
        (hu.rename_matches hμ k hwf.2.2.1 fun _ => Stmt.keeps_of_declares hwf.2.2.2 _)
  | _, .loop h hs, hwf, _ =>
      .loop (h.rename_matches hμ k hwf.1)
        (hs.rename_matches hμ k hwf.2.1 fun _ => Stmt.keeps_of_declares hwf.2.2 _)
  | _, .function (.mk ht hps hs), hwf, hkeeps =>
      .function (fun hk => hμ.fixes ht (hkeeps hk))
        (FunctionDecl.Alike.rename_matches hμ k (.mk ht hps hs) hwf.2)
  | _, .ret _ h, hwf, _ => .ret _ (Expr.alike?_rename_matches hμ k h hwf)
  | _, .classDecl ht h hds, hwf, hkeeps =>
      .classDecl (fun hk => hμ.fixes ht (hkeeps hk))
        (Expr.alike?_rename_matches hμ k h (Expr.wellFormed?_of_name hwf.2.1))
        (hds.rename_matches hμ _ hwf.2.2)

theorem Stmt.AlikeEach.rename_matches (hμ : μ.Renames r l) (k : Place) : {ss : List Stmt} →
    Stmt.AlikeEach l ss ss → Stmt.WellFormedEach ss → (k = some 0 → ∀ s ∈ ss, s.Keeps r.old) →
    Stmt.MatchesEach μ k ss (Stmt.renameEach r k ss)
  | _, .nil, _, _ => .nil k
  | _, .cons h hs, hwf, hkeeps =>
      .cons (h.rename_matches hμ k hwf.1 fun hk => hkeeps hk _ List.mem_cons_self)
        (hs.rename_matches hμ k hwf.2 fun hk s hs => hkeeps hk s (List.mem_cons_of_mem _ hs))

theorem FunctionDecl.Alike.rename_matches (hμ : μ.Renames r l) (k : Place) :
    {d : FunctionDecl} → d.Alike l d → d.WellFormed → d.Matches μ k (d.rename r k)
  | _, .mk _ _ hs, hwf =>
      .mk _ (.plain k) (List.forall₂_same.mpr fun _ _ => .same fun hk => absurd hk k.inner_ne_zero)
        (hs.rename_matches hμ k.inner hwf.2 fun hk => absurd hk k.inner_ne_zero)

theorem FunctionDecl.AlikeEach.rename_matches (hμ : μ.Renames r l) (k : Place) :
    {ds : List FunctionDecl} → FunctionDecl.AlikeEach l ds ds → FunctionDecl.WellFormedEach ds →
    FunctionDecl.MatchesEach μ k ds (FunctionDecl.renameEach r k ds)
  | _, .nil, _ => .nil k
  | _, .cons h hs, hwf => .cons (h.rename_matches hμ k hwf.1) (hs.rename_matches hμ k hwf.2)

end

end Matches

end ScriptLang
