import Mathlib.Data.List.Forall2
import Mathlib.Logic.Equiv.Basic
import ScriptLang.Session

/-! Programs that match: they have the same shape and the same tokens, except that references have
other ids and that in some scopes one local name is written as another. -/

namespace ScriptLang

/-- How far out the scope stands that has another name in the second program: so many scopes around
the present one, or nowhere. -/
abbrev Place := Option Nat

namespace Place

/-- The place as seen from a scope inside. -/
def inner (k : Place) : Place := k.map (· + 1)

/-- Whether a hop count leads to the scope. -/
def At (k : Place) (hop : Option Nat) : Prop := k.isSome ∧ hop = k

/-- The place as seen from a scope that is opened: a scope like any other, or the one with another
name. -/
inductive Opens : Place → Place → Prop where
  | plain (k : Place) : Opens k k.inner
  | renamed : Opens none (some 0)

@[simp]
theorem inner_ne_zero (k : Place) : k.inner ≠ some 0 := by
  cases k <;> simp [inner]

theorem Opens.eq_none {j k : Place} (h : j.Opens k) (hk : k = none) : j = none := by
  cases h with
  | plain => simpa [inner] using hk
  | renamed => cases hk

@[simp]
theorem at_none (hop : Option Nat) : ¬At none hop := by simp [At]

theorem not_at_none (k : Place) : ¬k.At none := by
  cases k <;> simp [At]

theorem at_some {k : Place} {d : Nat} : k.At (some d) ↔ k = some d := by
  simp only [At]
  constructor
  · exact fun h => h.2.symm
  · rintro rfl
    exact ⟨rfl, rfl⟩

end Place

/-- How two sessions may differ and still run alike: `new` stands for `old` in some scopes, and
references have other ids. -/
structure Matching where
  old : String
  new : String
  /-- References that stand for each other, with the hop count that both have. -/
  ref : ExprId → ExprId → Option Nat → Prop
  old_plain : old ≠ "this" ∧ old ≠ "super"
  new_plain : new ≠ "this" ∧ new ≠ "super"

namespace Matching

variable (μ : Matching)

/-- What a name is called in the scopes that have another name. -/
def name (n : String) : String := Equiv.swap μ.old μ.new n

/-- A name that is called the same everywhere. -/
def Fixes (n : String) : Prop := n ≠ μ.old ∧ n ≠ μ.new

/-- Names that stand for each other where another name holds, and elsewhere. -/
inductive Names (here : Prop) : Token → Token → Prop where
  | same {t : Token} (h : here → μ.Fixes t.lexeme) : Names here t t
  | renamed {t : Token} (h : here) (ht : t.lexeme = μ.old) : Names here t { t with lexeme := μ.new }

theorem name_injective : Function.Injective μ.name := (Equiv.swap μ.old μ.new).injective

variable {μ}

theorem Fixes.name_eq {n : String} (h : μ.Fixes n) : μ.name n = n :=
  Equiv.swap_apply_of_ne_of_ne h.1 h.2

theorem fixes_this : μ.Fixes "this" := ⟨Ne.symm μ.old_plain.1, Ne.symm μ.new_plain.1⟩

theorem fixes_super : μ.Fixes "super" := ⟨Ne.symm μ.old_plain.2, Ne.symm μ.new_plain.2⟩

theorem Names.lexeme_of_here {here : Prop} {t t' : Token} (h : μ.Names here t t') (hhere : here) :
    t'.lexeme = μ.name t.lexeme := by
  cases h with
  | same hfixes => exact (hfixes hhere).name_eq.symm
  | renamed _ ht => rw [ht, name, Equiv.swap_apply_left]

theorem Names.eq_of_not_here {here : Prop} {t t' : Token} (h : μ.Names here t t')
    (hhere : ¬here) : t' = t := by
  cases h with
  | same => rfl
  | renamed hholds => exact absurd hholds hhere

end Matching

section Trees

variable (μ : Matching)

mutual

/-- Expressions that match in a scope that sees the other name at `k`. -/
inductive Expr.Matches (k : Place) : Expr → Expr → Prop where
  | literal (value : Literal) : Expr.Matches k (.literal value) (.literal value)
  | grouping {e e'} : Expr.Matches k e e' → Expr.Matches k (.grouping e) (.grouping e')
  | unary (t) {e e'} : Expr.Matches k e e' → Expr.Matches k (.unary t e) (.unary t e')
  | binary {e e'} (t) {u u'} : Expr.Matches k e e' → Expr.Matches k u u' →
      Expr.Matches k (.binary e t u) (.binary e' t u')
  | logical {e e'} (t) {u u'} : Expr.Matches k e e' → Expr.Matches k u u' →
      Expr.Matches k (.logical e t u) (.logical e' t u')
  | variable {id id' hop t t'} : μ.ref id id' hop → μ.Names (k.At hop) t t' →
      Expr.Matches k (.variable id t) (.variable id' t')
  | assign {id id' hop t t' e e'} : μ.ref id id' hop → μ.Names (k.At hop) t t' →
      Expr.Matches k e e' → Expr.Matches k (.assign id t e) (.assign id' t' e')
  | call {e e'} (t) {es es'} : Expr.Matches k e e' → Expr.MatchesEach k es es' →
      Expr.Matches k (.call e t es) (.call e' t es')
  | get {e e'} (t) : Expr.Matches k e e' → Expr.Matches k (.get e t) (.get e' t)
  | set {e e'} (t) {u u'} : Expr.Matches k e e' → Expr.Matches k u u' →
      Expr.Matches k (.set e t u) (.set e' t u')
  | this {id id' hop t} : μ.ref id id' hop → μ.Fixes t.lexeme →
      Expr.Matches k (.this id t) (.this id' t)
  | super {id id' hop t} (u) : μ.ref id id' hop → μ.Fixes t.lexeme →
      Expr.Matches k (.super id t u) (.super id' t u)

inductive Expr.MatchesEach (k : Place) : List Expr → List Expr → Prop where
  | nil : Expr.MatchesEach k [] []
  | cons {e e' es es'} : Expr.Matches k e e' → Expr.MatchesEach k es es' →
      Expr.MatchesEach k (e :: es) (e' :: es')

end

/-- The place as seen from the frame in which a class declares its methods. -/
def Place.ofClass (k : Place) (superclass : Option Expr) : Place :=
  if superclass.isSome then k.inner else k

mutual

inductive Stmt.Matches : Place → Stmt → Stmt → Prop where
  | expression {k : Place} {e e'} : e.Matches μ k e' →
      Stmt.Matches k (.expression e) (.expression e')
  | print {k : Place} {e e'} : e.Matches μ k e' → Stmt.Matches k (.print e) (.print e')
  | var {k : Place} {t t' e e'} : μ.Names (k = some 0) t t' → Option.Rel (Expr.Matches μ k) e e' →
      Stmt.Matches k (.var t e) (.var t' e')
  | block {k k' : Place} {ss ss'} : k.Opens k' → Stmt.MatchesEach k' ss ss' →
      Stmt.Matches k (.block ss) (.block ss')
  | ifThen {k : Place} {e e' s s'} : e.Matches μ k e' → Stmt.Matches k s s' →
      Stmt.Matches k (.ifThen e s) (.ifThen e' s')
  | ifElse {k : Place} {e e' s s' u u'} : e.Matches μ k e' → Stmt.Matches k s s' →
      Stmt.Matches k u u' → Stmt.Matches k (.ifElse e s u) (.ifElse e' s' u')
  | loop {k : Place} {e e' s s'} : e.Matches μ k e' → Stmt.Matches k s s' →
      Stmt.Matches k (.loop e s) (.loop e' s')
  | function {k : Place} {d d'} : (k = some 0 → μ.Fixes d.name.lexeme) →
      FunctionDecl.Matches k d d' → Stmt.Matches k (.function d) (.function d')
  | ret {k : Place} (t) {e e'} : Option.Rel (Expr.Matches μ k) e e' →
      Stmt.Matches k (.ret t e) (.ret t e')
  | classDecl {k : Place} {t e e' ds ds'} : (k = some 0 → μ.Fixes t.lexeme) →
      Option.Rel (Expr.Matches μ k) e e' →
      FunctionDecl.MatchesEach (k.ofClass e).inner ds ds' →
      Stmt.Matches k (.classDecl t e ds) (.classDecl t e' ds')

inductive Stmt.MatchesEach : Place → List Stmt → List Stmt → Prop where
  | nil (k : Place) : Stmt.MatchesEach k [] []
  | cons {k : Place} {s s' ss ss'} : Stmt.Matches k s s' → Stmt.MatchesEach k ss ss' →
      Stmt.MatchesEach k (s :: ss) (s' :: ss')

/-- Declarations of functions that match where they are declared in a scope at `k`. -/
inductive FunctionDecl.Matches : Place → FunctionDecl → FunctionDecl → Prop where
  | mk {k k' : Place} (t) {ps ps' ss ss'} : k.Opens k' →
      List.Forall₂ (μ.Names (k' = some 0)) ps ps' → Stmt.MatchesEach k' ss ss' →
      FunctionDecl.Matches k (.mk t ps ss) (.mk t ps' ss')

inductive FunctionDecl.MatchesEach : Place → List FunctionDecl → List FunctionDecl → Prop where
  | nil (k : Place) : FunctionDecl.MatchesEach k [] []
  | cons {k : Place} {d d' ds ds'} : FunctionDecl.Matches k d d' →
      FunctionDecl.MatchesEach k ds ds' → FunctionDecl.MatchesEach k (d :: ds) (d' :: ds')

end

end Trees

namespace FunctionDecl.Matches

variable {μ : Matching} {k : Place} {d d' : FunctionDecl}

theorem name (h : d.Matches μ k d') : d'.name = d.name := by
  cases h with
  | mk => rfl

theorem arity (h : d.Matches μ k d') : d'.arity = d.arity := by
  cases h with
  | mk _ _ hps => exact hps.length_eq.symm

theorem isInit (h : d.Matches μ k d') : d'.isInit = d.isInit := by
  simp only [FunctionDecl.isInit, h.name]

/-- The body and the parameters match in the scope that the function opens. -/
theorem exists_body (h : d.Matches μ k d') : ∃ k', k.Opens k' ∧
    List.Forall₂ (μ.Names (k' = some 0)) d.params d'.params ∧
      Stmt.MatchesEach μ k' d.body d'.body := by
  cases h with
  | mk _ hopens hps hss => exact ⟨_, hopens, hps, hss⟩

end FunctionDecl.Matches

/-! ### More references -/

/-- A matching that pairs more references. -/
structure Matching.Extends (μ' μ : Matching) : Prop where
  old : μ'.old = μ.old
  new : μ'.new = μ.new
  ref {id id' : ExprId} {hop : Option Nat} : μ.ref id id' hop → μ'.ref id id' hop

section Mono

variable {μ μ' : Matching}

theorem Matching.Fixes.mono (hμ : μ'.Extends μ) {n : String} (h : μ.Fixes n) : μ'.Fixes n := by
  rw [Fixes, hμ.old, hμ.new]
  exact h

theorem Matching.Names.mono (hμ : μ'.Extends μ) {here : Prop} {t t' : Token}
    (h : μ.Names here t t') : μ'.Names here t t' := by
  cases h with
  | same h => exact .same fun hhere => (h hhere).mono hμ
  | renamed h ht =>
      rw [← hμ.new]
      exact .renamed h (ht.trans hμ.old.symm)

mutual

theorem Expr.Matches.mono (hμ : μ'.Extends μ) {k : Place} : {e e' : Expr} → e.Matches μ k e' →
    e.Matches μ' k e'
  | _, _, .literal value => .literal value
  | _, _, .grouping h => .grouping (h.mono hμ)
  | _, _, .unary t h => .unary t (h.mono hμ)
  | _, _, .binary t h hu => .binary t (h.mono hμ) (hu.mono hμ)
  | _, _, .logical t h hu => .logical t (h.mono hμ) (hu.mono hμ)
  | _, _, .variable hid ht => .variable (hμ.ref hid) (ht.mono hμ)
  | _, _, .assign hid ht h => .assign (hμ.ref hid) (ht.mono hμ) (h.mono hμ)
  | _, _, .call t h hs => .call t (h.mono hμ) (hs.mono hμ)
  | _, _, .get t h => .get t (h.mono hμ)
  | _, _, .set t h hu => .set t (h.mono hμ) (hu.mono hμ)
  | _, _, .this hid ht => .this (hμ.ref hid) (ht.mono hμ)
  | _, _, .super u hid ht => .super u (hμ.ref hid) (ht.mono hμ)

theorem Expr.MatchesEach.mono (hμ : μ'.Extends μ) {k : Place} : {es es' : List Expr} →
    MatchesEach μ k es es' → MatchesEach μ' k es es'
  | _, _, .nil => .nil
  | _, _, .cons h hs => .cons (h.mono hμ) (hs.mono hμ)

end

theorem Expr.matches?_mono (hμ : μ'.Extends μ) {k : Place} : {e e' : Option Expr} →
    Option.Rel (Expr.Matches μ k) e e' → Option.Rel (Expr.Matches μ' k) e e'
  | _, _, .none => .none
  | _, _, .some h => .some (h.mono hμ)

mutual

theorem Stmt.Matches.mono (hμ : μ'.Extends μ) : {k : Place} → {s s' : Stmt} →
    s.Matches μ k s' → s.Matches μ' k s'
  | _, _, _, .expression h => .expression (h.mono hμ)
  | _, _, _, .print h => .print (h.mono hμ)
  | _, _, _, .var ht h => .var (ht.mono hμ) (Expr.matches?_mono hμ h)
  | _, _, _, .block hk hs => .block hk (hs.mono hμ)
  | _, _, _, .ifThen h hs => .ifThen (h.mono hμ) (hs.mono hμ)
  | _, _, _, .ifElse h hs hu => .ifElse (h.mono hμ) (hs.mono hμ) (hu.mono hμ)
  | _, _, _, .loop h hs => .loop (h.mono hμ) (hs.mono hμ)
  | _, _, _, .function ht hd => .function (fun hk => (ht hk).mono hμ) (hd.mono hμ)
  | _, _, _, .ret t h => .ret t (Expr.matches?_mono hμ h)
  | _, _, _, .classDecl ht h hds =>
      .classDecl (fun hk => (ht hk).mono hμ) (Expr.matches?_mono hμ h) (hds.mono hμ)

theorem Stmt.MatchesEach.mono (hμ : μ'.Extends μ) : {k : Place} → {ss ss' : List Stmt} →
    Stmt.MatchesEach μ k ss ss' → Stmt.MatchesEach μ' k ss ss'
  | _, _, _, .nil k => .nil k
  | _, _, _, .cons h hs => .cons (h.mono hμ) (hs.mono hμ)

theorem FunctionDecl.Matches.mono (hμ : μ'.Extends μ) : {k : Place} → {d d' : FunctionDecl} →
    d.Matches μ k d' → d.Matches μ' k d'
  | _, _, _, .mk t hk hps hs => .mk t hk (hps.imp fun _ _ ht => ht.mono hμ) (hs.mono hμ)

theorem FunctionDecl.MatchesEach.mono (hμ : μ'.Extends μ) : {k : Place} →
    {ds ds' : List FunctionDecl} → FunctionDecl.MatchesEach μ k ds ds' →
    FunctionDecl.MatchesEach μ' k ds ds'
  | _, _, _, .nil k => .nil k
  | _, _, _, .cons h hs => .cons (h.mono hμ) (hs.mono hμ)

end

end Mono

end ScriptLang
