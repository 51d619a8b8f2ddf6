import ScriptLang.Proofs.Matching.Heaps
import ScriptLang.Proofs.Renaming.Scopes

/-! The hop counts of programs that match: a name that is new to a program is found where the name
it stands for was found. -/

namespace ScriptLang

/-! ### Scopes under other names -/

theorem Place.inner_at {k : Place} {hop : Option Nat} :
    k.inner.At (hop.map (· + 1)) ↔ k.At hop := by
  cases k <;> cases hop <;> simp [inner, At]

theorem Place.Opens.unique {i j k : Place} (hi : i.Opens k) (hj : j.Opens k) : i = j := by
  cases hi with
  | renamed =>
      generalize hk : (some 0 : Place) = k at hj
      cases hj with
      | plain => exact absurd hk.symm (inner_ne_zero _)
      | renamed => rfl
  | plain =>
      generalize hk : i.inner = k at hj
      cases hj with
      | plain => exact Option.map_injective (fun _ _ => Nat.succ.inj) hk
      | renamed => exact absurd hk (inner_ne_zero _)

namespace Bindings

variable {α : Type} {ρ : String → String}

theorem contains_rename (hρ : Function.Injective ρ) (b : Bindings α) (n : String) :
    (b.rename ρ).contains (ρ n) = b.contains n := by
  rw [contains, contains, get?_rename hρ]

theorem rename_of_eq (hρ : ∀ n, ρ n = n) (b : Bindings α) : b.rename ρ = b := by
  simp [rename, hρ]

end Bindings

namespace Matching

variable {μ : Matching}

theorem name_name (n : String) : μ.name (μ.name n) = n := Equiv.swap_apply_self μ.old μ.new n

theorem name_eq {n : String} (h : n ≠ μ.new) : μ.name n = n ∨ μ.name n = μ.new := by
  by_cases hold : n = μ.old
  · exact .inr (by rw [hold, name, Equiv.swap_apply_left])
  · exact .inl (Fixes.name_eq ⟨hold, h⟩)

/-- What a name that is found in the innermost scope is called there. -/
theorem eq_nameIn {k : Place} {n n' : String} (hhere : k.At (some 0) → n' = μ.name n)
    (helse : ¬k.At (some 0) → n' = n) : n' = μ.nameIn k n := by
  rw [Place.at_some] at hhere helse
  by_cases hk : k = some 0
  · rw [nameIn, if_pos hk, hhere hk]
  · rw [nameIn, if_neg hk, helse hk]

/-- A scope that has neither a name nor the new one does not have the name under any name. -/
theorem contains_name {scope : Scope} (hnew : scope.contains μ.new = false) {n : String}
    (hn : n ≠ μ.new) (h : scope.contains n = false) : scope.contains (μ.name n) = false := by
  rcases name_eq hn with heq | heq
  · rw [heq, h]
  · rw [heq, hnew]

end Matching

/-- Scopes that have the same names, up to the other name in the scope at `k`, and nowhere the new
name. -/
inductive Scope.MatchesEach (μ : Matching) : Place → List Scope → List Scope → Prop where
  | nil : MatchesEach μ none [] []
  | cons {j k : Place} {ss ss' : List Scope} (scope : Scope) : j.Opens k →
      scope.contains μ.new = false → MatchesEach μ j ss ss' →
      MatchesEach μ k (scope :: ss) (scope.rename (μ.nameIn k) :: ss')

namespace Scope.MatchesEach

variable {μ : Matching} {k : Place} {ss ss' : List Scope}

theorem eq_of_none (h : MatchesEach μ k ss ss') (hk : k = none) : ss' = ss := by
  induction h with
  | nil => rfl
  | cons scope hopens _ _ ih =>
      rw [ih (hopens.eq_none hk), Bindings.rename_of_eq]
      intro n
      exact Matching.nameIn_eq fun hzero => by rw [hk] at hzero; cases hzero

/-- A name is found where the name it stands for is found. -/
theorem findIdx? (h : MatchesEach μ k ss ss') {n n' : String} (hn : n ≠ μ.new)
    (hhere : k.At (ss.findIdx? (·.contains n)) → n' = μ.name n)
    (helse : ¬k.At (ss.findIdx? (·.contains n)) → n' = n) :
    ss'.findIdx? (·.contains n') = ss.findIdx? (·.contains n) := by
  induction h with
  | nil => rfl
  | @cons j k ss ss' scope hopens hnew hss ih =>
      have hn' : n' = μ.name n ∨ n' = n :=
        (Classical.em _).imp hhere helse
      rw [List.findIdx?_cons] at hhere helse ⊢
      rw [List.findIdx?_cons]
      cases hcontains : scope.contains n with
      | true =>
          simp only [hcontains, if_true] at hhere helse ⊢
          rw [Matching.eq_nameIn hhere helse, Bindings.contains_rename (μ.nameIn_injective k),
            hcontains, if_pos rfl]
      | false =>
          simp only [hcontains, Bool.false_eq_true, if_false] at hhere helse ⊢
          cases hopens with
          | plain =>
              rw [Place.inner_at] at hhere helse
              have hscope : scope.rename (μ.nameIn j.inner) = scope :=
                Bindings.rename_of_eq
                  (fun n => Matching.nameIn_eq fun hk => absurd hk (Place.inner_ne_zero j)) scope
              have hnone : scope.contains n' = false := by
                rcases hn' with rfl | rfl
                · exact Matching.contains_name hnew hn hcontains
                · exact hcontains
              rw [hscope, hnone, ih hhere helse]
              rfl
          | renamed =>
              have helse : n' = n := by
                apply helse
                cases ss.findIdx? (·.contains n) <;> simp [Place.At]
              have hnone : (scope.rename (μ.nameIn (some 0))).contains n' = false := by
                have hscope : scope.rename (μ.nameIn (some 0)) = scope.rename μ.name := rfl
                rw [hscope, helse, ← μ.name_name n, Bindings.contains_rename μ.name_injective]
                exact Matching.contains_name hnew hn hcontains
              rw [hnone, hss.eq_of_none rfl, helse]
              rfl

/-- In the innermost scope a name says what the name it stands for says. -/
theorem get?_head {scope scope' : Scope} (h : MatchesEach μ k (scope :: ss) (scope' :: ss'))
    {n n' : String} (hn : n ≠ μ.new)
    (hhere : k.At ((scope :: ss).findIdx? (·.contains n)) → n' = μ.name n)
    (helse : ¬k.At ((scope :: ss).findIdx? (·.contains n)) → n' = n) :
    scope'.get? n' = scope.get? n := by
  have hfound := h.findIdx? hn hhere helse
  simp only [List.findIdx?_cons] at hfound hhere helse
  cases hcontains : scope.contains n with
  | true =>
      simp only [hcontains, if_true] at hhere helse
      cases h with
      | cons _ _ _ _ =>
          rw [Matching.eq_nameIn hhere helse, Bindings.get?_rename (μ.nameIn_injective k)]
  | false =>
      have hnone : scope'.contains n' = false := by
        cases hcontains' : scope'.contains n' with
        | false => rfl
        | true =>
            rw [hcontains, hcontains'] at hfound
            simp at hfound
      simp only [Bindings.contains, Option.isSome_eq_false_iff, Option.isNone_iff_eq_none] at *
      rw [hnone, hcontains]

end Scope.MatchesEach

/-- Walks that found the same: the same names up to the other one, the same hop counts, and as many
errors. -/
structure ScopeWalk.Matches (μ : Matching) (k : Place) (w w' : ScopeWalk) : Prop where
  scopes : Scope.MatchesEach μ k w.scopes w'.scopes
  hops : w'.hops = w.hops
  errors : w'.errors.length = w.errors.length

namespace ScopeWalk.Matches

variable {μ : Matching} {j k : Place} {w w' : ScopeWalk}

theorem error (hw : w.Matches μ k w') (t t' : Token) (cause : ScopeCause) :
    (w.error t cause).Matches μ k (w'.error t' cause) :=
  ⟨hw.scopes, hw.hops, congrArg (· + 1) hw.errors⟩

theorem openScope (hw : w.Matches μ j w') (hopens : j.Opens k) :
    w.openScope.Matches μ k w'.openScope :=
  ⟨.cons .empty hopens rfl hw.scopes, hw.hops, hw.errors⟩

theorem closeScope (hw : w.Matches μ k w') (hopens : j.Opens k) :
    w.closeScope.Matches μ j w'.closeScope := by
  obtain ⟨scopes, hops, errors⟩ := w
  obtain ⟨scopes', hops', errors'⟩ := w'
  obtain ⟨hscopes, hhops, herrors⟩ := hw
  refine ⟨?_, hhops, herrors⟩
  cases hscopes with
  | nil =>
      obtain rfl : j = none := hopens.eq_none rfl
      exact .nil
  | cons _ hopens' _ hss => exact hopens.unique hopens' ▸ hss

theorem define (hw : w.Matches μ k w') {n n' : String} (hn : n ≠ μ.new)
    (hname : n' = μ.nameIn k n) : (w.define n).Matches μ k (w'.define n') := by
  obtain ⟨scopes, hops, errors⟩ := w
  obtain ⟨scopes', hops', errors'⟩ := w'
  obtain ⟨hscopes, hhops, herrors⟩ := hw
  cases hscopes with
  | nil => exact ⟨.nil, hhops, herrors⟩
  | cons scope hopens hnew hss =>
      simp only [ScopeWalk.define, hname, Bindings.insert_rename (μ.nameIn_injective k)]
      exact ⟨.cons _ hopens (by simp [Bindings.contains_insert, hn, hnew]) hss, hhops, herrors⟩

theorem declare (hw : w.Matches μ k w') {t t' : Token} (hn : t.lexeme ≠ μ.new)
    (ht : μ.Names (k = some 0) t t') : (w.declare t).Matches μ k (w'.declare t') := by
  obtain ⟨scopes, hops, errors⟩ := w
  obtain ⟨scopes', hops', errors'⟩ := w'
  obtain ⟨hscopes, hhops, herrors⟩ := hw
  have hname := ht.lexeme Iff.rfl
  cases hscopes with
  | nil => exact ⟨.nil, hhops, herrors⟩
  | cons scope hopens hnew hss =>
      have hcontains := Bindings.contains_rename (μ.nameIn_injective k) scope t.lexeme
      simp only [ScopeWalk.declare, hname, hcontains]
      split
      · exact error ⟨.cons scope hopens hnew hss, hhops, herrors⟩ t t' _
      · rw [Bindings.insert_rename (μ.nameIn_injective k)]
        exact ⟨.cons _ hopens (by simp [Bindings.contains_insert, hn, hnew]) hss, hhops, herrors⟩

theorem declareComplete (hw : w.Matches μ k w') {t t' : Token} (hn : t.lexeme ≠ μ.new)
    (ht : μ.Names (k = some 0) t t') :
    (w.declareComplete t).Matches μ k (w'.declareComplete t') :=
  (hw.declare hn ht).define hn (ht.lexeme Iff.rfl)

theorem foldl_declareComplete {ps ps' : List Token}
    (hps : List.Forall₂ (μ.Names (k = some 0)) ps ps') (hfresh : ∀ p ∈ ps, p.lexeme ≠ μ.new)
    (hw : w.Matches μ k w') :
    (ps.foldl ScopeWalk.declareComplete w).Matches μ k
      (ps'.foldl ScopeWalk.declareComplete w') := by
  induction hps generalizing w w' with
  | nil => exact hw
  | cons hp _ ih =>
      obtain ⟨hfirst, hrest⟩ := List.forall_mem_cons.mp hfresh
      exact ih hrest (hw.declareComplete hfirst hp)

variable {t t' : Token} (hn : t.lexeme ≠ μ.new)
  (ht : μ.Names (k.At (w.scopes.findIdx? (·.contains t.lexeme))) t t')
include hn ht

theorem refer (hw : w.Matches μ k w') (id : ExprId) :
    (w.refer id t).Matches μ k (w'.refer id t') := by
  have hfound := hw.scopes.findIdx? hn ht.lexeme_of_here
    fun h => congrArg Token.lexeme (ht.eq_of_not_here h)
  refine ⟨?_, ?_, by simp [hw.errors]⟩
  · rw [refer_scopes, refer_scopes]
    exact hw.scopes
  · rw [refer_hops, refer_hops, hfound, hw.hops]

theorem checkComplete (hw : w.Matches μ k w') :
    (w.checkComplete t).Matches μ k (w'.checkComplete t') := by
  obtain ⟨scopes, hops, errors⟩ := w
  obtain ⟨scopes', hops', errors'⟩ := w'
  obtain ⟨hscopes, hhops, herrors⟩ := hw
  have hwalk := hscopes
  cases hscopes with
  | nil => exact ⟨.nil, hhops, herrors⟩
  | cons scope hopens hnew hss =>
      have hget := hwalk.get?_head hn ht.lexeme_of_here
        fun h => congrArg Token.lexeme (ht.eq_of_not_here h)
      simp only [ScopeWalk.checkComplete, hget]
      split
      · exact error ⟨hwalk, hhops, herrors⟩ t t' _
      · exact ⟨hwalk, hhops, herrors⟩

end ScopeWalk.Matches

/-! ### Programs -/

/-- A matching of programs with the same ids in which the other name is new, where the table has
the hop counts of the first program. -/
structure Matching.Follows (μ : Matching) (l : Likeness) (program : List Stmt)
    (table : ExprId → Option Nat) : Prop where
  fresh {t t' : Token} : l.token t t' → t.lexeme ≠ μ.new
  ref {id id' : ExprId} {hop : Option Nat} : μ.ref id id' hop → id' = id ∧ table id = hop
  accepted : (Point.root program).Accepted
  recorded : (Point.root program).Recorded table

section Resolve

variable {μ : Matching} {l : Likeness} {program : List Stmt} {table : ExprId → Option Nat}
  {k : Place} {setting : Setting} {scopes : List Scope} {sites : List Site}

/-- The references at a point have the ids and the hop counts that are found there. -/
theorem Matching.Follows.reference (hμ : μ.Follows l program table) {e : Expr}
    (hv : Visits program ⟨.expr e, setting, scopes, sites⟩) {id id' : ExprId} {hop : Option Nat}
    {t t' : Token} (he : e.reference = some (id, t)) (hid : μ.ref id id' hop)
    (ht : μ.Names (k.At hop) t t') :
    id' = id ∧ μ.Names (k.At (scopes.findIdx? (·.contains t.lexeme))) t t' := by
  obtain ⟨haccepted, hrecorded⟩ := hv.recorded hμ.accepted hμ.recorded
  obtain ⟨rfl, rfl⟩ := hμ.ref hid
  rw [Point.recorded_reference haccepted hrecorded he] at ht
  exact ⟨rfl, ht⟩

theorem Visits.inner {e u : Expr} (hv : Visits program ⟨.expr e, setting, scopes, sites⟩)
    (hu : u ∈ e.parts) : Visits program ⟨.expr u, setting, scopes, sites⟩ :=
  hv.part (List.mem_map_of_mem hu)

theorem Visits.wellFormed {p : Point} (hv : Visits program p) (hμ : μ.Follows l program table) :
    p.node.WellFormed :=
  (hv.recorded hμ.accepted hμ.recorded).1.wellFormed

mutual

theorem Expr.Matches.resolve (hμ : μ.Follows l program table) : {e e' : Expr} →
    e.Matches μ k e' → e.Alike l e → {w w' : ScopeWalk} → w.Matches μ k w' →
    Visits program ⟨.expr e, setting, w.scopes, sites⟩ →
    (e.resolve setting w).Matches μ k (e'.resolve setting w')
  | _, _, .literal _, _, _, _, hw, _ => hw
  | _, _, .grouping h, .grouping hl, _, _, hw, hv => h.resolve hμ hl hw (hv.inner (.head _))
  | _, _, .unary _ h, .unary _ hl, _, _, hw, hv => h.resolve hμ hl hw (hv.inner (.head _))
  | _, _, .binary _ h hu, .binary hl _ hlu, _, _, hw, hv =>
      hu.resolve hμ hlu (h.resolve hμ hl hw (hv.inner (.head _))) (by
        rw [Expr.resolve_scopes]
        exact hv.inner (.tail _ (.head _)))
  | _, _, .logical _ h hu, .logical hl _ hlu, _, _, hw, hv =>
      hu.resolve hμ hlu (h.resolve hμ hl hw (hv.inner (.head _))) (by
        rw [Expr.resolve_scopes]
        exact hv.inner (.tail _ (.head _)))
  | _, _, .variable hid ht, .variable _ hl, w, w', hw, hv => by
      obtain ⟨rfl, ht⟩ := hμ.reference hv rfl hid ht
      have hcheck := hw.checkComplete (hμ.fresh hl) ht
      exact ScopeWalk.Matches.refer (hμ.fresh hl) (by rwa [ScopeWalk.checkComplete_scopes]) hcheck _
  | _, _, .assign hid ht h, .assign _ hlt hl, _, _, hw, hv => by
      obtain ⟨rfl, ht⟩ := hμ.reference hv rfl hid ht
      have hvalue := h.resolve hμ hl hw (hv.inner (.head _))
      exact ScopeWalk.Matches.refer (hμ.fresh hlt) (by rwa [Expr.resolve_scopes]) hvalue _
  | _, _, .call _ h hs, .call hl _ hls, _, _, hw, hv =>
      hs.resolve hμ hls (h.resolve hμ hl hw (hv.inner (.head _))) (by
        rw [Expr.resolve_scopes]
        exact fun u hu => hv.inner (.tail _ hu))
  | _, _, .get _ h, .get hl _, _, _, hw, hv => h.resolve hμ hl hw (hv.inner (.head _))
  | _, _, .set _ h hu, .set hl _ hlu, _, _, hw, hv =>
      h.resolve hμ hl (hu.resolve hμ hlu hw (hv.inner (.head _))) (by
        rw [Expr.resolve_scopes]
        exact hv.inner (.tail _ (.head _)))
  | _, _, .this hid ht, .this _ hl, _, _, hw, hv => by
      obtain ⟨rfl, ht⟩ := hμ.reference (k := k) hv rfl hid (.same fun _ => ht)
      rw [Expr.resolve, Expr.resolve]
      split
      · exact hw.error _ _ _
      · exact hw.refer (hμ.fresh hl) ht _
  | _, _, .super _ hid ht, .super _ hl _, _, _, hw, hv => by
      obtain ⟨rfl, ht⟩ := hμ.reference (k := k) hv rfl hid (.same fun _ => ht)
      rw [Expr.resolve, Expr.resolve]
      split
      · exact hw.error _ _ _
      · exact hw.error _ _ _
      · exact hw.refer (hμ.fresh hl) ht _

theorem Expr.MatchesEach.resolve (hμ : μ.Follows l program table) : {es es' : List Expr} →
    MatchesEach μ k es es' → AlikeEach l es es → {w w' : ScopeWalk} → w.Matches μ k w' →
    (∀ e ∈ es, Visits program ⟨.expr e, setting, w.scopes, sites⟩) →
    (Expr.resolveEach setting es w).Matches μ k (Expr.resolveEach setting es' w')
  | _, _, .nil, _, _, _, hw, _ => hw
  | _, _, .cons h hs, .cons hl hls, _, _, hw, hv =>
      hs.resolve hμ hls (h.resolve hμ hl hw (hv _ (.head _))) (by
        rw [Expr.resolve_scopes]
        exact fun u hu => hv u (.tail _ hu))

end

theorem Expr.matches?_resolve (hμ : μ.Follows l program table) {e e' : Option Expr}
    (h : Option.Rel (Expr.Matches μ k) e e') (hl : Option.Rel (Expr.Alike l) e e)
    {w w' : ScopeWalk} (hw : w.Matches μ k w')
    (hv : ∀ u ∈ e, Visits program ⟨.expr u, setting, w.scopes, sites⟩) :
    (Expr.resolve? setting e w).Matches μ k (Expr.resolve? setting e' w') := by
  cases h with
  | none => exact hw
  | some h =>
      cases hl with
      | some hl => exact h.resolve hμ hl hw (hv _ rfl)

/-- A superclass does not get the name of its class. -/
theorem Expr.Matches.resolveSuperclass (hμ : μ.Follows l program table) {id : ExprId}
    {parent : Token} {e' : Expr} (h : (Expr.variable id parent).Matches μ k e')
    (hl : (Expr.variable id parent).Alike l (.variable id parent)) {name : Token}
    (hname : name.lexeme ≠ μ.new) (hne : parent.lexeme ≠ name.lexeme) {w w' : ScopeWalk}
    (hw : w.Matches μ k w')
    (hv : Visits program
      ⟨.expr (.variable id parent), { setting with cls := .derived }, w.scopes, sites⟩) :
    ((Expr.variable id parent).resolveSuperclass setting name w).Matches μ k.inner
      (e'.resolveSuperclass setting name w') := by
  have hresolve := h.resolve hμ hl hw hv
  cases h with
  | @«variable» _ id' _ _ parent' hid ht =>
      have hne' : parent'.lexeme ≠ name.lexeme := by
        cases ht with
        | same => exact hne
        | renamed => exact hname.symm
      simp only [Expr.resolveSuperclass, hne, hne', if_false]
      exact (hresolve.openScope (.plain k)).define Matching.fixes_super.2
        Matching.fixes_super.nameIn_eq.symm

theorem ScopeWalk.Matches.checkReturn {w w' : ScopeWalk} (hw : w.Matches μ k w')
    (setting : Setting) (t : Token) (hasValue : Bool) :
    (w.checkReturn setting t hasValue).Matches μ k (w'.checkReturn setting t hasValue) := by
  unfold ScopeWalk.checkReturn
  split
  · exact hw.error t t _
  · split
    · exact hw.error t t _
    · exact hw
  · exact hw

/-- The scope in which the methods of a class stand. -/
theorem ScopeWalk.Matches.openThis {w w' : ScopeWalk} (hw : w.Matches μ k w') :
    (w.openScope.define "this").Matches μ k.inner (w'.openScope.define "this") :=
  (hw.openScope (.plain k)).define Matching.fixes_this.2 Matching.fixes_this.nameIn_eq.symm

theorem Token.AlikeEach.fresh (hμ : μ.Follows l program table) {ps : List Token}
    (hps : Token.AlikeEach l ps ps) : ∀ p ∈ ps, p.lexeme ≠ μ.new := by
  induction ps with
  | nil => nofun
  | cons p ps ih =>
      cases hps with
      | cons hp hps => exact List.forall_mem_cons.mpr ⟨hμ.fresh hp, ih hps⟩

mutual

theorem Stmt.Matches.resolve (hμ : μ.Follows l program table) : {k : Place} → {s s' : Stmt} →
    s.Matches μ k s' → s.Alike l s → {setting : Setting} → {sites : List Site} →
    {w w' : ScopeWalk} → w.Matches μ k w' →
    Visits program ⟨.stmt s, setting, w.scopes, sites⟩ →
    (s.resolve setting w).Matches μ k (s'.resolve setting w')
  | _, _, _, .expression h, .expression hl, _, _, _, _, hw, hv =>
      h.resolve hμ hl hw (hv.part (.head _))
  | _, _, _, .print h, .print hl, _, _, _, _, hw, hv => h.resolve hμ hl hw (hv.part (.head _))
  | _, _, _, .var ht h, .var hlt hl, _, _, _, _, hw, hv => by
      have hdeclare := hw.declare (hμ.fresh hlt) ht
      have hvalue := Expr.matches?_resolve hμ h hl hdeclare fun u hu => by
        simpa using hv.part (List.mem_map_of_mem (Option.mem_toList.mpr hu))
      exact hvalue.define (hμ.fresh hlt) (ht.lexeme Iff.rfl)
  | _, _, _, .block hopens hs, .block hls, _, _, _, _, hw, hv =>
      (hs.resolve hμ hls (hw.openScope hopens) (hv.part (.head _))).closeScope hopens
  | _, _, _, .ifThen h hs, .ifThen hl hls, _, _, _, _, hw, hv =>
      hs.resolve hμ hls (h.resolve hμ hl hw (hv.part (.head _))) (by
        rw [Expr.resolve_scopes]
        exact hv.part (.tail _ (.head _)))
  | _, _, _, .ifElse h hs hu, .ifElse hl hls hlu, _, _, _, _, hw, hv => by
      have hwf := hv.wellFormed hμ
      have hcondition := h.resolve hμ hl hw (hv.part (.head _))
      have hthen := hs.resolve hμ hls hcondition (by
        rw [Expr.resolve_scopes]
        exact hv.part (.tail _ (.head _)))
      exact hu.resolve hμ hlu hthen (by
        rw [Stmt.resolve_scopes _ _ _ hwf.2.1.1, Stmt.after_of_declares hwf.2.1.2,
          Expr.resolve_scopes]
        exact hv.part (.tail _ (.tail _ (.head _))))
  | _, _, _, .loop h hs, .loop hl hls, _, _, _, _, hw, hv =>
      hs.resolve hμ hls (h.resolve hμ hl hw (hv.part (.head _))) (by
        rw [Expr.resolve_scopes]
        exact hv.part (.tail _ (.head _)))
  | _, .function d, .function d', .function hname hd, .function hl, _, _, _, _, hw, hv => by
      have hfresh : d.name.lexeme ≠ μ.new := by
        cases hl with
        | mk ht => exact hμ.fresh ht
      have hdeclare := hw.declareComplete hfresh (.same hname)
      have hdecl := hd.resolve hμ hl hdeclare (by simpa using hv.part (.head _))
      rw [Stmt.resolve, Stmt.resolve, hd.name]
      exact hdecl
  | _, _, _, .ret t .none, _, setting, _, _, _, hw, _ => hw.checkReturn setting t _
  | _, _, _, .ret t (.some h), .ret _ (.some hl), setting, _, _, _, hw, hv =>
      h.resolve hμ hl (hw.checkReturn setting t _) (by
        rw [ScopeWalk.checkReturn_scopes]
        exact hv.part (.head _))
  | _, _, _, .classDecl ht .none hds, .classDecl hlt _ hlds, _, _, _, _, hw, hv => by
      have hthis := (hw.declareComplete (hμ.fresh hlt) (.same ht)).openThis
      refine ScopeWalk.Matches.closeScope (hds.resolveMethods hμ hlds hthis fun d hd => ?_)
        (.plain _)
      have hpart := hv.part (List.mem_map_of_mem hd)
      exact ⟨_, by simpa [Point.method] using hpart⟩
  | _, _, _, .classDecl ht (.some h) hds, .classDecl hlt (.some hl) hlds, _, _, _, _, hw, hv => by
      obtain ⟨id, parent, rfl, hne⟩ :=
        Point.accepted_superclass (hv.recorded hμ.accepted hμ.recorded).1
      have hdeclare := hw.declareComplete (hμ.fresh hlt) (.same ht)
      have hsuper := h.resolveSuperclass hμ hl (hμ.fresh hlt) hne hdeclare
        (by simpa using hv.part (.head _))
      refine ScopeWalk.Matches.closeScope (ScopeWalk.Matches.closeScope
        (hds.resolveMethods hμ hlds hsuper.openThis fun d hd => ?_) (.plain _)) (.plain _)
      have hpart := hv.part (List.mem_cons_of_mem _ (List.mem_map_of_mem hd))
      exact ⟨_, by simpa [Point.method] using hpart⟩

theorem Stmt.MatchesEach.resolve (hμ : μ.Follows l program table) : {k : Place} →
    {ss ss' : List Stmt} → Stmt.MatchesEach μ k ss ss' → Stmt.AlikeEach l ss ss →
    {setting : Setting} → {sites : List Site} → {w w' : ScopeWalk} → w.Matches μ k w' →
    Visits program ⟨.stmts ss, setting, w.scopes, sites⟩ →
    (Stmt.resolveEach setting ss w).Matches μ k (Stmt.resolveEach setting ss' w')
  | _, _, _, .nil _, _, _, _, _, _, hw, _ => hw
  | _, _, _, .cons h hs, .cons hl hls, _, _, _, _, hw, hv =>
      hs.resolve hμ hls (h.resolve hμ hl hw (hv.part (.head _))) (by
        rw [Stmt.resolve_eq]
        exact hv.part (.tail _ (.head _)))

theorem FunctionDecl.Matches.resolve (hμ : μ.Follows l program table) : {k : Place} →
    {d d' : FunctionDecl} → d.Matches μ k d' → d.Alike l d → {setting : Setting} →
    {sites : List Site} → {w w' : ScopeWalk} → w.Matches μ k w' →
    Visits program ⟨.decl d, setting, w.scopes, sites⟩ →
    (d.resolve setting w).Matches μ k (d'.resolve setting w')
  | _, _, _, .mk _ hopens hps hs, .mk _ hlps hls, _, _, _, _, hw, hv => by
      have hparams := ScopeWalk.Matches.foldl_declareComplete hps (hlps.fresh hμ)
        (hw.openScope hopens)
      have hpart := hv.part (.head _)
      rw [ScopeWalk.foldl_declareComplete_scopes] at hpart
      exact (hs.resolve hμ hls hparams (by
        rwa [ScopeWalk.foldl_declareComplete_scopes])).closeScope hopens

theorem FunctionDecl.MatchesEach.resolveMethods (hμ : μ.Follows l program table) : {k : Place} →
    {ds ds' : List FunctionDecl} → FunctionDecl.MatchesEach μ k ds ds' →
    FunctionDecl.AlikeEach l ds ds → {setting : Setting} → {w w' : ScopeWalk} →
    w.Matches μ k w' →
    (∀ d ∈ ds, ∃ sites, Visits program ⟨.decl d, ⟨.ofMethod d, setting.cls⟩, w.scopes, sites⟩) →
    (FunctionDecl.resolveMethods setting ds w).Matches μ k
      (FunctionDecl.resolveMethods setting ds' w')
  | _, _, _, .nil _, _, _, _, _, hw, _ => hw
  | _, _, _, .cons h hs, .cons hl hls, _, _, _, hw, hv => by
      obtain ⟨⟨sites, hd⟩, hds⟩ := List.forall_mem_cons.mp hv
      rw [FunctionDecl.resolveMethods, FunctionDecl.resolveMethods, FunctionKind.ofMethod,
        FunctionKind.ofMethod, h.isInit]
      refine hs.resolveMethods hμ hls (h.resolve hμ hl hw hd) ?_
      rw [FunctionDecl.resolve_scopes]
      exact hds

end

/-- A program that matches an accepted one, and has its other name from nowhere in it, is accepted
with the same hop counts. -/
theorem Stmt.MatchesEach.hopCounts (hμ : μ.Follows l program table) {program' : List Stmt}
    (h : Stmt.MatchesEach μ none program program') (hl : Stmt.AlikeEach l program program)
    {hops : List (ExprId × Nat)} (hok : Stmt.hopCounts program = .ok hops) :
    Stmt.hopCounts program' = .ok hops := by
  have hstart : ScopeWalk.start.Matches μ none .start := ⟨.nil, rfl, rfl⟩
  have hwalk : ScopeWalk.Matches μ none (Point.root program).found (Point.root program').found :=
    h.resolve hμ hl hstart .program
  obtain ⟨herrors, rfl⟩ := Stmt.hopCounts_eq_ok_iff.mp hok
  refine Stmt.hopCounts_eq_ok_iff.mpr ⟨?_, by rw [hwalk.hops]⟩
  rw [← List.length_eq_zero_iff, hwalk.errors, herrors, List.length_nil]

end Resolve

end ScriptLang
