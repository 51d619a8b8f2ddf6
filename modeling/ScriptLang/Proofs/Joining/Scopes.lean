import ScriptLang.Proofs.Frames.Coherence
import ScriptLang.Proofs.Joining.Trees

/-! Scoping of programs that are alike, and of programs one after the other. -/

namespace ScriptLang

/-- Walks that found the same: the same names and hop counts, and as many errors. -/
structure ScopeWalk.Alike (w w' : ScopeWalk) : Prop where
  scopes : w'.scopes = w.scopes
  hops : w'.hops = w.hops
  errors : w'.errors.length = w.errors.length

namespace ScopeWalk.Alike

variable {w w' : ScopeWalk} {l : Likeness}

theorem refl (w : ScopeWalk) : w.Alike w := ⟨rfl, rfl, rfl⟩

theorem error (h : w.Alike w') (t t' : Token) (cause : ScopeCause) :
    (w.error t cause).Alike (w'.error t' cause) :=
  ⟨h.scopes, h.hops, congrArg (· + 1) h.errors⟩

theorem openScope (h : w.Alike w') : w.openScope.Alike w'.openScope :=
  ⟨congrArg (Bindings.empty :: ·) h.scopes, h.hops, h.errors⟩

theorem closeScope (h : w.Alike w') : w.closeScope.Alike w'.closeScope :=
  ⟨congrArg List.tail h.scopes, h.hops, h.errors⟩

theorem define (h : w.Alike w') (name : String) : (w.define name).Alike (w'.define name) := by
  unfold ScopeWalk.define
  rw [h.scopes]
  split
  · exact h
  · exact ⟨rfl, h.hops, h.errors⟩

theorem declare (h : w.Alike w') {t t' : Token} (ht : l.token t t') :
    (w.declare t).Alike (w'.declare t') := by
  unfold ScopeWalk.declare
  rw [h.scopes, l.lexeme ht]
  split
  · exact h
  · split
    · exact h.error t t' _
    · exact ⟨rfl, h.hops, h.errors⟩

theorem declareComplete (h : w.Alike w') {t t' : Token} (ht : l.token t t') :
    (w.declareComplete t).Alike (w'.declareComplete t') := by
  unfold ScopeWalk.declareComplete
  rw [l.lexeme ht]
  exact (h.declare ht).define t.lexeme

theorem refer (h : w.Alike w') (id : ExprId) {t t' : Token} (ht : l.token t t') :
    (w.refer id t).Alike (w'.refer id t') := by
  unfold ScopeWalk.refer
  rw [h.scopes, l.lexeme ht]
  split
  · exact ⟨rfl, congrArg (_ :: ·) h.hops, h.errors⟩
  · exact h

theorem checkComplete (h : w.Alike w') {t t' : Token} (ht : l.token t t') :
    (w.checkComplete t).Alike (w'.checkComplete t') := by
  unfold ScopeWalk.checkComplete
  rw [h.scopes, l.lexeme ht]
  split
  · exact h
  · split
    · exact h.error t t' _
    · exact h

theorem checkReturn (h : w.Alike w') (setting : Setting) (t t' : Token) (hasValue : Bool) :
    (w.checkReturn setting t hasValue).Alike (w'.checkReturn setting t' hasValue) := by
  unfold ScopeWalk.checkReturn
  split
  · exact h.error t t' _
  · split
    · exact h.error t t' _
    · exact h
  · exact h

theorem foldl_declareComplete {ts ts' : List Token} (hts : Token.AlikeEach l ts ts')
    (h : w.Alike w') :
    (ts.foldl ScopeWalk.declareComplete w).Alike (ts'.foldl ScopeWalk.declareComplete w') := by
  induction hts generalizing w w' with
  | nil => exact h
  | cons ht _ ih => exact ih (h.declareComplete ht)

end ScopeWalk.Alike

section Resolve

variable {l : Likeness}

mutual

theorem Expr.Alike.resolve (setting : Setting) : {e e' : Expr} → e.Alike l e' →
    {w w' : ScopeWalk} → w.Alike w' → (e.resolve setting w).Alike (e'.resolve setting w')
  | _, _, .literal _, _, _, hw => hw
  | _, _, .grouping h, _, _, hw => h.resolve setting hw
  | _, _, .unary _ h, _, _, hw => h.resolve setting hw
  | _, _, .binary h _ hu, _, _, hw => hu.resolve setting (h.resolve setting hw)
  | _, _, .logical h _ hu, _, _, hw => hu.resolve setting (h.resolve setting hw)
  | _, _, .variable _ ht, _, _, hw => (hw.checkComplete ht).refer _ ht
  | _, _, .assign _ ht h, _, _, hw => (h.resolve setting hw).refer _ ht
  | _, _, .call h _ hs, _, _, hw => hs.resolve setting (h.resolve setting hw)
  | _, _, .get h _, _, _, hw => h.resolve setting hw
  | _, _, .set h _ hu, _, _, hw => h.resolve setting (hu.resolve setting hw)
  | _, _, .this _ ht, _, _, hw => by
      rw [Expr.resolve, Expr.resolve]
      split
      · exact hw.error _ _ _
      · exact hw.refer _ ht
  | _, _, .super _ ht _, _, _, hw => by
      rw [Expr.resolve, Expr.resolve]
      split
      · exact hw.error _ _ _
      · exact hw.error _ _ _
      · exact hw.refer _ ht

theorem Expr.AlikeEach.resolve (setting : Setting) : {es es' : List Expr} → AlikeEach l es es' →
    {w w' : ScopeWalk} → w.Alike w' →
    (Expr.resolveEach setting es w).Alike (Expr.resolveEach setting es' w')
  | _, _, .nil, _, _, hw => hw
  | _, _, .cons h hs, _, _, hw => hs.resolve setting (h.resolve setting hw)

end

theorem Expr.alike?_resolve (setting : Setting) {e e' : Option Expr}
    (h : Option.Rel (Expr.Alike l) e e') {w w' : ScopeWalk} (hw : w.Alike w') :
    (Expr.resolve? setting e w).Alike (Expr.resolve? setting e' w') := by
  cases h with
  | none => exact hw
  | some h => exact h.resolve setting hw

theorem Expr.Alike.resolveSuperclass (setting : Setting) {t t' : Token} (ht : l.token t t')
    {e e' : Expr} (h : e.Alike l e') {w w' : ScopeWalk} (hw : w.Alike w') :
    (e.resolveSuperclass setting t w).Alike (e'.resolveSuperclass setting t' w') := by
  refine ScopeWalk.Alike.define (ScopeWalk.Alike.openScope (h.resolve _ ?_)) "super"
  cases h with
  | «variable» _ hparent =>
      simp only [l.lexeme ht, l.lexeme hparent]
      split
      · exact hw.error _ _ _
      · exact hw
  | _ => exact hw

mutual

theorem Stmt.Alike.resolve (setting : Setting) : {s s' : Stmt} → s.Alike l s' →
    {w w' : ScopeWalk} → w.Alike w' → (s.resolve setting w).Alike (s'.resolve setting w')
  | _, _, .expression h, _, _, hw => h.resolve setting hw
  | _, _, .print h, _, _, hw => h.resolve setting hw
  | _, _, .var ht h, _, _, hw => by
      rw [Stmt.resolve, Stmt.resolve, l.lexeme ht]
      exact (Expr.alike?_resolve setting h (hw.declare ht)).define _
  | _, _, .block hs, _, _, hw => (hs.resolve setting hw.openScope).closeScope
  | _, _, .ifThen h hs, _, _, hw => hs.resolve setting (h.resolve setting hw)
  | _, _, .ifElse h hs hu, _, _, hw =>
      hu.resolve setting (hs.resolve setting (h.resolve setting hw))
  | _, _, .loop h hs, _, _, hw => hs.resolve setting (h.resolve setting hw)
  | _, _, .function (.mk ht hps hs), _, _, hw =>
      FunctionDecl.Alike.resolve { setting with function := .function } (.mk ht hps hs)
        (hw.declareComplete ht)
  | _, _, .ret _ .none, _, _, hw => hw.checkReturn setting _ _ _
  | _, _, .ret _ (.some h), _, _, hw => h.resolve setting (hw.checkReturn setting _ _ _)
  | _, _, .classDecl ht .none hds, _, _, hw =>
      (hds.resolveMethods { setting with cls := .base }
        ((hw.declareComplete ht).openScope.define "this")).closeScope
  | _, _, .classDecl ht (.some h) hds, _, _, hw =>
      (hds.resolveMethods { setting with cls := .derived }
        ((h.resolveSuperclass setting ht (hw.declareComplete ht)).openScope.define
          "this")).closeScope.closeScope

theorem Stmt.AlikeEach.resolve (setting : Setting) : {ss ss' : List Stmt} →
    Stmt.AlikeEach l ss ss' → {w w' : ScopeWalk} → w.Alike w' →
    (Stmt.resolveEach setting ss w).Alike (Stmt.resolveEach setting ss' w')
  | _, _, .nil, _, _, hw => hw
  | _, _, .cons h hs, _, _, hw => hs.resolve setting (h.resolve setting hw)

theorem FunctionDecl.Alike.resolve (setting : Setting) : {d d' : FunctionDecl} → d.Alike l d' →
    {w w' : ScopeWalk} → w.Alike w' → (d.resolve setting w).Alike (d'.resolve setting w')
  | _, _, .mk _ hps hs, _, _, hw =>
      (hs.resolve setting (.foldl_declareComplete hps hw.openScope)).closeScope

theorem FunctionDecl.AlikeEach.resolveMethods (setting : Setting) : {ds ds' : List FunctionDecl} →
    FunctionDecl.AlikeEach l ds ds' → {w w' : ScopeWalk} → w.Alike w' →
    (FunctionDecl.resolveMethods setting ds w).Alike (FunctionDecl.resolveMethods setting ds' w')
  | _, _, .nil, _, _, hw => hw
  | _, _, .cons h hs, _, _, hw => by
      rw [FunctionDecl.resolveMethods, FunctionDecl.resolveMethods, FunctionKind.ofMethod,
        FunctionKind.ofMethod, h.isInit]
      exact hs.resolveMethods setting (h.resolve _ hw)

end

end Resolve

/-! ### The hop counts of programs -/

theorem Stmt.AlikeEach.hopCounts {l : Likeness} {p p' : List Stmt} (h : Stmt.AlikeEach l p p')
    {hops : List (ExprId × Nat)} (hok : Stmt.hopCounts p = .ok hops) :
    Stmt.hopCounts p' = .ok hops := by
  have hwalk : (Point.root p).found.Alike (Point.root p').found :=
    h.resolve ⟨.none, .none⟩ (.refl .start)
  obtain ⟨herrors, rfl⟩ := Stmt.hopCounts_eq_ok_iff.mp hok
  refine Stmt.hopCounts_eq_ok_iff.mpr ⟨?_, by rw [hwalk.hops]⟩
  rw [← List.length_eq_zero_iff, hwalk.errors, herrors, List.length_nil]

theorem Stmt.resolveEach_append (setting : Setting) (p q : List Stmt) (w : ScopeWalk) :
    Stmt.resolveEach setting (p ++ q) w =
      Stmt.resolveEach setting q (Stmt.resolveEach setting p w) := by
  induction p generalizing w with
  | nil => rfl
  | cons s p ih => simp only [List.cons_append, Stmt.resolveEach, ih]

/-- The hop counts of a program after another are its own. -/
theorem Stmt.hopCounts_append {p q : List Stmt} {a b : List (ExprId × Nat)}
    (hp : Stmt.hopCounts p = .ok a) (hq : Stmt.hopCounts q = .ok b) :
    Stmt.hopCounts (p ++ q) = .ok (a ++ b) := by
  obtain ⟨hperrors, rfl⟩ := Stmt.hopCounts_eq_ok_iff.mp hp
  obtain ⟨hqerrors, rfl⟩ := Stmt.hopCounts_eq_ok_iff.mp hq
  have hscopes : (Point.root p).found.scopes = [] :=
    (Stmt.resolveEach_completes _ p .start).trans (completeEach_nil _)
  have hwalk : (Point.root (p ++ q)).found =
      (Point.root q).found.onto (Point.root p).found.hops [] := by
    have hstart : (Point.root p).found = ScopeWalk.start.onto (Point.root p).found.hops [] := by
      rw [ScopeWalk.eq_within_onto (Point.root p).found, hscopes, hperrors]
      rfl
    calc (Point.root (p ++ q)).found = Stmt.resolveEach ⟨.none, .none⟩ q (Point.root p).found :=
          Stmt.resolveEach_append _ p q .start
      _ = (Point.root q).found.onto (Point.root p).found.hops [] := by
          rw [hstart, Stmt.resolveEach_onto]
          rfl
  rw [Stmt.hopCounts_eq_ok_iff, hwalk, ScopeWalk.onto_errors, ScopeWalk.onto_hops, hqerrors,
    List.reverse_append]
  exact ⟨rfl, rfl⟩

/-! ### Accepted scripts -/

namespace Session

variable {s s' : Session} {source : Source} {program : Program}

/-- An accepted script is accepted further down too, as a program that is alike, and to the same
effect. -/
theorem prepare_down {l : Likeness} (h : s.prepare source = (.ok program, s')) (lines : Nat)
    (htokens : ∀ t ∈ source.body, l.token t (t.down lines)) (hids : l.Below s'.nextId) :
    ∃ program', s.prepare (.blank lines ++ source) = (.ok program', s') ∧
      Stmt.AlikeEach l program program' := by
  obtain ⟨hlexical, next, hops, hderives, hhops, rfl⟩ := prepare_eq_ok_iff.mp h
  obtain ⟨hbody, herrors⟩ := Source.blank_append lines source
  obtain ⟨program', hderives', halike⟩ := hderives.down htokens hids
  have halike : Stmt.AlikeEach l program program' := halike
  refine ⟨program', prepare_eq_ok_iff.mpr ⟨herrors.mpr hlexical, next, hops, ?_, ?_, rfl⟩, halike⟩
  · rw [hbody]
    exact hderives'
  · exact halike.hopCounts hhops

/-- Two accepted scripts are accepted as one with a line end between them, where the second is
further down. -/
theorem prepare_line {t t' : Session} {first more : Source} {p q : Program}
    (hfirst : s.prepare first = (.ok p, s'))
    (hmore : t.prepare (.blank (newlines first + 1) ++ more) = (.ok q, t'))
    (hhops : t.hops = s'.hops) (hnextId : t.nextId = s'.nextId) :
    s.prepare (first ++ newline :: more) =
      (.ok (p ++ q), { s with hops := t'.hops, nextId := t'.nextId }) := by
  obtain ⟨hlexical, next, hops, hderives, hcounts, rfl⟩ := prepare_eq_ok_iff.mp hfirst
  obtain ⟨hlexical', next', hops', hderives', hcounts', rfl⟩ := prepare_eq_ok_iff.mp hmore
  obtain ⟨hbody, herrors⟩ := Source.blank_append (newlines first + 1) more
  refine prepare_eq_ok_iff.mpr ⟨?_, next', hops ++ hops', ?_, ?_, ?_⟩
  · exact (Source.lexicalErrors_line hlexical).mpr (herrors.mp hlexical')
  · rw [Source.body_line hlexical]
    rw [hbody, hnextId] at hderives'
    exact hderives.append hderives'
  · exact Stmt.hopCounts_append hcounts hcounts'
  · rw [HopTable.record_append, hhops]

end Session

end ScriptLang
