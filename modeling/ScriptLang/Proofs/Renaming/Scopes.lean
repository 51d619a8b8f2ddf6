import Mathlib.Data.List.Pairwise
import ScriptLang.Proofs.Matching.Heaps
import ScriptLang.Proofs.Renaming.Trees
import ScriptLang.Proofs.Scoping.Declarations
import ScriptLang.Proofs.Scoping.Table

/-! Scoping of programs in which a local name is written as another one: they match, and the same
hop counts are found in both. -/

namespace ScriptLang

/-! ### Variables and other names -/

namespace Point

variable {setting : Setting} {scope : Scope} {outer : List Scope} {sites : List Site}

/-- Where a name is a variable, it is no function and no class. -/
theorem accepted_keeps {ss : List Stmt} {name : String}
    (h : Accepted ⟨.stmts ss, setting, scope :: outer, sites⟩)
    (hname : scope.contains name = true ∨ Stmt.DeclareVar name ss) :
    ∀ s ∈ ss, s.Keeps name := by
  intro s hs
  have hkeeps (t : Token) (ht : s.declares = some t) (hvar : ∀ u e, s ≠ .var u e) :
      t.lexeme ≠ name := by
    rintro rfl
    rcases hname with hscope | ⟨u, e, hu, huname⟩
    · rw [accepted_fresh h hs ht] at hscope
      cases hscope
    · exact (accepted_differ h).forall hs hu (hvar u e) t u ht rfl huname.symm
  cases s with
  | function d => exact hkeeps d.name rfl nofun
  | classDecl t superclass methods => exact hkeeps t rfl nofun
  | _ => trivial

end Point

/-! ### Renamed programs match -/

section Renames

variable {μ : Matching} {r : Renaming} {l : Likeness}

theorem Matching.Renames.params (hμ : μ.Renames r l) {ps : List Token}
    (hps : Token.AlikeEach l ps ps) :
    List.Forall₂ (μ.Names (some 0 = some 0)) ps (ps.map (r.token True)) := by
  simp only [List.forall₂_map_right_iff]
  induction ps with
  | nil => exact .nil
  | cons p ps ih =>
      cases hps with
      | cons hp hps => exact .cons (hμ.names True hp) (ih hps)

theorem Expr.alike?_matches_self (hμ : μ.Renames r l) {e : Option Expr}
    (h : Option.Rel (Expr.Alike l) e e) (hwf : Expr.WellFormed? e) :
    Option.Rel (Expr.Matches μ none) e e := by
  have hmatch := Expr.alike?_rename_matches hμ none h hwf
  rwa [Expr.rename?_none] at hmatch

theorem Expr.Alike.matches_self (hμ : μ.Renames r l) {e : Expr} (h : e.Alike l e)
    (hwf : e.WellFormed) : e.Matches μ none e := by
  have hmatch := h.rename_matches hμ none hwf
  rwa [Expr.rename_none] at hmatch

theorem Stmt.Alike.matches_self (hμ : μ.Renames r l) {s : Stmt} (h : s.Alike l s)
    (hwf : s.WellFormed) : s.Matches μ none s := by
  have hmatch := h.rename_matches hμ none hwf (by simp)
  rwa [Stmt.rename_none] at hmatch

theorem Stmt.AlikeEach.matches_self (hμ : μ.Renames r l) {ss : List Stmt}
    (h : Stmt.AlikeEach l ss ss) (hwf : Stmt.WellFormedEach ss) :
    Stmt.MatchesEach μ none ss ss := by
  have hmatch := h.rename_matches hμ none hwf nofun
  rwa [Stmt.renameEach_none] at hmatch

theorem FunctionDecl.Alike.matches_self (hμ : μ.Renames r l) {d : FunctionDecl} (h : d.Alike l d)
    (hwf : d.WellFormed) : d.Matches μ none d := by
  have hmatch := h.rename_matches hμ none hwf
  rwa [FunctionDecl.rename_none] at hmatch

theorem FunctionDecl.AlikeEach.matches_self (hμ : μ.Renames r l) {ds : List FunctionDecl}
    (h : FunctionDecl.AlikeEach l ds ds) (hwf : FunctionDecl.WellFormedEach ds) :
    FunctionDecl.MatchesEach μ none ds ds := by
  have hmatch := h.rename_matches hμ none hwf
  rwa [FunctionDecl.renameEach_none] at hmatch

open Point

mutual

theorem Stmt.Renames.matches (hμ : μ.Renames r l) : {s s' : Stmt} → s.Renames r s' →
    s.Alike l s → {setting : Setting} → {scopes : List Scope} → {sites : List Site} →
    Accepted ⟨.stmt s, setting, scopes, sites⟩ → s.Matches μ none s'
  | .block _, _, .here hvar, .block hbody, _, _, _, h =>
      .block .renamed (hbody.rename_matches hμ (some 0) h.wellFormed
        fun _ => accepted_keeps (accepted_part h (.head _)) (.inr hvar))
  | .block _, _, .block hr, .block hbody, _, _, _, h =>
      .block (.plain none) (hr.matches hμ hbody (accepted_part h (.head _)))
  | .ifThen _ _, _, .ifThen e hr, .ifThen he hs, _, _, _, h =>
      .ifThen (he.matches_self hμ h.wellFormed.1)
        (hr.matches hμ hs (accepted_part h (.tail _ (.head _))))
  | .ifElse _ _ _, _, .thenBranch e u hr, .ifElse he hs hu, _, _, _, h =>
      .ifElse (he.matches_self hμ h.wellFormed.1)
        (hr.matches hμ hs (accepted_part h (.tail _ (.head _))))
        (hu.matches_self hμ h.wellFormed.2.2.1)
  | .ifElse _ _ _, _, .elseBranch e s hr, .ifElse he hs hu, _, _, _, h =>
      .ifElse (he.matches_self hμ h.wellFormed.1) (hs.matches_self hμ h.wellFormed.2.1.1)
        (hr.matches hμ hu (accepted_part h (.tail _ (.tail _ (.head _)))))
  | .loop _ _, _, .loop e hr, .loop he hs, _, _, _, h =>
      .loop (he.matches_self hμ h.wellFormed.1)
        (hr.matches hμ hs (accepted_part h (.tail _ (.head _))))
  | .function _, _, .function hr, .function hd, _, _, _, h =>
      .function nofun (hr.matches hμ hd (accepted_part h (.head _)))
  | .classDecl _ none _, _, .classDecl _ _ hr, .classDecl _ _ hds, _, _, _, h =>
      .classDecl nofun .none (hr.matches hμ hds fun _ hd =>
        ⟨_, _, _, accepted_part h (List.mem_map_of_mem hd)⟩)
  | .classDecl _ (some _) _, _, .classDecl _ _ hr, .classDecl _ he hds, _, _, _, h =>
      .classDecl nofun (Expr.alike?_matches_self hμ he (Expr.wellFormed?_of_name h.wellFormed.2.1))
        (hr.matches hμ hds fun _ hd =>
          ⟨_, _, _, accepted_part h (List.mem_cons_of_mem _ (List.mem_map_of_mem hd))⟩)

theorem Stmt.RenamesOne.matches (hμ : μ.Renames r l) : {ss ss' : List Stmt} →
    Stmt.RenamesOne r ss ss' → Stmt.AlikeEach l ss ss → {setting : Setting} →
    {scopes : List Scope} → {sites : List Site} →
    Accepted ⟨.stmts ss, setting, scopes, sites⟩ → Stmt.MatchesEach μ none ss ss'
  | _ :: _, _, .head _ hr, .cons hs hss, _, _, _, h =>
      .cons (hr.matches hμ hs (accepted_part h (.head _))) (hss.matches_self hμ h.wellFormed.2)
  | _ :: _, _, .tail _ hr, .cons hs hss, _, _, _, h =>
      .cons (hs.matches_self hμ h.wellFormed.1)
        (hr.matches hμ hss (accepted_part h (.tail _ (.head _))))

theorem FunctionDecl.Renames.matches (hμ : μ.Renames r l) : {d d' : FunctionDecl} →
    d.Renames r d' → d.Alike l d → {setting : Setting} → {scopes : List Scope} →
    {sites : List Site} → Accepted ⟨.decl d, setting, scopes, sites⟩ → d.Matches μ none d'
  | .mk t ps body, _, .here hdeclares, .mk ht hps hbody, setting, scopes, sites, h => by
      obtain ⟨inner, hfold, -, hparams⟩ := contains_params ps .empty scopes
      have hpart := accepted_part h (.head _)
      simp only [ScopeWalk.foldl_declareComplete_scopes, ScopeWalk.openScope_scopes,
        ScopeWalk.within_scopes, hfold] at hpart
      refine .mk t .renamed (hμ.params hps) (hbody.rename_matches hμ (some 0) h.wellFormed.2
        fun _ => accepted_keeps hpart (hdeclares.imp_left ?_))
      rintro ⟨p, hp, hname⟩
      exact hname ▸ hparams p hp
  | .mk t ps body, _, .body _ _ hr, .mk ht hps hbody, _, _, _, h =>
      .mk t (.plain none) (List.forall₂_same.mpr fun _ _ => .same nofun)
        (hr.matches hμ hbody (accepted_part h (.head _)))

theorem FunctionDecl.RenamesOne.matches (hμ : μ.Renames r l) : {ds ds' : List FunctionDecl} →
    FunctionDecl.RenamesOne r ds ds' → FunctionDecl.AlikeEach l ds ds →
    (∀ d ∈ ds, ∃ setting scopes sites, Accepted ⟨.decl d, setting, scopes, sites⟩) →
    FunctionDecl.MatchesEach μ none ds ds'
  | d :: ds, _, .head _ hr, .cons hd hds, h => by
      obtain ⟨⟨_, _, _, hd'⟩, hds'⟩ := List.forall_mem_cons.mp h
      refine .cons (hr.matches hμ hd hd') (hds.matches_self hμ ?_)
      exact FunctionDecl.wellFormedEach_iff.mpr fun u hu => (hds' u hu).elim
        fun _ ⟨_, _, hu⟩ => hu.wellFormed
  | d :: ds, _, .tail _ hr, .cons hd hds, h => by
      obtain ⟨⟨_, _, _, hd'⟩, hds'⟩ := List.forall_mem_cons.mp h
      exact .cons (hd.matches_self hμ hd'.wellFormed) (hr.matches hμ hds hds')

end

end Renames

end ScriptLang
