import ScriptLang.Proofs.Frames.Coherence
import ScriptLang.Proofs.Numbering.Parsing

/-! Preparing a script. Whether it is accepted, and why not, does not depend on the session; only
the ids of its references do. -/

namespace ScriptLang

namespace Source

/-- The syntax errors of a script. -/
def syntaxErrors (source : Source) : List SyntaxError :=
  match (Parsed.ofTokens source.tokens 0).program with
  | .ok _ => []
  | .error errors => errors

/-- The scoping errors of a script that has no syntax errors. -/
def scopeErrors (source : Source) : List ScopeError :=
  match (Parsed.ofTokens source.tokens 0).program with
  | .ok program =>
    match Stmt.hopCounts program with
    | .ok _ => []
    | .error errors => errors
  | .error _ => []

/-- All lexical and then all syntax errors of a script. -/
def readErrors (source : Source) : List Diagnostic :=
  source.lexicalErrors.map .lexical ++ source.syntaxErrors.map .parse

/-- Why a script is rejected: it cannot be read or, if it can, it breaks the scoping rules. -/
def diagnostics (source : Source) : List Diagnostic :=
  match source.readErrors with
  | [] => source.scopeErrors.map .scope
  | errors => errors

/-- A script is accepted as this program, with ids from the first one up to `next`. -/
structure Reads (source : Source) (program : Program) (hops : List (ExprId × Nat))
    (next : ExprId) : Prop where
  lexical : source.lexicalErrors = []
  derives : Derives .declarations 0 source.body program next
  hops : Stmt.hopCounts program = .ok hops

variable {source : Source} {program : Program}

theorem syntaxErrors_ne_nil {errors : List SyntaxError}
    (h : (Parsed.ofTokens source.tokens 0).program = .error errors) : source.syntaxErrors ≠ [] := by
  have herrors := (Parsed.ofTokens_spec source.tokens 0).2.2 errors h
  simpa only [syntaxErrors, h] using herrors

theorem scopeErrors_ne_nil {errors : List ScopeError}
    (h : (Parsed.ofTokens source.tokens 0).program = .ok program)
    (hhops : Stmt.hopCounts program = .error errors) : source.scopeErrors ≠ [] := by
  simp only [scopeErrors, h, hhops]
  rintro rfl
  simp only [Stmt.hopCounts] at hhops
  split at hhops
  · cases hhops
  · rename_i hnonempty
    simp only [Except.error.injEq, List.reverse_eq_nil_iff] at hhops
    exact hnonempty (by rw [hhops]; rfl)

theorem readErrors_eq_nil_iff :
    source.readErrors = [] ↔ source.lexicalErrors = [] ∧ source.syntaxErrors = [] := by
  simp [readErrors]

theorem diagnostics_of_read (h : source.readErrors = []) :
    source.diagnostics = source.scopeErrors.map .scope := by
  rw [diagnostics, h]

theorem diagnostics_of_not_read (h : source.readErrors ≠ []) :
    source.diagnostics = source.readErrors := by
  unfold diagnostics
  split
  · rename_i hnil
    exact absurd hnil h
  · rfl

end Source

namespace Session

variable {source : Source} {program : Program} (s : Session)

/-- The session after a script was read: only ids are used up. -/
def passed (source : Source) : Session :=
  { s with nextId := (Parsed.ofTokens source.tokens 0).nextId + s.nextId }

theorem load_eq (source : Source) : s.load source =
    (match source.readErrors, (Parsed.ofTokens source.tokens 0).program with
      | [], .ok program => .ok (Stmt.raiseEach s.nextId program)
      | errors, _ => .error errors,
      s.passed source) := by
  have hparsed := Parsed.ofTokens_eq_raise source.tokens s.nextId
  simp only [load, hparsed, Parsed.raise, passed, Source.readErrors, Source.syntaxErrors]
  cases (Parsed.ofTokens source.tokens 0).program with
  | ok program =>
      simp only [Except.map, List.map_nil, List.append_nil]
      cases source.lexicalErrors <;> rfl
  | error errors =>
      simp only [Except.map]
      split
      · rename_i hok
        cases hok
      · rfl

/-- A script with errors is rejected in every session, for these errors. -/
theorem prepare_of_diagnostics (h : source.diagnostics ≠ []) :
    s.prepare source = (.error source.diagnostics, s.passed source) := by
  by_cases hread : source.readErrors = []
  · rw [Source.diagnostics_of_read hread] at h ⊢
    cases hprogram : (Parsed.ofTokens source.tokens 0).program with
    | error errors =>
        exact absurd (Source.readErrors_eq_nil_iff.mp hread).2
          (Source.syntaxErrors_ne_nil hprogram)
    | ok program =>
        simp only [prepare, load_eq, hread, hprogram, resolve, Stmt.hopCounts_renumber]
        simp only [Source.scopeErrors, hprogram] at h ⊢
        cases hhops : Stmt.hopCounts program with
        | ok hops => simp [hhops] at h
        | error errors => rfl
  · rw [Source.diagnostics_of_not_read hread]
    simp only [prepare, load_eq]
    cases herrors : source.readErrors with
    | nil => exact absurd herrors hread
    | cons => rfl

theorem prepare_of_reads {hops : List (ExprId × Nat)} {next : ExprId}
    (h : source.Reads program hops next) :
    s.prepare source = (.ok (Stmt.raiseEach s.nextId program),
      { s with
        hops := HopTable.record s.hops (hops.map fun x => (x.1 + s.nextId, x.2))
        nextId := next + s.nextId }) := by
  have hparsed : Parsed.ofTokens source.tokens s.nextId =
      ⟨.ok (Stmt.raiseEach s.nextId program), next + s.nextId⟩ := by
    rw [Parsed.ofTokens_eq_raise, Source.parses_iff.mpr h.derives]
    rfl
  refine prepare_eq_ok_iff.mpr ⟨h.lexical, _, _, Source.parses_iff.mp hparsed, ?_, rfl⟩
  rw [Stmt.hopCounts_renumber, h.hops]
  rfl

end Session

/-- A script without errors is accepted. -/
theorem Source.reads_of_diagnostics {source : Source} (h : source.diagnostics = []) :
    ∃ program hops next, source.Reads program hops next := by
  have hread : source.readErrors = [] := by
    refine Decidable.byContradiction fun hne => ?_
    rw [Source.diagnostics_of_not_read hne] at h
    exact hne h
  obtain ⟨hlexical, hsyntax⟩ := Source.readErrors_eq_nil_iff.mp hread
  rw [Source.diagnostics_of_read hread, List.map_eq_nil_iff] at h
  cases hprogram : (Parsed.ofTokens source.tokens 0).program with
  | error errors => exact absurd hsyntax (Source.syntaxErrors_ne_nil hprogram)
  | ok program =>
      cases hhops : Stmt.hopCounts program with
      | error errors => exact absurd h (Source.scopeErrors_ne_nil hprogram hhops)
      | ok hops =>
          have hderives := Source.parses_iff.mp (Parsed.eq_of_program hprogram)
          exact ⟨program, hops, _, hlexical, hderives, hhops⟩

end ScriptLang
