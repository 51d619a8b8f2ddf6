import ScriptLang.Proofs.Matching.Runs

/-! Rejected scripts leave no trace: a session goes on as if they had not been there. -/

namespace ScriptLang

namespace Session

/-- A script is rejected exactly for its errors, and only ids are used up. -/
theorem run_eq_rejected_iff {s s' : Session} {n : Nat} {source : Source}
    {errors : List Diagnostic} : s.run n source = (.rejected errors, s') ↔
      errors ≠ [] ∧ errors = source.diagnostics ∧ s' = s.passed source := by
  constructor
  · intro h
    by_cases hdiagnostics : source.diagnostics = []
    · obtain ⟨program, hops, next, hreads⟩ := Source.reads_of_diagnostics hdiagnostics
      rw [run_of_prepare (prepare_of_reads s hreads)] at h
      have houtcome := congrArg Prod.fst h
      generalize Machine.programEnding _ = ending at houtcome
      cases ending <;> cases houtcome
    · rw [run_of_diagnostics hdiagnostics] at h
      obtain ⟨hoc, rfl⟩ := Prod.mk.inj h
      cases hoc
      exact ⟨hdiagnostics, rfl, rfl⟩
  · rintro ⟨herrors, rfl, rfl⟩
    exact run_of_diagnostics herrors s n

variable {μ : Matching} {s s' : Session}

/-- Where the other name is the same, the reports of sessions that match differ only in those of
rejected scripts that run in one session alone. -/
theorem Rests.reports_filter (hs : Rests μ s s') (hμ : μ.new = μ.old)
    {runs : List (Bool × Nat × Source)}
    (hruns : ∀ run ∈ runs, run.1 = true → run.2.2.diagnostics ≠ []) :
    (s'.reports runs).filter (!·.1) = s.reports (runs.filter (!·.1)) := by
  induction runs generalizing μ s s' with
  | nil => rfl
  | cons run runs ih =>
      obtain ⟨inserted, n, source⟩ := run
      obtain ⟨hsource, hrest⟩ := List.forall_mem_cons.mp hruns
      cases inserted with
      | true =>
          have hrejected := hsource rfl
          simp only [reports, run_of_diagnostics hrejected]
          exact ih (hs.passed_right hrejected) hμ hrest
      | false =>
          obtain ⟨μ', hμ', hrun⟩ := hs.run_same n source
          have hsame : μ'.new = μ'.old := by rw [hμ'.new, hμ'.old, hμ]
          have houtcome := hrun.outcome.eq hsame
          simp only [reports, List.filter_cons, Bool.not_false, if_true, houtcome, hrun.sink]
          by_cases hfinished : (s.run n source).1 = .unfinished
          · simp only [hfinished, if_true, List.filter_nil]
          · simp only [if_neg hfinished, ih (hrun.rests hfinished) hsame hrest]

end Session

/-- A matching in which no name differs. -/
def Matching.plain : Matching where
  old := ""
  new := ""
  ref _ _ _ := False
  old_plain := by decide
  new_plain := by decide

/-- A script that is rejected is so for errors, all lexical and then all syntax errors or else only
scoping errors, and the session stays as it is except that ids are used up: nothing is printed, and
no frame, instance or hop count changes. Rejected scripts among those that a session runs, here the
ones labelled `true`, change neither what the others print nor how they end. -/
theorem rejected_scripts_leave_no_trace :
    (∀ (s s' : Session) (n : Nat) (source : Source) (errors : List Diagnostic),
      s.run n source = (.rejected errors, s') →
        errors ≠ [] ∧
        (errors = source.lexicalErrors.map .lexical ++ source.syntaxErrors.map .parse ∨
          source.lexicalErrors = [] ∧ source.syntaxErrors = [] ∧
            errors = source.scopeErrors.map .scope) ∧
        s' = { s with nextId := s'.nextId } ∧ s.nextId ≤ s'.nextId) ∧
    ∀ (sink : Sink) (reading : Nat → Float) (runs : List (Bool × Nat × Source)),
      (∀ run ∈ runs, run.1 = true →
        ∃ (s : Session) (n : Nat) (errors : List Diagnostic),
          (s.run n run.2.2).1 = .rejected errors) →
        ((Session.new sink reading).reports runs).filter (!·.1) =
          (Session.new sink reading).reports (runs.filter (!·.1)) := by
  constructor
  · intro s s' n source errors hrun
    obtain ⟨herrors, rfl, rfl⟩ := Session.run_eq_rejected_iff.mp hrun
    refine ⟨herrors, ?_, rfl, Nat.le_add_left _ _⟩
    by_cases hread : source.readErrors = []
    · obtain ⟨hlexical, hsyntax⟩ := Source.readErrors_eq_nil_iff.mp hread
      exact .inr ⟨hlexical, hsyntax, Source.diagnostics_of_read hread⟩
    · exact .inl (Source.diagnostics_of_not_read hread)
  · intro sink reading runs hruns
    have hstart : Session.Rests .plain (.new sink reading) (.new sink reading) :=
      .new sink reading fun _ _ _ => id
    refine hstart.reports_filter rfl fun run hrun hinserted => ?_
    obtain ⟨s, n, errors, hrejected⟩ := hruns run hrun hinserted
    obtain ⟨herrors, rfl, -⟩ := Session.run_eq_rejected_iff.mp (Prod.ext hrejected rfl)
    exact herrors

/-- A function closed over a variable is declared, three scripts are rejected for errors of each
kind, and the function still finds its variable, which a later script then misses. -/
theorem rejected_scripts_leave_no_trace_closure :
    let s := Session.new .unlimited fun _ => 0
    let text (t : String) : Nat × Source := (60, t.toUTF8.toList)
    let runs : List (Bool × Nat × Source) :=
      [(false, text "fun f(){var a=nil;fun g(){print a;}return g;}var g=f();"),
        (true, text "var a=@;"), (false, text "g();"), (true, text "print g"),
        (true, text "{var a=nil;var a=g;}"), (false, text "g();print a;")]
    (∀ run ∈ runs, run.1 = true → ∃ (s : Session) (n : Nat) (errors : List Diagnostic),
        (s.run n run.2.2).1 = .rejected errors) ∧
      ((s.reports runs).filter (!·.1)).map (·.2.1) =
        [.ok, .ok, .failed (Session.undefined ⟨.identifier, "a", 1⟩)] ∧
      (s.reports runs).filter (!·.1) = s.reports (runs.filter (!·.1)) ∧
      ∀ run ∈ runs, run.1 = true →
        (s.run 0 run.2.2).2 = { s with nextId := (s.run 0 run.2.2).2.nextId } := by
  intro s text runs
  have hrejected (source : Source) (h : source.diagnostics ≠ []) :
      ∃ (s : Session) (n : Nat) (errors : List Diagnostic),
        (s.run n source).1 = .rejected errors :=
    ⟨s, 0, _, by rw [Session.run_of_diagnostics h]⟩
  have hruns : ∀ run ∈ runs, run.1 = true → ∃ (s : Session) (n : Nat) (errors : List Diagnostic),
      (s.run n run.2.2).1 = .rejected errors := by
    simp only [runs, text, List.forall_mem_cons]
    refine ⟨nofun, fun _ => hrejected _ ?_, nofun, fun _ => hrejected _ ?_,
      fun _ => hrejected _ ?_, nofun, nofun⟩
    all_goals decide +kernel
  have hkept := rejected_scripts_leave_no_trace.2 .unlimited (fun _ => 0) runs hruns
  refine ⟨hruns, ?_, hkept, fun run hrun hinserted => ?_⟩
  · rw [hkept]
    decide +kernel
  · obtain ⟨t, n, errors, herrors⟩ := hruns run hrun hinserted
    obtain ⟨hne, rfl, -⟩ := Session.run_eq_rejected_iff.mp (Prod.ext herrors rfl)
    have hrun := Session.run_of_diagnostics hne s 0
    have hkept := (rejected_scripts_leave_no_trace.1 _ _ _ _ _ hrun).2.2.1
    rw [hrun]
    exact hkept

end ScriptLang
