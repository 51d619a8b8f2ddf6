import ScriptLang.Proofs.Joining.Scripts
import ScriptLang.Proofs.Matching.Machines
import ScriptLang.Proofs.Numbering.Scripts

/-! Runs in sessions that match: they print the same and end in the same way, up to the other name,
and leave sessions behind that match. -/

namespace ScriptLang

/-! ### How runs end -/

/-- Outcomes that differ at most in the other name. -/
inductive Outcome.Matches (μ : Matching) : Outcome → Outcome → Prop where
  | same (o : Outcome) : Outcome.Matches μ o o
  | failed {f f' : Fault} : f.Matches μ f' → Outcome.Matches μ (.failed f) (.failed f')

section Outcomes

variable {μ : Matching}

/-- Where the other name is the same, nothing differs. -/
theorem Fault.Matches.eq (hμ : μ.new = μ.old) {f f' : Fault} (h : f.Matches μ f') : f' = f := by
  cases h with
  | same => rfl
  | undefined ht => rw [hμ, ← ht]
  | superclass ht => rw [hμ, ← ht]

theorem Outcome.Matches.eq (hμ : μ.new = μ.old) {o o' : Outcome} (h : o.Matches μ o') :
    o' = o := by
  cases h with
  | same => rfl
  | failed hf => rw [hf.eq hμ]

theorem Outcome.Matches.unfinished_iff {o o' : Outcome} (h : o.Matches μ o') :
    o' = .unfinished ↔ o = .unfinished := by
  cases h with
  | same => exact Iff.rfl
  | failed => exact ⟨nofun, nofun⟩

theorem Machine.Matches.sink {m m' : Machine} (h : m.Matches μ m') :
    m'.session.sink = m.session.sink := by
  obtain ⟨L, k, h⟩ := h
  exact h.session.sink

theorem Machine.Matches.outcome {m m' : Machine} (h : m.Matches μ m') :
    Outcome.Matches μ (.ofEnding m.programEnding) (.ofEnding m'.programEnding) := by
  have hflush : m'.session.sink.flush = m.session.sink.flush := by rw [h.sink]
  obtain ⟨task, stack, s⟩ := m
  obtain ⟨task', stack', s'⟩ := m'
  obtain ⟨L, k, -, htask, hstack, -⟩ := h
  cases hstack with
  | cons => cases htask <;> exact .same _
  | nil =>
      cases htask with
      | failing hf =>
          simp only [programEnding, hflush]
          cases s.sink.flush with
          | ok => exact .failed hf
          | error e => exact .same _
      | done =>
          simp only [programEnding, hflush]
          cases s.sink.flush <;> exact .same _
      | _ => exact .same _

end Outcomes

/-- A machine that has nothing left to do stands where there is no other name. -/
theorem Machine.MatchesAt.eq_none {μ : Matching} {L : Layout} {k : Place} {m m' : Machine}
    (h : m.MatchesAt μ L k m') (hhalted : m.halted = true) : k = none := by
  obtain ⟨task, stack, s⟩ := m
  obtain ⟨task', stack', s'⟩ := m'
  obtain ⟨-, -, hstack, -⟩ := h
  cases hstack with
  | nil => rfl
  | cons => cases task <;> cases hhalted

/-! ### More references -/

section Extends

variable {μ μ' : Matching} {L : Layout}

theorem Matching.Extends.nameIn (hμ : μ'.Extends μ) : μ'.nameIn = μ.nameIn := by
  funext k n
  simp only [Matching.nameIn, Matching.name, hμ.old, hμ.new]

theorem Heap.Matches.mono (hμ : μ'.Extends μ) {h h' : Heap} (hh : h.Matches μ L h') :
    h.Matches μ' L h' where
  frames_size := hh.frames_size
  frame hf := by
    obtain ⟨fr, fr', hfr, hfr', hframe⟩ := hh.frame hf
    refine ⟨fr, fr', hfr, hfr', { hframe with bindings := ?_ }⟩
    rw [hμ.nameIn]
    exact hframe.bindings
  unique := hh.unique
  functions_size := hh.functions_size
  function hid := by
    obtain ⟨f, f', hf, hf', hmatch⟩ := hh.function hid
    exact ⟨f, f', hf, hf', hmatch.mono hμ (.refl L)⟩
  classes := hh.classes
  method hcls hid := by
    obtain ⟨f, f', hf, hf', hmatch⟩ := hh.method hcls hid
    exact ⟨f, f', hf, hf', hmatch.mono hμ (.refl L)⟩
  instances := hh.instances
  field := hh.field

end Extends

/-! ### Between runs -/

namespace Session

/-- Sessions between runs that match. -/
structure Rests (μ : Matching) (s s' : Session) : Prop where
  ran : ∃ sources history, s.Ran sources history
  ran' : ∃ sources history, s'.Ran sources history
  below {id id' : ExprId} {hop : Option Nat} : μ.ref id id' hop → id < s.nextId ∧ id' < s'.nextId
  layout : ∃ L : Layout, L.place s.current none ∧ s.Matches μ L s'

namespace Rests

variable {μ : Matching} {s s' : Session}

/-- A session at its start matches itself. -/
theorem new (sink : Sink) (reading : Nat → Float) (hμ : ∀ id id' hop, ¬μ.ref id id' hop) :
    Rests μ (.new sink reading) (.new sink reading) where
  ran := ⟨[], _, .new sink reading⟩
  ran' := ⟨[], _, .new sink reading⟩
  below h := absurd h (hμ _ _ _)
  layout := by
    let L : Layout := ⟨fun f k => f = 0 ∧ k = none, fun _ => False⟩
    refine ⟨L, ⟨rfl, rfl⟩, ?_⟩
    exact
      { heap :=
          { frames_size := rfl
            frame := by
              rintro _ _ ⟨rfl, rfl⟩
              refine ⟨_, _, rfl, rfl, rfl, rfl, nofun, ?_⟩
              intro n v hv
              replace hv : (Bindings.empty.insert clockFunction.name
                  (Value.native clockFunction)).get? n = some v := hv
              rw [Bindings.get?_insert, Bindings.get?_empty] at hv
              split at hv
              · cases hv
                exact nofun
              · cases hv
            unique := by
              rintro _ _ _ ⟨-, rfl⟩ ⟨-, rfl⟩
              rfl
            functions_size := rfl
            function := nofun
            classes := rfl
            method := nofun
            instances := rfl
            field := nofun }
        globals := rfl
        global := ⟨rfl, rfl⟩
        current := rfl
        depth := rfl
        sink := rfl
        clock := rfl
        hops := fun h => absurd h (hμ _ _ _) }

end Rests

/-- Runs that print the same and end in the same way, up to the other name, and leave sessions
behind that match. -/
structure RunsMatch (μ : Matching) (a b : Outcome × Session) : Prop where
  outcome : a.1.Matches μ b.1
  sink : b.2.sink = a.2.sink
  rests : a.1 ≠ .unfinished → Rests μ a.2 b.2

variable {μ : Matching} {s s' : Session} {sources : List Source} {history : History}

/-- Machines about to carry out programs that match. -/
theorem Rests.ofProgram (hs : Rests μ s s') {p p' : Program} {t t' : Session}
    (ht : t = { s with hops := t.hops, nextId := t.nextId })
    (ht' : t' = { s' with hops := t'.hops, nextId := t'.nextId }) {μ' : Matching}
    (hμ : μ'.Extends μ)
    (hhops : ∀ {id id' hop}, μ'.ref id id' hop → t.hop? id = hop ∧ t'.hop? id' = hop)
    (hmatch : Stmt.MatchesEach μ' none p p') :
    Machine.Matches μ' (.ofProgram p t) (.ofProgram p' t') := by
  obtain ⟨L, hcurrent, hsession⟩ := hs.layout
  have hprepared : t.Matches μ' L t' := by
    generalize t.hops = hops, t.nextId = next, t'.hops = hops', t'.nextId = next' at ht ht'
    subst ht ht'
    exact { hsession with heap := hsession.heap.mono hμ, hops := hhops }
  have hplace : L.place t.current none := by
    rw [ht]
    exact hcurrent
  exact ⟨L, none, hplace, .done, .cons (.program hmatch) .nil, hprepared⟩

/-- Programs that match are carried out alike. -/
theorem Rests.carryOut (hs : Rests μ s s') {source source' : Source} {p p' : Program}
    {t t' : Session} (hp : s.prepare source = (.ok p, t)) (hp' : s'.prepare source' = (.ok p', t'))
    {μ' : Matching} (hμ : μ'.Extends μ)
    (hbelow : ∀ {id id' hop}, μ'.ref id id' hop → id < t.nextId ∧ id' < t'.nextId)
    (hhops : ∀ {id id' hop}, μ'.ref id id' hop → t.hop? id = hop ∧ t'.hop? id' = hop)
    (hmatch : Stmt.MatchesEach μ' none p p') (n : Nat) :
    RunsMatch μ' (s.run n source) (s'.run n source') := by
  obtain ⟨sources, history, hran⟩ := hs.ran
  obtain ⟨sources', history', hran'⟩ := hs.ran'
  have hstart := hs.ofProgram (prepare_ok hp).2.2.2 (prepare_ok hp').2.2.2 hμ hhops hmatch
  have hrun := hstart.run n
  have hran₂ := hran.run n source
  have hran₂' := hran'.run n source'
  rw [run_of_prepare hp] at hran₂ ⊢
  rw [run_of_prepare hp'] at hran₂' ⊢
  refine ⟨hrun.outcome, hrun.sink, fun hfinished => ?_⟩
  have hfinished' := mt hrun.outcome.unfinished_iff.mp hfinished
  refine ⟨⟨_, _, hran₂ hfinished⟩, ⟨_, _, hran₂' hfinished'⟩, ?_, ?_⟩
  · rw [(hran.run_table hp n).2, (hran'.run_table hp' n).2]
    exact hbelow
  · obtain ⟨L', k, hlast⟩ := hrun
    have hplace := hlast.place
    rw [hlast.eq_none (Moment.halted_of_programEnding hfinished)] at hplace
    exact ⟨L', hplace, hlast.session⟩

/-! ### The same script in both sessions -/

theorem run_of_diagnostics {source : Source} (h : source.diagnostics ≠ []) (s : Session) (n : Nat) :
    s.run n source = (.rejected source.diagnostics, s.passed source) := by
  rw [run, prepare_of_diagnostics s h]
  rfl

theorem Ran.passed (hran : s.Ran sources history) {source : Source}
    (h : source.diagnostics ≠ []) : (s.passed source).Ran (source :: sources) history := by
  have hrun := hran.run 0 source
  rw [run_of_diagnostics h, prepare_of_diagnostics s h] at hrun
  exact hrun nofun

theorem Ran.hop?_eq_none (hran : s.Ran sources history) {id : ExprId} (hid : s.nextId ≤ id) :
    s.hop? id = none := by
  have hcoherent := (Moment.reached_of_ran hran).coherent
  cases hhop : s.hop? id with
  | none => rfl
  | some d => exact absurd (hcoherent.hops id d hhop) (Nat.not_lt.mpr hid)

/-- A rejected script in one of the sessions makes no difference. -/
theorem Rests.passed_right (hs : Rests μ s s') {source : Source} (h : source.diagnostics ≠ []) :
    Rests μ s (s'.passed source) where
  ran := hs.ran
  ran' := by
    obtain ⟨sources, history, hran⟩ := hs.ran'
    exact ⟨_, history, hran.passed h⟩
  below hid := ⟨(hs.below hid).1, Nat.lt_add_left _ (hs.below hid).2⟩
  layout := by
    obtain ⟨L, hcurrent, hsession⟩ := hs.layout
    exact ⟨L, hcurrent, { hsession with }⟩

theorem Rests.passed_left (hs : Rests μ s s') {source : Source} (h : source.diagnostics ≠ []) :
    Rests μ (s.passed source) s' where
  ran := by
    obtain ⟨sources, history, hran⟩ := hs.ran
    exact ⟨_, history, hran.passed h⟩
  ran' := hs.ran'
  below hid := ⟨Nat.lt_add_left _ (hs.below hid).1, (hs.below hid).2⟩
  layout := by
    obtain ⟨L, hcurrent, hsession⟩ := hs.layout
    exact ⟨L, hcurrent, { hsession with }⟩

end Session

/-- A matching in which more references stand for each other, under the ids that `f` and `g` give
them. -/
def Matching.add (μ : Matching) (f g : ExprId → ExprId) (more : ExprId → Prop)
    (hop : ExprId → Option Nat) : Matching :=
  { μ with
    ref := fun id id' h => μ.ref id id' h ∨ ∃ i, more i ∧ id = f i ∧ id' = g i ∧ h = hop i }

theorem Matching.add_extends (μ : Matching) (f g : ExprId → ExprId) (more : ExprId → Prop)
    (hop : ExprId → Option Nat) : (μ.add f g more hop).Extends μ :=
  ⟨rfl, rfl, .inl⟩

/-- Where ids are others, hop counts are found under the others. -/
theorem HopTable.getElem?_record_renumber {σ : ExprId → ExprId} (hσ : Function.Injective σ)
    (table : HopTable) (hops : List (ExprId × Nat)) (id : ExprId) :
    (HopTable.record table (hops.map fun x => (σ x.1, x.2)))[σ id]? =
      (hops.reverse.lookup id).or table[σ id]? := by
  have hlookup (hops : List (ExprId × Nat)) :
      (hops.map fun x => (σ x.1, x.2)).lookup (σ id) = hops.lookup id := by
    induction hops with
    | nil => rfl
    | cons x hops ih =>
        have hkey : (σ id == σ x.1) = (id == x.1) := beq_eq_beq.mpr hσ.eq_iff
        rw [List.map_cons, List.lookup_cons, List.lookup_cons, ih, hkey]
  rw [HopTable.getElem?_record, ← List.map_reverse, hlookup]

namespace Session

variable {μ : Matching} {s s' : Session} {sources : List Source} {history : History}

/-- Old references keep their hop counts, and new ones have the same in both sessions. -/
theorem Rests.hop?_of_add (hs : Rests μ s s') {t t' : Session} {f g : ExprId → ExprId}
    {more : ExprId → Prop} {hop : ExprId → Option Nat}
    (hold : ∀ id, id < s.nextId → t.hop? id = s.hop? id)
    (hold' : ∀ id, id < s'.nextId → t'.hop? id = s'.hop? id)
    (hnew : ∀ i, more i → t.hop? (f i) = hop i ∧ t'.hop? (g i) = hop i) {id id' : ExprId}
    {h : Option Nat} (hid : (μ.add f g more hop).ref id id' h) :
    t.hop? id = h ∧ t'.hop? id' = h := by
  rcases hid with hid | ⟨i, hi, rfl, rfl, rfl⟩
  · obtain ⟨L, -, hsession⟩ := hs.layout
    obtain ⟨hlt, hlt'⟩ := hs.below hid
    rw [hold id hlt, hold' id' hlt']
    exact hsession.hops hid
  · exact hnew i hi

/-- The hop counts of a script are found in the table of a session that accepts it. -/
theorem Ran.hop?_of_reads (hran : s.Ran sources history) (hops : List (ExprId × Nat)) (i : ExprId) :
    (HopTable.record s.hops (hops.map fun x => (x.1 + s.nextId, x.2)))[i + s.nextId]? =
      hops.reverse.lookup i := by
  have hinjective : Function.Injective (· + s.nextId : ExprId → ExprId) :=
    fun _ _ => Nat.add_right_cancel
  have hnone := hran.hop?_eq_none (Nat.le_add_left s.nextId i)
  rw [hop?] at hnone
  rw [HopTable.getElem?_record_renumber hinjective s.hops hops i, hnone, Option.or_none]

theorem Rests.run_same (hs : Rests μ s s') (n : Nat) (source : Source) :
    ∃ μ' : Matching, μ'.Extends μ ∧ RunsMatch μ' (s.run n source) (s'.run n source) := by
  by_cases h : source.diagnostics = []
  · obtain ⟨program, hops, next, hreads⟩ := Source.reads_of_diagnostics h
    obtain ⟨sources, history, hran⟩ := hs.ran
    obtain ⟨sources', history', hran'⟩ := hs.ran'
    let μ' := μ.add (· + s.nextId) (· + s'.nextId) (· < next) fun id => hops.reverse.lookup id
    refine ⟨μ', μ.add_extends _ _ _ _, ?_⟩
    refine hs.carryOut (prepare_of_reads s hreads) (prepare_of_reads s' hreads)
      (μ.add_extends _ _ _ _) ?_ ?_ ?_ n
    · rintro id id' hop (hid | ⟨i, hi, rfl, rfl, rfl⟩)
      · exact ⟨Nat.lt_add_left _ (hs.below hid).1, Nat.lt_add_left _ (hs.below hid).2⟩
      · exact ⟨Nat.add_lt_add_right hi _, Nat.add_lt_add_right hi _⟩
    · exact hs.hop?_of_add (fun _ => hop?_of_prepare (prepare_of_reads s hreads))
        (fun _ => hop?_of_prepare (prepare_of_reads s' hreads))
        fun i _ => ⟨hran.hop?_of_reads hops i, hran'.hop?_of_reads hops i⟩
    · have hwf : Stmt.WellFormedEach program :=
        hreads.derives.wellFormed fun t ht => source.tokens_fit t (Source.mem_tokens ht)
      refine Stmt.renumberEach_matches program hwf fun id hid => ?_
      exact ⟨_, .inr ⟨id, (hreads.derives.numbered.mem id hid).2, rfl, rfl, rfl⟩⟩
  · refine ⟨μ, .refl μ, ?_⟩
    rw [run_of_diagnostics h, run_of_diagnostics h]
    obtain ⟨L, -, hsession⟩ := hs.layout
    exact ⟨.same _, hsession.sink, fun _ => (hs.passed_right h).passed_left h⟩

/-- A session that has run scripts matches itself, whatever name stands for another. -/
theorem Ran.rests (hran : s.Ran sources history) {old new : String}
    (hold : old ≠ "this" ∧ old ≠ "super") (hnew : new ≠ "this" ∧ new ≠ "super") :
    ∃ μ : Matching, μ.old = old ∧ μ.new = new ∧ Rests μ s s := by
  induction hran with
  | new sink reading =>
      let μ : Matching := ⟨old, new, fun _ _ _ => False, hold, hnew⟩
      exact ⟨μ, rfl, rfl, .new sink reading fun _ _ _ => id⟩
  | run n source _ hfinished ih =>
      obtain ⟨μ, rfl, rfl, hs⟩ := ih
      obtain ⟨μ', hμ, hrun⟩ := hs.run_same n source
      exact ⟨μ', hμ.old, hμ.new, hrun.rests hfinished⟩

/-! ### Sessions as they go on -/

/-- Runs scripts one after the other, up to one that does not finish. Each has a label and a number
of steps, and each report tells how the run ends and what is printed by then. -/
def reports {α : Type} (s : Session) : List (α × Nat × Source) → List (α × Outcome × Sink)
  | [] => []
  | (a, n, source) :: runs =>
    let (outcome, s) := s.run n source
    (a, outcome, s.sink) :: if outcome = .unfinished then [] else s.reports runs

end Session

end ScriptLang
