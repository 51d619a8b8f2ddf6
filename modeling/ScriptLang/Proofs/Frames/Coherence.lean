import ScriptLang.Proofs.Frames.Steps
import ScriptLang.Proofs.Grammar.Recognition
import ScriptLang.Proofs.Scoping.Table

/-! What holds at every moment of a session: frames agree with scopes, and the hop counts of all
programs that were accepted are the recorded ones. -/

namespace ScriptLang

theorem Parsed.eq_of_program {p : Parsed} {program : Program} (h : p.program = .ok program) :
    p = ⟨.ok program, p.nextId⟩ := by
  rw [← h]

theorem Source.parses_iff {source : Source} {first next : ExprId} {program : Program} :
    Parsed.ofTokens source.tokens first = ⟨.ok program, next⟩ ↔
      Derives .declarations first source.body program next := by
  rw [source.tokens_eq]
  exact Parsed.ofTokens_eq_ok_iff (fun _ => isEof_of_mem_body) rfl

namespace Session

variable {s s' : Session} {source : Source} {program : Program}

/-- Reading a script only uses up ids. -/
theorem load_snd (s : Session) (source : Source) : (s.load source).2 =
    { s with nextId := (Parsed.ofTokens source.tokens s.nextId).nextId } := by
  simp only [load]
  split
  · split <;> rfl
  · rfl

theorem load_eq_ok_iff : (s.load source).1 = .ok program ↔
    source.lexicalErrors = [] ∧ (Parsed.ofTokens source.tokens s.nextId).program = .ok program := by
  simp only [load]
  split
  · rename_i parsed hparsed
    cases hlexical : source.lexicalErrors <;> simp [hparsed]
  · rename_i errors hparsed
    simp [hparsed]

/-- A script is accepted if it has no lexical error, is derivable, and keeps the scoping rules. Its
hop counts are then recorded. -/
theorem prepare_eq_ok_iff : s.prepare source = (.ok program, s') ↔
    source.lexicalErrors = [] ∧ ∃ next hops,
      Derives .declarations s.nextId source.body program next ∧
      Stmt.hopCounts program = .ok hops ∧
      s' = { s with hops := HopTable.record s.hops hops, nextId := next } := by
  constructor
  · intro h
    rcases hload : s.load source with ⟨errors | read, s₁⟩
    · simp [prepare, hload] at h
    · obtain ⟨hlexical, hparsed⟩ := load_eq_ok_iff.mp (congrArg Prod.fst hload)
      have hs₁ := (congrArg Prod.snd hload).symm.trans (s.load_snd source)
      cases hresolve : s₁.resolve read with
      | error errors => simp [prepare, hload, hresolve] at h
      | ok s₂ =>
          simp only [prepare, hload, hresolve, Prod.mk.injEq, Except.ok.injEq] at h
          obtain ⟨rfl, rfl⟩ := h
          obtain ⟨hops, hhops, rfl⟩ := resolve_eq_ok_iff.mp hresolve
          obtain rfl : s₁ = _ := hs₁
          have hderives := Source.parses_iff.mp (Parsed.eq_of_program hparsed)
          exact ⟨hlexical, _, hops, hderives, hhops, rfl⟩
  · rintro ⟨hlexical, next, hops, hderives, hhops, rfl⟩
    have hparsed := Source.parses_iff.mpr hderives
    have hload : s.load source = (.ok program, { s with nextId := next }) := by
      simp [load, hparsed, hlexical]
    simp only [prepare, hload, resolve_eq_ok_iff.mpr ⟨hops, hhops, rfl⟩]

/-- The program of an accepted script keeps the scoping rules and has new ids, and its hop counts
are looked up before older ones. -/
theorem prepare_ok (h : s.prepare source = (.ok program, s')) :
    (Point.root program).Accepted ∧ Numbered s.nextId (Stmt.idsEach program) s'.nextId ∧
      (∀ id, s'.hop? id = ((Point.root program).found.hops.lookup id).or (s.hop? id)) ∧
      s' = { s with hops := s'.hops, nextId := s'.nextId } := by
  obtain ⟨-, next, hops, hderives, hhops, rfl⟩ := prepare_eq_ok_iff.mp h
  obtain ⟨herrors, rfl⟩ := Stmt.hopCounts_eq_ok_iff.mp hhops
  have hfits : ∀ t ∈ source.body, t.Fits :=
    fun t ht => source.tokens_fit t (Source.mem_tokens ht)
  refine ⟨⟨hderives.wellFormed hfits, herrors⟩, hderives.numbered, fun id => ?_, rfl⟩
  rw [hop?, HopTable.getElem?_record, List.reverse_reverse]
  rfl

/-- Ids that were given before keep their hop counts. -/
theorem hop?_of_prepare (h : s.prepare source = (.ok program, s')) {id : ExprId}
    (hid : id < s.nextId) : s'.hop? id = s.hop? id := by
  obtain ⟨-, hnumbered, hhops, -⟩ := prepare_ok h
  have hnew : id ∉ Stmt.idsEach program :=
    fun hmem => Nat.not_le.mpr hid (hnumbered.mem id hmem).1
  rw [hhops, Point.lookup_of_not_mem (p := .root program) hnew, Option.none_or]

/-- What can be checked of the program and session that preparing a script gives. -/
theorem exists_of_prepare (s : Session) (source : Source) (check : Program → Session → Bool)
    (h : ((s.prepare source).1.toOption.any (check · (s.prepare source).2)) = true) :
    ∃ program s', s.prepare source = (.ok program, s') ∧ check program s' = true := by
  rcases hprepare : s.prepare source with ⟨errors | program, s'⟩
  · rw [hprepare] at h
    cases h
  · rw [hprepare] at h
    exact ⟨program, s', rfl, h⟩

/-- A script that is rejected only uses up ids. -/
theorem prepare_error {errors : List Diagnostic} (h : s.prepare source = (.error errors, s')) :
    s.nextId ≤ s'.nextId ∧ s' = { s with nextId := s'.nextId } := by
  have hle := (Parsed.ofTokens_spec source.tokens s.nextId).1
  have hsame := s.load_snd source
  unfold prepare at h
  split at h
  · rename_i hload
    cases h
    rw [hload] at hsame
    obtain rfl : s' = _ := hsame
    exact ⟨hle, rfl⟩
  · rename_i hload
    rw [hload] at hsame
    split at h
    · cases h
      obtain rfl : s' = _ := hsame
      exact ⟨hle, rfl⟩
    · cases h

end Session

namespace Moment

/-- The world at a moment. -/
def world (a : Moment) : World := a.machine.session.world a.history

/-- The frames at a moment agree with the scopes of what is done and what waits, and the hop counts
that are recorded are those found in the programs that were accepted. -/
structure Coherent (a : Moment) : Prop where
  ok : a.world.Ok
  works : a.world.Works a.machine.session.current a.machine.task a.machine.stack
  recorded : ∀ program ∈ a.history.programs, (Point.root program).Recorded a.machine.session.hop?
  ids : ∀ program ∈ a.history.programs, ∀ id ∈ Stmt.idsEach program,
    id < a.machine.session.nextId
  hops : ∀ id d, a.machine.session.hop? id = some d → id < a.machine.session.nextId

theorem Coherent.new (sink : Sink) (reading : Nat → Float) :
    (idle .start (.new sink reading)).Coherent where
  ok :=
    { accepted := by simp [world, idle, Session.world, History.start]
      size := rfl
      globals := rfl
      values := by
        intro f name v hv
        simp only [world, idle, Session.world, Session.new] at hv
        rw [Heap.local?_define _ (by simp [Heap.empty]), Heap.local?_newFrame] at hv
        split at hv
        · cases hv
          exact World.sound_native _ _
        · simp [Heap.local?, Heap.empty] at hv
      fields := by
        intro i name v hv
        simp [world, idle, Session.world, Session.new, Heap.field?, Heap.define, Heap.newFrame,
          Heap.empty] at hv
      methods := by
        intro c cls name id hcls
        simp [world, idle, Session.world, Session.new, Heap.define, Heap.newFrame,
          Heap.empty] at hcls
      holds := by
        intro f opening hf
        cases f with
        | zero => cases hf
        | succ f => cases hf }
  works := ⟨[], [], .globals, .idle rfl⟩
  recorded := by simp [idle, History.start]
  ids := by simp [idle, History.start]
  hops := by simp [idle, Session.new, Session.hop?]

/-- A step records what it opened and touches neither the table nor the programs. -/
theorem Coherent.step {h : History} {m : Machine} (hcoherent : Coherent ⟨h, m⟩) :
    Coherent ⟨h.extend m.opens, m.step⟩ := by
  have hadvances := Machine.step_advances hcoherent.ok hcoherent.works
  have hhop : m.step.session.hop? = m.session.hop? := by
    funext id
    rw [Session.hop?, hadvances.hops]
    rfl
  refine ⟨hadvances.ok, hadvances.works, ?_, ?_, ?_⟩
  · show ∀ program ∈ h.programs, (Point.root program).Recorded m.step.session.hop?
    rw [hhop]
    exact hcoherent.recorded
  · show ∀ program ∈ h.programs, ∀ id ∈ Stmt.idsEach program, id < m.step.session.nextId
    rw [hadvances.nextId]
    exact hcoherent.ids
  · show ∀ id d, m.step.session.hop? id = some d → id < m.step.session.nextId
    rw [hhop, hadvances.nextId]
    exact hcoherent.hops

/-- Carrying out a program neither records hop counts nor uses up ids. -/
theorem Coherent.run_table {h : History} {m : Machine} (hcoherent : Coherent ⟨h, m⟩)
    (n : Nat) : (Machine.run n m).session.hops = m.session.hops ∧
      (Machine.run n m).session.nextId = m.session.nextId := by
  induction n generalizing h m with
  | zero => exact ⟨rfl, rfl⟩
  | succ n ih =>
      have hadvances := Machine.step_advances hcoherent.ok hcoherent.works
      obtain ⟨hhops, hnextId⟩ := ih hcoherent.step
      rw [Machine.run_succ]
      exact ⟨hhops.trans hadvances.hops, hnextId.trans hadvances.nextId⟩

/-- A machine that has nothing left to do stands in the global frame. -/
theorem Coherent.current_of_halted {h : History} {m : Machine} (hcoherent : Coherent ⟨h, m⟩)
    (hhalted : m.halted = true) : m.session.current = m.session.globals := by
  obtain ⟨task, stack, s⟩ := m
  have hworks := hcoherent.works
  cases stack with
  | cons p stack => cases task <;> cases hhalted
  | nil =>
      cases task with
      | eval | exec | call => cases hhalted
      | value v =>
          obtain ⟨-, scopes, sites, -, hwaits⟩ := hworks
          cases hwaits
      | done =>
          obtain ⟨scopes, sites, -, hwaits⟩ := hworks
          cases hwaits
          assumption
      | returning v =>
          obtain ⟨-, scopes, sites, -, hwaits⟩ := hworks
          cases hwaits
          assumption
      | failing f =>
          obtain ⟨expects, scopes, sites, hwaits⟩ := hworks
          cases hwaits
          assumption

theorem Coherent.finish {h : History} {m : Machine} (hcoherent : Coherent ⟨h, m⟩)
    (hhalted : m.halted = true) : (idle h m.session).Coherent := by
  have hcurrent := hcoherent.current_of_halted hhalted
  refine ⟨hcoherent.ok, ⟨[], [], ?_, .idle hcurrent⟩, hcoherent.recorded, hcoherent.ids,
    hcoherent.hops⟩
  show World.Agrees _ m.session.current [] []
  rw [hcurrent]
  exact .globals

theorem Coherent.current_idle {h : History} {s : Session} (hcoherent : (idle h s).Coherent) :
    s.current = s.globals := hcoherent.current_of_halted rfl

theorem Coherent.start {h : History} {s s' : Session} {source : Source} {program : Program}
    (hcoherent : (idle h s).Coherent) (hprepare : s.prepare source = (.ok program, s')) :
    Coherent ⟨h.accept program, .ofProgram program s'⟩ := by
  obtain ⟨haccepted, hnumbered, hhops, heq⟩ := Session.prepare_ok hprepare
  have hworld : (s.world h).Ok := hcoherent.ok
  obtain ⟨hle, hok⟩ := hworld.accept haccepted
  have hcurrent : s'.current = s'.globals := by
    rw [heq]
    exact hcoherent.current_idle
  have hsession : s'.world (h.accept program) =
      { s.world h with history := h.accept program } := by rw [heq]; rfl
  have hold : ∀ other ∈ h.programs, ∀ id ∈ Stmt.idsEach other, id ∉ Stmt.idsEach program :=
    fun other hother id hid hnew =>
      Nat.lt_irrefl id (Nat.lt_of_lt_of_le (hcoherent.ids other hother id hid)
        (hnumbered.mem id hnew).1)
  constructor
  · show (s'.world (h.accept program)).Ok
    rw [hsession]
    exact hok
  · refine ⟨[], [], ?_, .program hcurrent ⟨program, List.mem_cons_self, .program⟩⟩
    show World.Agrees _ s'.current [] []
    rw [hcurrent]
    exact .globals
  · intro other hother
    rcases List.mem_cons.mp hother with rfl | hother
    · refine ⟨hnumbered.nodup, fun id hid => ?_⟩
      have hnone : s.hop? id = none := by
        cases hhop : s.hop? id with
        | none => rfl
        | some d =>
            exact absurd (hcoherent.hops id d hhop) (Nat.not_lt.mpr (hnumbered.mem id hid).1)
      show s'.hop? id = _
      rw [hhops, hnone, Option.or_none]
    · obtain ⟨hnodup, hrecorded⟩ := hcoherent.recorded other hother
      refine ⟨hnodup, fun id hid => ?_⟩
      show s'.hop? id = _
      rw [hhops, Point.lookup_of_not_mem (hold other hother id hid), Option.none_or]
      exact hrecorded id hid
  · intro other hother id hid
    rcases List.mem_cons.mp hother with rfl | hother
    · exact (hnumbered.mem id hid).2
    · exact Nat.lt_of_lt_of_le (hcoherent.ids other hother id hid) hnumbered.le
  · intro id d hhop
    replace hhop : s'.hop? id = some d := hhop
    rw [hhops] at hhop
    rcases Option.or_eq_some_iff.mp hhop with hfound | ⟨-, hhop⟩
    · have hid : id ∈ Stmt.idsEach program := by
        refine Decidable.byContradiction fun hnot => ?_
        rw [Point.lookup_of_not_mem hnot] at hfound
        cases hfound
      exact (hnumbered.mem id hid).2
    · exact Nat.lt_of_lt_of_le (hcoherent.hops id d hhop) hnumbered.le

theorem Coherent.reject {h : History} {s s' : Session} {source : Source} {errors : List Diagnostic}
    (hcoherent : (idle h s).Coherent) (hprepare : s.prepare source = (.error errors, s')) :
    (idle h s').Coherent := by
  obtain ⟨hle, heq⟩ := Session.prepare_error hprepare
  generalize s'.nextId = next at hle heq
  subst heq
  exact ⟨hcoherent.ok, hcoherent.works, hcoherent.recorded,
    fun program hprogram id hid => Nat.lt_of_lt_of_le (hcoherent.ids program hprogram id hid) hle,
    fun id d hhop => Nat.lt_of_lt_of_le (hcoherent.hops id d hhop) hle⟩

theorem Coherent.next {a b : Moment} (h : a.Coherent) (hnext : Next a b) : b.Coherent := by
  cases hnext with
  | step _ => exact h.step
  | finish hhalted => exact h.finish hhalted
  | start hprepare => exact h.start hprepare
  | reject hprepare => exact h.reject hprepare

/-- Every moment of a session is coherent. -/
theorem Reached.coherent {a : Moment} (h : Reached a) : a.Coherent := by
  obtain ⟨sink, reading, hlater⟩ := h
  exact hlater.induct (.new sink reading) fun _ _ => Coherent.next

end Moment

end ScriptLang
