import ScriptLang.Proofs.Joining.Machines

/-! Running two scripts one after the other, and running them as one. -/

namespace ScriptLang

/-! ### Where tokens come from -/

/-- A token of one of these scripts, or the one that stands for `this` where no script says so. -/
def Token.From (sources : List Source) (t : Token) : Prop :=
  t = Session.thisToken ∨ ∃ source ∈ sources, t ∈ source.tokens

theorem Token.From.mono {sources sources' : List Source} {t : Token} (h : t.From sources)
    (hle : ∀ source ∈ sources, source ∈ sources') : t.From sources' :=
  h.imp id fun ⟨source, hsource, ht⟩ => ⟨source, hle source hsource, ht⟩

namespace Likeness

/-- Tokens of these scripts stand for themselves, and ids are below `next`. -/
def within (sources : List Source) (next : ExprId) : Likeness where
  token t t' := t' = t ∧ t.From sources
  id id := id < next
  kind h := by rw [h.1]
  lexeme h := by rw [h.1]
  this := ⟨rfl, .inl rfl⟩

/-- Tokens of the earlier scripts stand for themselves, those of the last one for tokens further
down. -/
def moved (sources : List Source) (last : Source) (lines : Nat) : Likeness where
  token t t' := t' = t ∧ t.From sources ∨ t ∈ last.tokens ∧ t' = t.down lines
  id _ := True
  kind h := by rcases h with ⟨rfl, -⟩ | ⟨-, rfl⟩ <;> rfl
  lexeme h := by rcases h with ⟨rfl, -⟩ | ⟨-, rfl⟩ <;> rfl
  this := .inl ⟨rfl, .inl rfl⟩

theorem within_exact (sources : List Source) (next : ExprId) : (within sources next).Exact :=
  fun h => h.1

theorem within_implies {sources sources' : List Source} {next next' : ExprId}
    (hsources : ∀ source ∈ sources, source ∈ sources') (hnext : next ≤ next') :
    (within sources next).Implies (within sources' next') :=
  ⟨fun h => ⟨h.1, h.2.mono hsources⟩, fun h => Nat.lt_of_lt_of_le h hnext⟩

theorem within_implies_moved (sources : List Source) (next : ExprId) (last : Source)
    (lines : Nat) : (within sources next).Implies (moved sources last lines) :=
  ⟨.inl, fun _ => trivial⟩

end Likeness

/-! ### What scripts leave behind -/

theorem Machine.eq_of_programEnding {m : Machine} (h : Outcome.ofEnding m.programEnding = .ok) :
    m = ⟨.done, [], m.session⟩ := by
  obtain ⟨task, stack, s⟩ := m
  unfold programEnding at h
  split at h
  case h_1 htask hstack _ =>
    obtain rfl : task = .done := htask
    obtain rfl : stack = [] := hstack
    rfl
  all_goals cases h

/-- Outcomes of accepted scripts, alike. -/
inductive Outcome.Alike (l : Likeness) : Outcome → Outcome → Prop where
  | ok : Outcome.Alike l .ok .ok
  | failed {f f' : Fault} : f.Alike l f' → Outcome.Alike l (.failed f) (.failed f')
  | unfinished : Outcome.Alike l .unfinished .unfinished

theorem Machine.Alike.outcome {l : Likeness} {m m' : Machine} (h : m.Alike l m') :
    Outcome.Alike l (.ofEnding m.programEnding) (.ofEnding m'.programEnding) := by
  obtain ⟨task, stack, s⟩ := m
  obtain ⟨task', stack', s'⟩ := m'
  obtain ⟨htask, hstack, hs⟩ := h
  have hflush : s'.sink.flush = s.sink.flush := by rw [show s'.sink = s.sink from hs.sink]
  cases hstack with
  | cons => cases htask <;> exact .unfinished
  | nil =>
      cases htask with
      | done =>
          simp only [programEnding, hflush]
          cases s.sink.flush with
          | ok => exact .ok
          | error e => exact .failed (.sink e)
      | failing hf =>
          simp only [programEnding, hflush]
          cases s.sink.flush with
          | ok => exact .failed hf
          | error e => exact .failed (.sink e)
      | _ => exact .unfinished

/-- Runs that end alike, and use up the same ids and record the same hop counts. -/
structure Session.RunsAlike (l : Likeness) (a b : Outcome × Session) : Prop where
  outcome : a.1.Alike l b.1
  session : a.2.Alike l b.2
  hops : b.2.hops = a.2.hops
  nextId : b.2.nextId = a.2.nextId

namespace Session

variable {sources : List Source} {history : History} {s s' : Session} {source : Source}
  {program : Program}

theorem Ran.run_table (hran : s.Ran sources history) (h : s.prepare source = (.ok program, s'))
    (n : Nat) : (Machine.run n (.ofProgram program s')).session.hops = s'.hops ∧
      (Machine.run n (.ofProgram program s')).session.nextId = s'.nextId :=
  ((Moment.reached_of_ran hran).coherent.start h).run_table n

theorem run_of_prepare (h : s.prepare source = (.ok program, s')) (n : Nat) :
    s.run n source = (.ofEnding (Machine.run n (.ofProgram program s')).programEnding,
      (Machine.run n (.ofProgram program s')).session) := by
  rw [run, h]
  rfl

/-- The program of an accepted script has only the tokens of the script, and ids used up by it. -/
theorem program_within (h : s.prepare source = (.ok program, s')) :
    Stmt.AlikeEach (.within (source :: sources) s'.nextId) program program := by
  have htokens : ∀ t ∈ source.body,
      (Likeness.within (source :: sources) s'.nextId).token t (t.down 0) :=
    fun t ht => ⟨rfl, .inr ⟨source, List.mem_cons_self, Source.mem_tokens ht⟩⟩
  obtain ⟨program', -, halike⟩ := prepare_down h 0 htokens fun id hid => hid
  have heq := halike.eq (Likeness.within_exact _ _)
  rw [heq] at halike
  exact halike

/-- Reading one more script only allows more tokens and ids. -/
theorem Alike.within_cons (hs : s.Alike (.within sources s.nextId) s) (hheap : s'.heap = s.heap)
    (hle : s.nextId ≤ s'.nextId) : s'.Alike (.within (source :: sources) s'.nextId) s' where
  heap := by
    rw [hheap]
    exact hs.heap.mono (Likeness.within_implies (fun _ => List.mem_cons_of_mem _) hle)
  globals := rfl
  current := rfl
  depth := rfl
  sink := rfl
  clock := rfl
  hops _ _ := rfl

/-- After runs of scripts all that is left has tokens of these scripts and ids used up by them. -/
theorem Ran.within (hran : s.Ran sources history) : s.Alike (.within sources s.nextId) s := by
  induction hran with
  | new sink reading =>
      exact ⟨⟨rfl, rfl, rfl, rfl, fun id => .none⟩, rfl, rfl, rfl, rfl, rfl, fun _ _ => rfl⟩
  | @run sources history s steps source hran _ ih =>
      rcases hprepare : s.prepare source with ⟨errors | program, s'⟩
      · obtain ⟨hle, heq⟩ := prepare_error hprepare
        rw [Session.run, hprepare]
        show s'.Alike (.within (source :: sources) s'.nextId) s'
        exact ih.within_cons (by rw [heq]) hle
      · obtain ⟨-, hnumbered, -, heq⟩ := prepare_ok hprepare
        have hs' : s'.Alike (.within (source :: sources) s'.nextId) s' :=
          ih.within_cons (by rw [heq]) hnumbered.le
        have hstart : Machine.Alike (.within (source :: sources) s'.nextId)
            (.ofProgram program s') (.ofProgram program s') :=
          ⟨.done, .cons (.program (program_within hprepare)) .nil, hs'⟩
        rw [run_of_prepare hprepare, (hran.run_table hprepare steps).2]
        exact (hstart.run steps).session

/-! ### One script after the other -/

theorem of_run_ok {n : Nat} {t : Session} (h : s.run n source = (.ok, t)) :
    ∃ program s', s.prepare source = (.ok program, s') ∧
      Machine.run n (.ofProgram program s') = ⟨.done, [], t⟩ := by
  rcases hprepare : s.prepare source with ⟨errors | program, s'⟩
  · rw [run, hprepare] at h
    cases h
  · refine ⟨program, s', rfl, ?_⟩
    rw [run_of_prepare hprepare] at h
    obtain ⟨hending, hsession⟩ := Prod.mk.inj h
    rw [Machine.eq_of_programEnding hending, hsession]

/-- Two scripts with a line end between them are carried out as the first script and then the
second, moved down to where it stands. -/
theorem run_line (hran : s.Ran sources history) {first more : Source} {n : Nat}
    {t t' : Session} (hfirst : s.run n first = (.ok, t))
    (hmore : t.prepare (.blank (newlines first + 1) ++ more) = (.ok program, t')) :
    ∃ k, ∀ j, s.run (k + j) (first ++ newline :: more) =
      t.run j (.blank (newlines first + 1) ++ more) := by
  obtain ⟨p, s', hprepare, hrun⟩ := of_run_ok hfirst
  obtain ⟨hhops, hnextId⟩ := hran.run_table hprepare n
  rw [hrun] at hhops hnextId
  have hjoined := prepare_line hprepare hmore hhops hnextId
  obtain ⟨-, hnumbered, -, hs'⟩ := prepare_ok hprepare
  obtain ⟨-, hnumbered', hhop, ht'⟩ := prepare_ok hmore
  let l := Likeness.within (first :: sources) s'.nextId
  have hwithin : s'.Alike l s' := hran.within.within_cons (by rw [hs']) hnumbered.le
  have hold (id : ExprId) (hid : id < s'.nextId) : t'.hop? id = s'.hop? id := by
    have hnew : id ∉ Stmt.idsEach program := fun hmem =>
      absurd (Nat.lt_of_lt_of_eq hid hnextId.symm) (Nat.not_lt.mpr (hnumbered'.mem id hmem).1)
    rw [hhop, Point.lookup_of_not_mem hnew, Option.none_or]
    exact congrArg (·[id]?) hhops
  have hsession : s'.Alike l { s with hops := t'.hops, nextId := t'.nextId } := by
    have hother : { s with hops := t'.hops, nextId := t'.nextId } =
        { s' with hops := t'.hops, nextId := t'.nextId } := by rw [hs']
    rw [hother]
    exact { hwithin with hops := hold }
  have hstart : Machine.Alike l ⟨.done, [], s'⟩
      ⟨.done, [], { s with hops := t'.hops, nextId := t'.nextId }⟩ :=
    ⟨.done, .nil, hsession⟩
  obtain ⟨k, u, hk, hu⟩ := hstart.run_rest program (program_within hprepare) hrun
  obtain ⟨hhops', hnextId'⟩ := hran.run_table hjoined k
  replace hk : Machine.run k (.ofProgram (p ++ program) _) = ⟨.done, [.program program], u⟩ := hk
  rw [hk] at hhops' hnextId'
  have hsame : u = t' := by
    calc u = { t with hops := u.hops, nextId := u.nextId } := hu.eq (Likeness.within_exact _ _)
      _ = { t with hops := t'.hops, nextId := t'.nextId } := by
          rw [show u.hops = t'.hops from hhops', show u.nextId = t'.nextId from hnextId']
      _ = t' := ht'.symm
  refine ⟨k, fun j => ?_⟩
  rw [run_of_prepare hjoined, run_of_prepare hmore, Machine.run_add, hk, hsame]
  rfl

/-- A script that is moved down runs alike. -/
theorem run_down (hran : s.Ran sources history) (h : s.prepare source = (.ok program, s'))
    (lines n : Nat) :
    RunsAlike (.moved sources source lines) (s.run n source)
      (s.run n (.blank lines ++ source)) := by
  let l := Likeness.moved sources source lines
  have htokens : ∀ t ∈ source.body, l.token t (t.down lines) :=
    fun t ht => .inr ⟨Source.mem_tokens ht, rfl⟩
  obtain ⟨program', hmoved, halike⟩ := prepare_down h lines htokens fun _ _ => trivial
  obtain ⟨-, -, -, hs'⟩ := prepare_ok h
  have hsession : s'.Alike l s' := by
    have hheap := hran.within.heap.mono (Likeness.within_implies_moved sources _ source lines)
    rw [hs']
    exact ⟨hheap, rfl, rfl, rfl, rfl, rfl, fun _ _ => rfl⟩
  have hstart : Machine.Alike l (.ofProgram program s') (.ofProgram program' s') :=
    ⟨.done, .cons (.program halike) .nil, hsession⟩
  obtain ⟨hhops, hnextId⟩ := hran.run_table h n
  obtain ⟨hhops', hnextId'⟩ := hran.run_table hmoved n
  rw [run_of_prepare h, run_of_prepare hmoved]
  exact ⟨(hstart.run n).outcome, (hstart.run n).session, hhops'.trans hhops.symm,
    hnextId'.trans hnextId.symm⟩

end Session

/-- Two scripts with a line end between them do what the first and then the second do. What is
printed is the same, and so are the frames, classes, instances, ids and hop counts that remain. A
run that fails does so for the same reason at the same token, which stands further down if it is
one of the second script; so do the tokens of the functions that the second script declares. It
makes no difference whether the second script stands after the first or after as many empty
lines. -/
theorem joined_scripts_run_alike {sources : List Source} {history : History} {s t t' : Session}
    (hran : s.Ran sources history) {first more : Source} {n : Nat} {program : Program}
    (hfirst : s.run n first = (.ok, t)) (hmore : t.prepare more = (.ok program, t')) :
    ∃ k, ∀ j,
      s.run (k + j) (first ++ newline :: more) = t.run j (.blank (newlines first + 1) ++ more) ∧
      Session.RunsAlike (.moved (first :: sources) more (newlines first + 1)) (t.run j more)
        (s.run (k + j) (first ++ newline :: more)) := by
  have ht : t.Ran (first :: sources) (history.carryOut n (s.prepare first)) := by
    have hrun := hran.run n first (by rw [hfirst]; exact nofun)
    rw [hfirst] at hrun
    exact hrun
  have htokens : ∀ x ∈ more.body, (Likeness.moved sources more (newlines first + 1)).token x
      (x.down (newlines first + 1)) :=
    fun x hx => .inr ⟨Source.mem_tokens hx, rfl⟩
  obtain ⟨program', hmoved, -⟩ := Session.prepare_down hmore _ htokens fun _ _ => trivial
  obtain ⟨k, hk⟩ := Session.run_line hran hfirst hmoved
  refine ⟨k, fun j => ⟨hk j, ?_⟩⟩
  rw [hk j]
  exact Session.run_down ht hmore _ j

/-- After `var a=nil;//a` the call in the second line of `print a;` and `a();` fails, and in the
script made of both it fails in the third line. -/
theorem joined_scripts_run_alike_call :
    let s := Session.new .unlimited fun _ => 0
    let first : Source := "var a=nil;//a".toUTF8.toList
    let more : Source := "print a;\na();".toUTF8.toList
    let t := (s.run 40 first).2
    let paren : Token := ⟨.rightParen, ")", 2⟩
    (s.run 40 first).1 = .ok ∧ (t.run 40 more).1 = .failed (.raised paren .notCallable) ∧
      ∃ k, (s.run (k + 40) (first ++ newline :: more)).1 =
          .failed (.raised (paren.down 1) .notCallable) ∧
        (s.run (k + 40) (first ++ newline :: more)).2.sink = (t.run 40 more).2.sink := by
  intro s first more t paren
  have hfirst : (s.run 40 first).1 = .ok := by decide +kernel
  have hfails : (t.run 40 more).1 = .failed (.raised paren .notCallable) := by decide +kernel
  obtain ⟨program, t', hmore, -⟩ :=
    Session.exists_of_prepare t more (fun _ _ => true) (by decide +kernel)
  obtain ⟨k, hk⟩ := joined_scripts_run_alike (.new .unlimited fun _ => 0)
    (Prod.ext hfirst rfl : s.run 40 first = (.ok, t)) hmore
  obtain ⟨-, houtcome, hsession, -⟩ := hk 40
  refine ⟨hfirst, hfails, k, ?_, hsession.sink⟩
  have hlines : newlines first + 1 = 1 := by decide +kernel
  have hthis : paren ≠ Session.thisToken := by decide +kernel
  have htokens : paren ∉ first.tokens := by decide +kernel
  rw [hfails, hlines] at houtcome
  generalize (s.run (k + 40) (first ++ newline :: more)).1 = outcome at houtcome ⊢
  cases houtcome with
  | failed hfault =>
      cases hfault with
      | raised _ hparen =>
          rcases hparen with ⟨-, hfrom⟩ | ⟨-, rfl⟩
          · rcases hfrom with hfrom | ⟨source, hsource, hfrom⟩
            · exact absurd hfrom hthis
            · rw [List.mem_singleton.mp hsource] at hfrom
              exact absurd hfrom htokens
          · rfl

end ScriptLang
