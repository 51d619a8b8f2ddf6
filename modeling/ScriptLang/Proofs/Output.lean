import ScriptLang.Proofs.Joining.Scripts
import ScriptLang.Proofs.Numbering.Scripts
import ScriptLang.Proofs.Registers

/-! What a sink does to a run. Machines that differ only in their sinks do the same up to the first
print whose text does not fit; from then on the machine with that sink only gives up what waits. -/

namespace ScriptLang

namespace Sink

/-- A sink that has taken more bytes. -/
def append (k : Sink) (bytes : ByteArray) : Sink := { k with written := k.written ++ bytes }

@[simp]
theorem append_empty (k : Sink) : k.append .empty = k := by simp [append]

theorem append_append (k : Sink) (a b : ByteArray) : (k.append a).append b = k.append (a ++ b) := by
  simp [append, ByteArray.append_assoc]

/-- A sink that takes everything and never fails. -/
structure TakesAll (k : Sink) : Prop where
  limit : k.limit = none
  flush : k.flushFails = false

/-- A sink that takes `room` more bytes and fails at the next. -/
structure HasRoom (k : Sink) (room : Nat) : Prop where
  limit : k.limit = some (k.written.size + room)
  flush : k.flushFails = false

variable {k : Sink} {room : Nat} {bytes : ByteArray}

theorem TakesAll.append (h : k.TakesAll) (bytes : ByteArray) : (k.append bytes).TakesAll :=
  ⟨h.limit, h.flush⟩

theorem TakesAll.write (h : k.TakesAll) (bytes : ByteArray) :
    k.write bytes = (k.append bytes, .ok ()) := by
  obtain ⟨written, limit, flushFails⟩ := k
  obtain rfl : limit = none := h.limit
  rfl

theorem HasRoom.append (h : k.HasRoom room) (hfits : bytes.size ≤ room) :
    (k.append bytes).HasRoom (room - bytes.size) := by
  refine ⟨h.limit.trans (congrArg some ?_), h.flush⟩
  show k.written.size + room = (k.written ++ bytes).size + (room - bytes.size)
  rw [ByteArray.size_append]
  omega

theorem HasRoom.write_of_le (h : k.HasRoom room) (hfits : bytes.size ≤ room) :
    k.write bytes = (k.append bytes, .ok ()) := by
  obtain ⟨written, limit, flushFails⟩ := k
  obtain rfl : limit = some (written.size + room) := h.limit
  simp only [write, Nat.add_sub_cancel_left, if_pos hfits]
  rfl

theorem HasRoom.write_of_lt (h : k.HasRoom room) (hfull : room < bytes.size) :
    k.write bytes = (k.append (bytes.extract 0 room), .error .full) := by
  obtain ⟨written, limit, flushFails⟩ := k
  obtain rfl : limit = some (written.size + room) := h.limit
  simp only [write, Nat.add_sub_cancel_left, if_neg (Nat.not_le.mpr hfull)]
  rfl

end Sink

/-- A session with another sink. -/
def Session.withSink (s : Session) (k : Sink) : Session := { s with sink := k }

namespace Machine

/-- A machine with another sink. -/
def withSink (m : Machine) (k : Sink) : Machine := { m with session := m.session.withSink k }

@[simp]
theorem withSink_sink (m : Machine) (k : Sink) : (m.withSink k).session.sink = k := rfl

/-- The text that the next step prints. -/
def printed : Machine → ByteArray
  | ⟨.value v, .print :: _, s⟩ => (s.heap.display v ++ "\n").toUTF8
  | _ => .empty

/-- The text that `n` steps print. -/
def output : Nat → Machine → ByteArray
  | 0, _ => .empty
  | n + 1, m => m.printed ++ output n m.step

/-! ### Steps that print nothing -/

section

variable (stack : List Pending) (s : Session) (k : Sink)

theorem readName_withSink (id : ExprId) (name : Token) :
    readName id name stack (s.withSink k) = (readName id name stack s).withSink k := by
  have hread : (s.withSink k).read? id name.lexeme = s.read? id name.lexeme := rfl
  unfold readName
  rw [hread]
  cases s.read? id name.lexeme <;> rfl

theorem found_withSink (property : Except Fault Session.Property) :
    found stack (s.withSink k) property = (found stack s property).withSink k := by
  unfold found
  split <;> rfl

theorem applied_withSink (operator : Token) (result : Except FaultCause Value) :
    applied operator stack (s.withSink k) result =
      (applied operator stack s result).withSink k := by
  cases result <;> rfl

theorem evaluate_withSink (e : Expr) :
    evaluate e stack (s.withSink k) = (evaluate e stack s).withSink k := by
  cases e with
  | «variable» id name | this id name => exact readName_withSink stack s k id name
  | super id keyword method => exact found_withSink stack s k _
  | _ => rfl

theorem execute_withSink (st : Stmt) :
    execute st stack (s.withSink k) = (execute st stack s).withSink k := by
  cases st with
  | var name value | ret name value | classDecl _ value => cases value <;> rfl
  | _ => rfl

theorem enter_withSink (f : Function) (arguments : List Value) (paren : Token) :
    enter f arguments paren stack (s.withSink k) =
      (enter f arguments paren stack s).withSink k := by
  unfold enter
  simp only [foldl_define]
  by_cases hdepth : Session.maxDepth ≤ s.depth
  · rw [if_pos hdepth, if_pos (by exact hdepth)]
    rfl
  · rw [if_neg hdepth, if_neg (by exact hdepth)]
    rfl

theorem construct_withSink (c : ClassId) (arguments : List Value) (paren : Token) :
    construct c arguments paren stack (s.withSink k) =
      (construct c arguments paren stack s).withSink k := by
  unfold construct
  simp only [Session.withSink]
  split
  · rfl
  · exact enter_withSink (.initializer _ :: stack) { s with heap := _ } k _ arguments paren

theorem invoke_withSink (callee : Value) (arguments : List Value) (paren : Token) :
    invoke callee arguments paren stack (s.withSink k) =
      (invoke callee arguments paren stack s).withSink k := by
  cases callee with
  | native f =>
      simp only [invoke]
      split <;> rfl
  | function id =>
      simp only [invoke, Session.withSink]
      split
      · split
        · exact enter_withSink stack s k _ arguments paren
        · rfl
      · rfl
  | classObj c =>
      by_cases harity : arguments.length = s.heap.classArity c
      · simp only [invoke]
        rw [if_pos harity, if_pos (by exact harity)]
        exact construct_withSink stack s k c arguments paren
      · simp only [invoke]
        rw [if_neg harity, if_neg (by exact harity)]
        rfl
  | _ => rfl

theorem leave_withSink (f : Function) (v : Value) :
    leave f v stack (s.withSink k) = (leave f v stack s).withSink k := by
  unfold leave
  simp only [Session.withSink]
  split
  · split <;> rfl
  · rfl

theorem receive_withSink (v : Value) {p : Pending} (hp : p ≠ .print) :
    receive v p stack (s.withSink k) = (receive v p stack s).withSink k := by
  cases p with
  | unary operator | binaryRight left operator => exact applied_withSink stack s k operator _
  | logical operator right =>
      simp only [receive]
      generalize (if operator.kind = .kwOr then v.truthy else !v.truthy) = decided
      cases decided <;> rfl
  | assign id name =>
      have hbinder : (s.withSink k).binder? id name.lexeme = s.binder? id name.lexeme := rfl
      simp only [receive, hbinder]
      cases s.binder? id name.lexeme <;> rfl
  | callee paren arguments => cases arguments <;> rfl
  | argument callee paren front rest => cases rest <;> rfl
  | get name => exact found_withSink stack s k _
  | setObject name value => cases v <;> rfl
  | print => exact absurd rfl hp
  | branch thenBranch elseBranch =>
      simp only [receive]
      split
      · rfl
      · cases elseBranch <;> rfl
  | loopTest condition body =>
      simp only [receive]
      split <;> rfl
  | superclass name superclass methods => cases v <;> rfl
  | _ => rfl

theorem proceed_withSink (p : Pending) :
    proceed p stack (s.withSink k) = (proceed p stack s).withSink k := by
  cases p with
  | block rest outer | program rest => cases rest <;> rfl
  | body f => exact leave_withSink stack s k f .nil
  | _ => rfl

theorem unwind_withSink (v : Value) (p : Pending) :
    unwind v p stack (s.withSink k) = (unwind v p stack s).withSink k := by
  cases p with
  | body f => exact leave_withSink stack s k f v
  | _ => rfl

theorem abandon_withSink (f : Fault) (p : Pending) :
    abandon f p stack (s.withSink k) = (abandon f p stack s).withSink k := by
  cases p <;> rfl

end

/-! ### One step -/

/-- The next step prints a value. -/
def Prints (m : Machine) : Prop := ∃ v stack, m.task = .value v ∧ m.stack = .print :: stack

/-- A step that does not print does not look at the sink. -/
theorem prints_or_withSink (m : Machine) :
    m.Prints ∨ m.printed = .empty ∧ ∀ k, (m.withSink k).step = m.step.withSink k := by
  obtain ⟨task, stack, s⟩ := m
  cases task with
  | eval e => exact .inr ⟨rfl, fun k => evaluate_withSink stack s k e⟩
  | exec st => exact .inr ⟨rfl, fun k => execute_withSink stack s k st⟩
  | call callee arguments paren =>
      exact .inr ⟨rfl, fun k => invoke_withSink stack s k callee arguments paren⟩
  | value v =>
      cases stack with
      | nil => exact .inr ⟨rfl, fun k => rfl⟩
      | cons p stack =>
          by_cases hp : p = .print
          · exact .inl ⟨v, stack, rfl, by rw [hp]⟩
          · have hquiet : printed ⟨.value v, p :: stack, s⟩ = .empty := by
              cases p with
              | print => exact absurd rfl hp
              | _ => rfl
            exact .inr ⟨hquiet, fun k => receive_withSink stack s k v hp⟩
  | done =>
      cases stack with
      | nil => exact .inr ⟨rfl, fun k => rfl⟩
      | cons p stack => exact .inr ⟨rfl, fun k => proceed_withSink stack s k p⟩
  | returning v =>
      cases stack with
      | nil => exact .inr ⟨rfl, fun k => rfl⟩
      | cons p stack => exact .inr ⟨rfl, fun k => unwind_withSink stack s k v p⟩
  | failing f =>
      cases stack with
      | nil => exact .inr ⟨rfl, fun k => rfl⟩
      | cons p stack => exact .inr ⟨rfl, fun k => abandon_withSink stack s k f p⟩

/-- What a print leads to. -/
def afterWrite : Except SinkError Unit → Task
  | .ok _ => .done
  | .error e => .failing (.sink e)

/-- A print is over, or fails, as the write to the sink does. -/
theorem step_of_prints {m : Machine} {k k' : Sink} {result : Except SinkError Unit}
    (h : m.Prints) (hwrite : k.write m.printed = (k', result)) :
    (m.withSink k).step = ⟨afterWrite result, m.stack.tail, m.session.withSink k'⟩ := by
  obtain ⟨task, stack, s⟩ := m
  obtain ⟨v, rest, htask, hstack⟩ := h
  obtain rfl : task = .value v := htask
  obtain rfl : stack = .print :: rest := hstack
  have hprint : (s.withSink k).print v = (s.withSink k', result) := by
    have htext : (s.withSink k).sink.write ((s.withSink k).heap.display v ++ "\n").toUTF8 =
        (k', result) := hwrite
    rw [Session.print, htext]
    rfl
  show receive v .print rest (s.withSink k) = _
  simp only [receive, hprint]
  cases result <;> rfl

/-- Where the text fits, a step does the same with any sink. -/
theorem step_withSink {m : Machine} {k : Sink} (hsink : m.session.sink.TakesAll)
    (hwrite : k.write m.printed = (k.append m.printed, .ok ())) :
    (m.withSink k).step = m.step.withSink (k.append m.printed) := by
  rcases m.prints_or_withSink with hprints | ⟨hquiet, hstep⟩
  · have hfree : m.step = ⟨.done, m.stack.tail, m.session.withSink _⟩ :=
      step_of_prints (k := m.session.sink) hprints (hsink.write m.printed)
    rw [step_of_prints hprints hwrite, hfree]
    rfl
  · rw [hquiet, Sink.append_empty]
    exact hstep k

theorem step_sink {m : Machine} (hsink : m.session.sink.TakesAll) :
    m.step.session.sink = m.session.sink.append m.printed :=
  congrArg (·.session.sink) (step_withSink (k := m.session.sink) hsink (hsink.write m.printed))

theorem takesAll_step {m : Machine} (hsink : m.session.sink.TakesAll) :
    m.step.session.sink.TakesAll := by
  rw [step_sink hsink]
  exact hsink.append m.printed

/-- What a sink does not take was to be printed. -/
theorem prints_of_room {m : Machine} {room : Nat} (hfull : room < m.printed.size) : m.Prints := by
  rcases m.prints_or_withSink with hprints | ⟨hquiet, -⟩
  · exact hprints
  · rw [hquiet] at hfull
    exact absurd hfull (Nat.not_lt_zero room)

/-! ### Runs -/

theorem run_sink {m : Machine} (hsink : m.session.sink.TakesAll) (n : Nat) :
    (run n m).session.sink = m.session.sink.append (output n m) := by
  induction n generalizing m with
  | zero => exact (m.session.sink.append_empty).symm
  | succ n ih =>
      rw [run_succ, ih (takesAll_step hsink), step_sink hsink, Sink.append_append]
      rfl

/-- As long as the text fits, a run does the same with a limited sink. -/
theorem run_withSink {m : Machine} (hsink : m.session.sink.TakesAll) {k : Sink} {room : Nat}
    (hk : k.HasRoom room) {n : Nat} (hfits : (output n m).size ≤ room) :
    run n (m.withSink k) = (run n m).withSink (k.append (output n m)) := by
  induction n generalizing m k room with
  | zero =>
      show m.withSink k = m.withSink (k.append .empty)
      rw [Sink.append_empty]
  | succ n ih =>
      have hsize : (output (n + 1) m).size = m.printed.size + (output n m.step).size :=
        ByteArray.size_append
      have hfirst : m.printed.size ≤ room := by omega
      have hrest : (output n m.step).size ≤ room - m.printed.size := by omega
      rw [run_succ, run_succ, step_withSink hsink (hk.write_of_le hfirst),
        ih (takesAll_step hsink) (hk.append hfirst) hrest, Sink.append_append]
      rfl

/-- The step at which the text of a run stops to fit. -/
theorem exists_full {m : Machine} {room n : Nat} (hfull : room < (output n m).size) :
    ∃ j < n, (output j m).size ≤ room ∧ room < (output j m).size + (run j m).printed.size := by
  induction n generalizing m room with
  | zero => exact absurd hfull (Nat.not_lt_zero room)
  | succ n ih =>
      have hsize : (output (n + 1) m).size = m.printed.size + (output n m.step).size :=
        ByteArray.size_append
      by_cases hfirst : room < m.printed.size
      · refine ⟨0, Nat.succ_pos n, Nat.zero_le room, ?_⟩
        show room < 0 + m.printed.size
        omega
      · have hrest : room - m.printed.size < (output n m.step).size := by omega
        obtain ⟨j, hj, hbefore, hafter⟩ := ih hrest
        have hsize' : (output (j + 1) m).size = m.printed.size + (output j m.step).size :=
          ByteArray.size_append
        refine ⟨j + 1, Nat.succ_lt_succ hj, by omega, ?_⟩
        rw [run_succ]
        omega

theorem output_add (i j : Nat) (m : Machine) :
    output (i + j) m = output i m ++ output j (run i m) := by
  induction i generalizing m with
  | zero =>
      rw [Nat.zero_add]
      exact ByteArray.empty_append.symm
  | succ i ih =>
      rw [Nat.succ_add_eq_add_succ, run_succ]
      show m.printed ++ output (i + j) m.step = m.printed ++ output i m.step ++ _
      rw [ih, ByteArray.append_assoc]

/-- The bytes printed before a print that does not fit, and those of it that do, are the first
bytes of the whole output. -/
theorem extract_output {m : Machine} {room j n : Nat} (hj : j < n)
    (hbefore : (output j m).size ≤ room)
    (hafter : room < (output j m).size + (run j m).printed.size) :
    (output n m).extract 0 room =
      output j m ++ (run j m).printed.extract 0 (room - (output j m).size) := by
  obtain ⟨i, rfl⟩ : ∃ i, n = j + (i + 1) := ⟨n - j - 1, by omega⟩
  have hwhole : (output j m).extract 0 room = output j m := by
    rw [← Nat.max_eq_left hbefore]
    exact ByteArray.extract_zero_max_size
  have hrest : (output i (run j m).step).extract (0 - (run j m).printed.size)
      (room - (output j m).size - (run j m).printed.size) = .empty := by
    rw [ByteArray.extract_eq_empty_iff]
    omega
  rw [output_add, ByteArray.extract_append, hwhole, Nat.zero_sub]
  show _ ++ ((run j m).printed ++ output i (run j m).step).extract _ _ = _
  rw [ByteArray.extract_append, hrest, ByteArray.append_empty]

/-! ### Cut off -/

/-- A step ends at most one piece of the work that waits. -/
theorem length_stack_step (m : Machine) : m.stack.length ≤ m.step.stack.length + 1 := by
  obtain ⟨task, stack, s⟩ := m
  cases stack with
  | nil => exact Nat.zero_le _
  | cons p stack =>
      have hbusy : halted ⟨task, [p], s⟩ = false := by cases task <;> rfl
      have hstep := congrArg (·.stack.length) (step_below hbusy stack)
      have hlength : (step ⟨task, p :: stack, s⟩).stack.length =
          (step ⟨task, [p], s⟩).stack.length + stack.length := by
        rw [← List.length_append]
        exact hstep
      rw [hlength, List.length_cons]
      omega

theorem length_stack_run (n : Nat) (m : Machine) :
    m.stack.length ≤ (run n m).stack.length + n := by
  induction n generalizing m with
  | zero => exact Nat.le_refl _
  | succ n ih =>
      have hstep := length_stack_step m
      have hrest := ih m.step
      rw [run_succ]
      omega

/-- The machine `m'` does what `m` does up to its step `j`, a print that fails. After that it takes
up nothing, and only gives up the work that waits. -/
structure CutsOff (m m' : Machine) (j : Nat) : Prop where
  agrees : ∀ i ≤ j, ∃ k, run i m' = (run i m).withSink k
  prints : (run j m').Prints
  fails : ∀ i > j, (run i m').task = .failing (.sink .full)
  gives_up : ∀ i > j, (run i m').stack = (run j m').stack.drop (i - j)
  keeps : ∀ i > j, ∃ current depth sink,
    (run i m').session = { (run j m').session with current, depth, sink }

theorem Prints.withSink {m : Machine} (h : m.Prints) (k : Sink) : (m.withSink k).Prints := h

/-- A run whose text does not fit is cut off at a print, and what fits is written. -/
theorem exists_cutsOff {m : Machine} (hsink : m.session.sink.TakesAll) {k : Sink} {room : Nat}
    (hk : k.HasRoom room) {n : Nat} (hfull : room < (output n m).size) :
    ∃ j < n, CutsOff m (m.withSink k) j ∧ ∀ i > j,
      (run i (m.withSink k)).session.sink = k.append ((output n m).extract 0 room) := by
  obtain ⟨j, hj, hbefore, hafter⟩ := exists_full hfull
  have hagrees : ∀ i ≤ j, run i (m.withSink k) = (run i m).withSink (k.append (output i m)) := by
    intro i hi
    refine run_withSink hsink hk ?_
    obtain ⟨rest, rfl⟩ := Nat.exists_eq_add_of_le hi
    rw [output_add, ByteArray.size_append] at hbefore
    omega
  have hroom := hk.append hbefore
  have hexceeds : room - (output j m).size < (run j m).printed.size := by omega
  have hprints := prints_of_room hexceeds
  have hwritten := extract_output hj hbefore hafter
  have hstep : run (j + 1) (m.withSink k) = ⟨.failing (.sink .full), (run j m).stack.tail,
      (run j m).session.withSink (k.append ((output n m).extract 0 room))⟩ := by
    rw [run_add, hagrees j (Nat.le_refl j), run_succ,
      step_of_prints hprints (hroom.write_of_lt hexceeds), Sink.append_append, hwritten]
    rfl
  have hlater : ∀ i > j, ∃ current depth, run i (m.withSink k) = ⟨.failing (.sink .full),
      (run j m).stack.drop (i - j), { (run j m).session with
        current, depth, sink := k.append ((output n m).extract 0 room) }⟩ := by
    intro i hi
    obtain ⟨rest, rfl⟩ := Nat.exists_eq_add_of_le (Nat.succ_le_of_lt hi)
    obtain ⟨current, depth, hfailing⟩ := run_failing (.sink .full) rest (run j m).stack.tail
      ((run j m).session.withSink (k.append ((output n m).extract 0 room)))
    refine ⟨current, depth, ?_⟩
    rw [run_add, Nat.succ_eq_add_one, hstep, hfailing, ← List.drop_one, List.drop_drop,
      show j + 1 + rest - j = 1 + rest by omega]
    rfl
  refine ⟨j, hj, ⟨fun i hi => ⟨_, hagrees i hi⟩, ?_, fun i hi => ?_, fun i hi => ?_,
    fun i hi => ?_⟩, fun i hi => ?_⟩
  · rw [hagrees j (Nat.le_refl j)]
    exact hprints.withSink _
  all_goals
    obtain ⟨current, depth, hi⟩ := hlater i hi
    rw [hi]
  · rw [hagrees j (Nat.le_refl j)]
    rfl
  · rw [hagrees j (Nat.le_refl j)]
    exact ⟨current, depth, _, rfl⟩

/-- A program that is over before the text of its run stops to fit ends the same with a limited
sink. -/
theorem programEnding_withSink {m : Machine} (hsink : m.session.sink.TakesAll) {k : Sink}
    (hk : k.flushFails = false) : (m.withSink k).programEnding = m.programEnding := by
  have hflush : k.flush = m.session.sink.flush := by rw [Sink.flush, Sink.flush, hk, hsink.flush]
  unfold programEnding
  rw [withSink_sink, hflush]
  rfl

/-- Where a run is over after `n` steps, the run that is cut off is over as well. -/
theorem CutsOff.programEnding {m m' : Machine} {j n : Nat} (h : CutsOff m m' j) (hj : j < n)
    (hhalted : (run n m).halted = true) (hflush : (run n m').session.sink.flushFails = false) :
    (run n m').programEnding = .failed (.sink .full) := by
  obtain ⟨k, hagrees⟩ := h.agrees j (Nat.le_refl j)
  have hlength := length_stack_run (n - j) (run j m)
  rw [← run_add, Nat.add_sub_cancel' (Nat.le_of_lt hj), (halted_iff.mp hhalted).2,
    List.length_nil, Nat.zero_add] at hlength
  have hstack : (run n m').stack = [] := by
    rw [h.gives_up n hj, hagrees]
    exact List.drop_eq_nil_of_le hlength
  unfold Machine.programEnding
  rw [h.fails n hj, hstack, Sink.flush, hflush]
  rfl

end Machine

/-! ### Scripts -/

namespace Session

/-- Reading a script does not look at the sink. -/
theorem prepare_withSink (s : Session) (k : Sink) (source : Source) :
    (s.withSink k).prepare source = ((s.prepare source).1, (s.prepare source).2.withSink k) := by
  by_cases h : source.diagnostics = []
  · obtain ⟨program, hops, next, hreads⟩ := Source.reads_of_diagnostics h
    rw [prepare_of_reads _ hreads, prepare_of_reads _ hreads]
    rfl
  · rw [prepare_of_diagnostics _ h, prepare_of_diagnostics _ h]
    rfl

theorem prepare_sink {s s' : Session} {source : Source} {program : Program}
    (h : s.prepare source = (.ok program, s')) : s'.sink = s.sink := by
  obtain ⟨-, -, -, heq⟩ := prepare_ok h
  rw [heq]

end Session

/-- A sink that takes only so many bytes gets the first bytes of what the script prints. If that is
all, the run is the same; otherwise it fails with the error of the sink, at a print up to which it
is the same and after which nothing more is evaluated or carried out. -/
theorem sink_only_cuts_off {s : Session} {source : Source} {n : Nat} (hsink : s.sink.TakesAll)
    (hfinished : (s.run n source).1 ≠ .unfinished) :
    ∃ printed : ByteArray, (s.run n source).2.sink = s.sink.append printed ∧
      ∀ (k : Sink) (room : Nat), k.HasRoom room →
        ((s.withSink k).run n source).2.sink =
          k.append (printed.extract 0 (min room printed.size)) ∧
        (printed.size ≤ room → (s.withSink k).run n source =
          ((s.run n source).1, (s.run n source).2.withSink (k.append printed))) ∧
        (room < printed.size →
          ((s.withSink k).run n source).1 = .failed (.sink .full) ∧
          ∃ program s' j, s.prepare source = (.ok program, s') ∧
            (s.withSink k).prepare source = (.ok program, s'.withSink k) ∧ j < n ∧
            Machine.CutsOff (.ofProgram program s') (.ofProgram program (s'.withSink k)) j) := by
  rcases hprepare : s.prepare source with ⟨errors | program, s'⟩
  · -- A rejected script prints nothing.
    obtain ⟨-, heq⟩ := Session.prepare_error hprepare
    have hrun : s.run n source = (.rejected errors, s') := by rw [Session.run, hprepare]; rfl
    have hrun' (k : Sink) : (s.withSink k).run n source = (.rejected errors, s'.withSink k) := by
      rw [Session.run, Session.prepare_withSink, hprepare]
      rfl
    refine ⟨.empty, ?_, fun k room _ =>
      ⟨?_, fun _ => ?_, fun hroom => absurd hroom (Nat.not_lt_zero room)⟩⟩
    · rw [hrun, Sink.append_empty, heq]
    · rw [hrun', ByteArray.size_empty, Nat.min_zero, ByteArray.extract_same, Sink.append_empty]
      rfl
    · rw [hrun, hrun', Sink.append_empty]
  · let m := Machine.ofProgram program s'
    have hm : m.session.sink.TakesAll := by
      show s'.sink.TakesAll
      rw [Session.prepare_sink hprepare]
      exact hsink
    have hrun := Session.run_of_prepare hprepare n
    have hprepare' (k : Sink) : (s.withSink k).prepare source = (.ok program, s'.withSink k) := by
      rw [Session.prepare_withSink, hprepare]
    have hrun' (k : Sink) := Session.run_of_prepare (hprepare' k) n
    have hhalted : (m.run n).halted = true := by
      rw [hrun] at hfinished
      exact Moment.halted_of_programEnding hfinished
    have hend : (m.run n).session.sink.TakesAll := by
      rw [Machine.run_sink hm]
      exact hm.append _
    refine ⟨m.output n, ?_, fun k room hk => ?_⟩
    · rw [hrun, ← Session.prepare_sink hprepare]
      exact Machine.run_sink hm n
    · rw [hrun, hrun']
      rcases Nat.lt_or_ge room (m.output n).size with hfull | hfits
      · obtain ⟨j, hj, hcut, hwritten⟩ := Machine.exists_cutsOff hm hk hfull
        rw [Nat.min_eq_left (Nat.le_of_lt hfull)]
        refine ⟨hwritten n hj, fun h => absurd hfull (Nat.not_lt.mpr h), fun _ => ⟨?_, ?_⟩⟩
        · have hflush : (Machine.run n (m.withSink k)).session.sink.flushFails = false := by
            rw [hwritten n hj]
            exact hk.flush
          exact congrArg Outcome.ofEnding (hcut.programEnding hj hhalted hflush)
        · exact ⟨program, s', j, rfl, hprepare' k, hj, hcut⟩
      · have hsame : Machine.run n (.ofProgram program (s'.withSink k)) =
            (m.run n).withSink (k.append (m.output n)) := Machine.run_withSink hm hk hfits
        rw [Nat.min_eq_right hfits, ByteArray.extract_zero_size, hsame]
        refine ⟨rfl, fun _ => ?_, fun h => absurd hfits (Nat.not_le.mpr h)⟩
        rw [Machine.programEnding_withSink hend (k := k.append (m.output n)) hk.flush]
        rfl

/-- Of the nine bytes that `print true;print nil;` prints, a sink with room for six takes the first
line and one byte of the second. -/
theorem sink_only_cuts_off_six :
    let s := Session.new .unlimited fun _ => 0
    let source : Source := "print true;print nil;".toUTF8.toList
    let k : Sink := ⟨.empty, some 6, false⟩
    (s.run 12 source).1 = .ok ∧ (s.run 12 source).2.sink.written = "true\nnil\n".toUTF8 ∧
      ((s.withSink k).run 12 source).1 = .failed (.sink .full) ∧
      ((s.withSink k).run 12 source).2.sink.written = "true\nn".toUTF8 := by
  intro s source k
  have hok : (s.run 12 source).1 = .ok := by decide +kernel
  have hfinished : (s.run 12 source).1 ≠ .unfinished := by
    rw [hok]
    exact nofun
  have hwritten : (s.run 12 source).2.sink.written = "true\nnil\n".toUTF8 := by decide +kernel
  obtain ⟨printed, hprinted, hcut⟩ := sink_only_cuts_off ⟨rfl, rfl⟩ hfinished
  obtain rfl : printed = "true\nnil\n".toUTF8 := by
    rw [← hwritten, hprinted]
    exact ByteArray.empty_append.symm
  obtain ⟨hsink, -, hfull⟩ := hcut k 6 ⟨rfl, rfl⟩
  refine ⟨hok, hwritten, (hfull (by decide +kernel)).1, ?_⟩
  rw [hsink]
  decide +kernel

end ScriptLang
