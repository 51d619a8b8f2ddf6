import ScriptLang.Proofs.Frames.Coherence
import ScriptLang.Proofs.Tasks

/-! The registers of a session: the frame it stands in, the number of calls that are active and the
global frame.
Waiting work knows what they were, and every step keeps what they will be once that work is over;
so whatever is begun leaves them as it found them, however it ends. -/

namespace ScriptLang

/-- The frame a session stands in, how many calls are active, and which frame is the global one. -/
structure Registers where
  current : FrameId
  depth : Nat
  globals : FrameId

def Session.registers (s : Session) : Registers := ⟨s.current, s.depth, s.globals⟩

namespace Registers

/-- The registers once waiting work is over: the end of a block leads back to the frame around it,
and the end of a body ends a call. -/
def after (r : Registers) : Pending → Registers
  | .block _ outer => { r with current := outer }
  | .body _ => { r with depth := r.depth - 1 }
  | _ => r

/-- The registers once all the work of a stack is over. -/
def afterAll (r : Registers) (stack : List Pending) : Registers := stack.foldl after r

theorem globals_afterAll (r : Registers) (stack : List Pending) :
    (r.afterAll stack).globals = r.globals := by
  induction stack generalizing r with
  | nil => rfl
  | cons p stack ih =>
      have hp : (r.after p).globals = r.globals := by cases p <;> rfl
      rw [← hp]
      exact ih (r.after p)

end Registers

namespace Machine

/-- A machine to which the session `s` may go when the work of `stack` waits: that work will find
the same registers, and not too many calls are active. -/
structure Steady (s : Session) (stack : List Pending) (m : Machine) : Prop where
  restores : m.session.registers.afterAll m.stack = s.registers.afterAll stack
  bounded : s.depth ≤ Session.maxDepth → m.session.depth ≤ Session.maxDepth

/-- A machine with as many active calls as before. -/
theorem Steady.stay {s : Session} {stack : List Pending} {m : Machine}
    (hrestores : m.session.registers.afterAll m.stack = s.registers.afterAll stack)
    (hdepth : m.session.depth = s.depth) : Steady s stack m :=
  ⟨hrestores, fun h => by rwa [hdepth]⟩

/-- Work that changes no register may wait as well. -/
theorem Steady.under {s : Session} {stack : List Pending} {m : Machine} (h : Steady s stack m)
    {p : Pending} (hp : s.registers.after p = s.registers) : Steady s (p :: stack) m := by
  refine ⟨?_, h.bounded⟩
  rw [h.restores, Registers.afterAll, Registers.afterAll, List.foldl_cons, hp]

variable (stack : List Pending) (s : Session)

/-! ### Starting a task -/

theorem readName_steady (id : ExprId) (name : Token) :
    Steady s stack (readName id name stack s) := by
  unfold readName
  split <;> exact .stay rfl rfl

theorem found_steady (property : Except Fault Session.Property) :
    Steady s stack (found stack s property) := by
  unfold found
  split <;> exact .stay rfl rfl

theorem evaluate_steady (e : Expr) : Steady s stack (evaluate e stack s) := by
  cases e with
  | «variable» id name | this id name => exact readName_steady stack s id name
  | super id keyword method => exact found_steady stack s _
  | _ => exact .stay rfl rfl

theorem execute_steady (st : Stmt) : Steady s stack (execute st stack s) := by
  cases st with
  | var name value | ret name value | classDecl name value methods =>
      cases value <;> exact .stay rfl rfl
  | _ => exact .stay rfl rfl

/-! ### Calls -/

/-- A call leads back to the frame it is made from, and is made only if one more may be active. -/
theorem enter_steady (f : Function) (arguments : List Value) (paren : Token) :
    Steady s stack (enter f arguments paren stack s) := by
  unfold enter
  split
  · exact .stay rfl rfl
  · rename_i hdepth
    simp only [foldl_define]
    exact ⟨rfl, fun _ => Nat.succ_le_of_lt (Nat.lt_of_not_le hdepth)⟩

theorem construct_steady (c : ClassId) (arguments : List Value) (paren : Token) :
    Steady s stack (construct c arguments paren stack s) := by
  unfold construct
  simp only
  split
  · exact .stay rfl rfl
  · obtain ⟨hrestores, hbounded⟩ := enter_steady (.initializer s.heap.instances.size :: stack)
      { s with heap := _ } _ arguments paren
    exact ⟨hrestores, hbounded⟩

theorem invoke_steady (callee : Value) (arguments : List Value) (paren : Token) :
    Steady s stack (invoke callee arguments paren stack s) := by
  unfold invoke
  split
  · split <;> exact .stay rfl rfl
  · split
    · split
      · exact enter_steady stack s _ arguments paren
      · exact .stay rfl rfl
    · exact .stay rfl rfl
  · simp only
    split
    · exact construct_steady stack s _ arguments paren
    · exact .stay rfl rfl
  · exact .stay rfl rfl

theorem leave_steady (f : Function) (v : Value) :
    Steady s (.body f :: stack) (leave f v stack s) := by
  have hbounded : s.depth ≤ Session.maxDepth → s.depth - 1 ≤ Session.maxDepth :=
    Nat.le_trans (Nat.sub_le _ _)
  unfold leave
  simp only
  split
  · split <;> exact ⟨rfl, hbounded⟩
  · exact ⟨rfl, hbounded⟩

/-! ### Going on after a task -/

theorem applied_steady (operator : Token) (result : Except FaultCause Value) :
    Steady s stack (applied operator stack s result) := by
  cases result <;> exact .stay rfl rfl

theorem print_steady (v : Value) : Steady s (.print :: stack) (receive v .print stack s) := by
  simp only [receive, Session.print]
  rcases s.sink.write (s.heap.display v ++ "\n").toUTF8 with ⟨sink, result⟩
  cases result <;> exact .stay rfl rfl

theorem receive_steady (v : Value) (p : Pending) :
    Steady s (p :: stack) (receive v p stack s) := by
  cases p with
  | unary operator | binaryRight left operator =>
      exact (applied_steady stack s operator _).under rfl
  | logical operator right =>
      simp only [receive]
      generalize (if operator.kind = .kwOr then v.truthy else !v.truthy) = decided
      cases decided <;> exact .stay rfl rfl
  | assign id name =>
      simp only [receive]
      split <;> exact .stay rfl rfl
  | callee paren arguments => cases arguments <;> exact .stay rfl rfl
  | argument callee paren front rest => cases rest <;> exact .stay rfl rfl
  | get name => exact (found_steady stack s _).under rfl
  | setObject name value => cases v <;> exact .stay rfl rfl
  | print => exact print_steady stack s v
  | branch thenBranch elseBranch =>
      simp only [receive]
      split
      · exact .stay rfl rfl
      · cases elseBranch <;> exact .stay rfl rfl
  | loopTest condition body =>
      simp only [receive]
      split <;> exact .stay rfl rfl
  | superclass name superclass methods => cases v <;> exact .stay rfl rfl
  | _ => exact .stay rfl rfl

theorem proceed_steady (p : Pending) : Steady s (p :: stack) (proceed p stack s) := by
  cases p with
  | block rest outer | program rest => cases rest <;> exact .stay rfl rfl
  | body f => exact leave_steady stack s f .nil
  | _ => exact .stay rfl rfl

theorem unwind_steady (v : Value) (p : Pending) : Steady s (p :: stack) (unwind v p stack s) := by
  cases p with
  | body f => exact leave_steady stack s f v
  | _ => exact .stay rfl rfl

theorem abandon_steady (f : Fault) (p : Pending) :
    Steady s (p :: stack) (abandon f p stack s) := by
  cases p with
  | body f => exact ⟨rfl, Nat.le_trans (Nat.sub_le _ _)⟩
  | _ => exact .stay rfl rfl

/-! ### Runs -/

/-- Every step of every machine is steady. -/
theorem step_steady (m : Machine) : Steady m.session m.stack m.step := by
  obtain ⟨task, stack, s⟩ := m
  cases task with
  | eval e => exact evaluate_steady stack s e
  | exec st => exact execute_steady stack s st
  | call callee arguments paren => exact invoke_steady stack s callee arguments paren
  | value v =>
      cases stack with
      | nil => exact .stay rfl rfl
      | cons p stack => exact receive_steady stack s v p
  | done =>
      cases stack with
      | nil => exact .stay rfl rfl
      | cons p stack => exact proceed_steady stack s p
  | returning v =>
      cases stack with
      | nil => exact .stay rfl rfl
      | cons p stack => exact unwind_steady stack s v p
  | failing f =>
      cases stack with
      | nil => exact .stay rfl rfl
      | cons p stack => exact abandon_steady stack s f p

theorem run_steady (n : Nat) (m : Machine) : Steady m.session m.stack (run n m) := by
  refine run_induct (Steady m.session m.stack) (fun m' h => ?_) (.stay rfl rfl) n
  obtain ⟨hrestores, hbounded⟩ := step_steady m'
  exact ⟨hrestores.trans h.restores, fun hdepth => hbounded (h.bounded hdepth)⟩

theorem step_globals (m : Machine) : m.step.session.globals = m.session.globals := by
  have hrestores := congrArg Registers.globals (step_steady m).restores
  rw [Registers.globals_afterAll, Registers.globals_afterAll] at hrestores
  exact hrestores

theorem run_globals (n : Nat) (m : Machine) : (run n m).session.globals = m.session.globals := by
  refine run_induct (·.session.globals = m.session.globals) (fun m' h => ?_) rfl n
  rw [step_globals, h]

/-- What is over has left the registers as it found them. -/
theorem Finishes.registers {m : Machine} {n : Nat} (h : m.Finishes n) :
    (run n m).session.registers = m.session.registers := by
  have hrestores := (run_steady n m.alone).restores
  rw [h.alone_stack] at hrestores
  rw [h.lasts.session_eq]
  exact hrestores

end Machine

/-! ### Calls at the limit -/

/-- The function of a script that calling a value runs: the function itself, or the initializer of
the class. -/
def Session.callee? (s : Session) : Value → Option Function
  | .function id => s.heap.functions[id]?
  | .classObj c => s.heap.method? c initName
  | _ => none

namespace Machine

/-- What a machine begins fails before any statement is carried out. -/
def Refuses (m : Machine) (fault : Fault) : Prop :=
  ∃ n, m.Finishes n ∧ (run n m).task = .failing fault ∧ ∀ k ≤ n, ∀ st, (run k m).task ≠ .exec st

theorem abandon_eq (fault : Fault) (p : Pending) (stack : List Pending) (s : Session) :
    ∃ current depth,
      abandon fault p stack s = ⟨.failing fault, stack, { s with current, depth }⟩ := by
  cases p <;> exact ⟨_, _, rfl⟩

/-- A failure drops the work that waits, piece by piece, and changes nothing but the registers. -/
theorem run_failing (fault : Fault) (n : Nat) (stack : List Pending) (s : Session) :
    ∃ current depth, run n ⟨.failing fault, stack, s⟩ =
      ⟨.failing fault, stack.drop n, { s with current, depth }⟩ := by
  induction n generalizing stack s with
  | zero => exact ⟨s.current, s.depth, rfl⟩
  | succ n ih =>
      cases stack with
      | nil =>
          rw [run_of_halted rfl]
          exact ⟨s.current, s.depth, rfl⟩
      | cons p stack =>
          obtain ⟨current, depth, hstep⟩ := abandon_eq fault p stack s
          rw [run_succ]
          show ∃ current depth, run n (abandon fault p stack s) = _
          rw [hstep]
          exact ih stack { s with current, depth }

theorem refuses_of_step {callee : Value} {arguments : List Value} {paren : Token}
    {stack : List Pending} {s : Session} {fault : Fault} (front : List Pending)
    (hstep : ∃ s', invoke callee arguments paren stack s = ⟨.failing fault, front ++ stack, s'⟩) :
    Refuses ⟨.call callee arguments paren, stack, s⟩ fault := by
  obtain ⟨s', hstep⟩ := hstep
  have hrun : ∀ k ≤ front.length, ∃ s'', run (k + 1) ⟨.call callee arguments paren, stack, s⟩ =
      ⟨.failing fault, front.drop k ++ stack, s''⟩ := by
    intro k hk
    obtain ⟨current, depth, hfailing⟩ := run_failing fault k (front ++ stack) s'
    rw [run_succ]
    show ∃ s'', run k (invoke callee arguments paren stack s) = _
    rw [hstep, hfailing, List.drop_append_of_le_length hk]
    exact ⟨_, rfl⟩
  obtain ⟨s'', hend⟩ := hrun front.length (Nat.le_refl _)
  rw [List.drop_length] at hend
  refine ⟨front.length + 1, ⟨fun k hk hover => ?_, by rw [hend]; rfl, by rw [hend]; rfl⟩,
    by rw [hend], fun k hk st => ?_⟩
  · cases k with
    | zero => cases hover
    | succ k =>
        have hlt : k < front.length := Nat.lt_of_succ_lt_succ hk
        obtain ⟨s'', hk'⟩ := hrun k (Nat.le_of_lt hlt)
        rw [hk', List.length_append, List.length_drop]
        show stack.length < _
        omega
  · cases k with
    | zero => exact nofun
    | succ k =>
        obtain ⟨s'', hk'⟩ := hrun k (Nat.le_of_succ_le_succ hk)
        rw [hk']
        exact nofun

theorem enter_of_limit {s : Session} (h : Session.maxDepth ≤ s.depth) (f : Function)
    (arguments : List Value) (paren : Token) (stack : List Pending) :
    enter f arguments paren stack s = ⟨.failing (.raised paren .stackOverflow), stack, s⟩ :=
  if_pos h

variable {callee : Value} {arguments : List Value} {s : Session} {f : Function}

theorem Session.classArity_of_callee {c : ClassId} (hcallee : s.callee? (.classObj c) = some f) :
    s.heap.classArity c = f.decl.arity := by
  have hf : s.heap.method? c initName = some f := hcallee
  rw [Heap.classArity, hf]

/-- No function is called with more or fewer arguments than it has parameters. -/
theorem refuses_of_arity (hcallee : s.callee? callee = some f)
    (harity : arguments.length ≠ f.decl.arity) (paren : Token) (stack : List Pending) :
    Refuses ⟨.call callee arguments paren, stack, s⟩
      (.raised paren (.wrongArity f.decl.arity arguments.length)) := by
  refine refuses_of_step [] ⟨s, ?_⟩
  cases callee with
  | function id =>
      have hf : s.heap.functions[id]? = some f := hcallee
      simp only [invoke, hf, if_neg harity]
      rfl
  | classObj c =>
      simp only [invoke, Session.classArity_of_callee hcallee, if_neg harity]
      rfl
  | _ => cases hcallee

/-- No function is called when as many calls as may be are active. -/
theorem refuses_of_limit (hcallee : s.callee? callee = some f)
    (harity : arguments.length = f.decl.arity) (h : Session.maxDepth ≤ s.depth) (paren : Token)
    (stack : List Pending) :
    Refuses ⟨.call callee arguments paren, stack, s⟩ (.raised paren .stackOverflow) := by
  cases callee with
  | function id =>
      have hf : s.heap.functions[id]? = some f := hcallee
      refine refuses_of_step [] ⟨s, ?_⟩
      simp only [invoke, hf, if_pos harity]
      exact enter_of_limit h f arguments paren stack
  | classObj c =>
      have hf : s.heap.method? c initName = some f := hcallee
      have hclass : arguments.length = s.heap.classArity c :=
        harity.trans (Session.classArity_of_callee hcallee).symm
      -- The instance is made first, and waits for its initializer.
      refine refuses_of_step [.initializer s.heap.instances.size] ?_
      simp only [invoke, if_pos hclass, construct, Heap.method?_newInstance, hf]
      exact ⟨_, enter_of_limit (by exact h) _ arguments paren _⟩
  | _ => cases hcallee

end Machine

/-! ### Sessions -/

namespace Session

/-- A script that is over has left the registers as it found them. -/
theorem run_registers {s : Session} {n : Nat} {source : Source}
    (hfinished : (s.run n source).1 ≠ .unfinished) :
    (s.run n source).2.registers = s.registers := by
  unfold run at *
  rcases hprepare : s.prepare source with ⟨errors | program, s'⟩
  · obtain ⟨-, heq⟩ := prepare_error hprepare
    show s'.registers = s.registers
    rw [heq]
    rfl
  · obtain ⟨-, -, -, heq⟩ := prepare_ok hprepare
    rw [hprepare] at hfinished
    have hhalted := Moment.halted_of_programEnding hfinished
    have hrestores := (Machine.run_steady n (.ofProgram program s')).restores
    rw [(Machine.halted_iff.mp hhalted).2] at hrestores
    refine hrestores.trans ?_
    show s'.registers = s.registers
    rw [heq]
    rfl

theorem Ran.depth_eq {sources : List Source} {h : History} {s : Session}
    (hran : s.Ran sources h) : s.depth = 0 := by
  induction hran with
  | new sink reading => rfl
  | run steps source _ hfinished ih =>
      exact (congrArg Registers.depth (run_registers hfinished)).trans ih

theorem Ran.current_eq {sources : List Source} {h : History} {s : Session}
    (hran : s.Ran sources h) : s.current = s.globals :=
  (Moment.reached_of_ran hran).coherent.current_idle

end Session

/-- Whatever is begun leaves the registers as it found them, with a value, a `return` or a failure;
never are too many calls active; a call that would be one too many fails before its body begins;
and between two scripts a session stands in the global frame with no call active. -/
theorem registers_are_restored :
    (∀ (m : Machine) (n : Nat), m.Finishes n →
      (m.run n).session.current = m.session.current ∧
        (m.run n).session.depth = m.session.depth) ∧
    (∀ m : Machine, m.session.depth ≤ Session.maxDepth →
      ∀ n, (m.run n).session.depth ≤ Session.maxDepth) ∧
    (∀ (s : Session) (callee : Value) (f : Function), s.callee? callee = some f →
      s.depth = Session.maxDepth →
      ∀ (arguments : List Value) (paren : Token) (stack : List Pending),
        Machine.Refuses ⟨.call callee arguments paren, stack, s⟩
          (.raised paren (if arguments.length = f.decl.arity then .stackOverflow
            else .wrongArity f.decl.arity arguments.length))) ∧
    Session.maxDepth = 2048 ∧ FaultCause.stackOverflow.text = "Stack overflow." ∧
    ∀ (sources : List Source) (h : History) (s : Session), s.Ran sources h →
      s.current = s.globals ∧ s.depth = 0 := by
  refine ⟨fun m n h => ?_, fun m h n => (Machine.run_steady n m).bounded h,
    fun s callee f hcallee hdepth arguments paren stack => ?_, rfl, rfl,
    fun sources h s hran => ⟨hran.current_eq, hran.depth_eq⟩⟩
  · obtain ⟨hcurrent, hdepth, -⟩ := Registers.mk.inj h.registers
    exact ⟨hcurrent, hdepth⟩
  · split
    · rename_i harity
      exact Machine.refuses_of_limit hcallee harity (Nat.le_of_eq hdepth.symm) paren stack
    · rename_i harity
      exact Machine.refuses_of_arity hcallee harity paren stack

/-- In `{fun f(){{nil.f;}}f();}` the read of a property fails inside a block inside a call, and all
of it is over after 22 steps. The same function is not called when 2048 calls are active. -/
theorem registers_are_restored_nested :
    let f : Token := ⟨.identifier, "f", 1⟩
    let decl : FunctionDecl := .mk f [] [.block [.expression (.get (.literal .nil) f)]]
    let s := (Session.new .unlimited fun _ => 0).recordHop 0 0
    let m : Machine :=
      ⟨.exec (.block [.function decl, .expression (.call (.variable 0 f) f [])]), [], s⟩
    let full : Session := { (s.newFunction ⟨decl, s.current, false⟩).1 with depth := 2048 }
    (m.Finishes 22 ∧ (m.run 14).session.current ≠ m.session.current ∧ (m.run 14).session.depth = 1 ∧
      (m.run 22).session.current = m.session.current ∧ (m.run 22).session.depth = m.session.depth) ∧
    Machine.Refuses ⟨.call (.function 0) [] f, [], full⟩ (.raised f .stackOverflow) ∧
    (Session.new .unlimited fun _ => 0).depth = 0 := by
  intro f decl s m full
  obtain ⟨hrestores, -, hrefuses, -, -, hran⟩ := registers_are_restored
  have hfinishes : m.Finishes 22 :=
    ⟨by decide +kernel, by decide +kernel, List.length_eq_zero_iff.mp (by decide +kernel)⟩
  exact ⟨⟨hfinishes, by decide +kernel, by decide +kernel, hrestores m 22 hfinishes⟩,
    hrefuses full (.function 0) ⟨decl, s.current, false⟩ rfl rfl [] f [],
    (hran _ _ _ (.new .unlimited fun _ => 0)).2⟩

end ScriptLang
