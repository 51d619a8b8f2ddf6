import ScriptLang.Proofs.Frames.Methods
import ScriptLang.Proofs.Frames.Promises
import ScriptLang.Proofs.Registers

/-! Assignments to local variables. Scopes have a name from the beginning of its declaration on,
frames bind it only at the end, and between the two stands the initializer. An assignment there
finds its hop count, but its frame does not bind the name yet; everywhere else it does. -/

namespace ScriptLang

theorem Heap.Grows.ancestor? {h h' : Heap} (hgrows : h.Grows h') {d : Nat} {f g : FrameId}
    (hg : h.ancestor? f d = some g) : h'.ancestor? f d = some g := by
  induction d generalizing f with
  | zero => exact hg
  | succ d ih =>
      unfold Heap.ancestor? at hg ⊢
      split at hg
      · rename_i outer houter
        rw [hgrows.enclosing f outer houter]
        exact ih hg
      · cases hg

theorem Declaring.findIdx? {name : String} {scopes : List Scope} (h : Declaring name scopes) :
    scopes.findIdx? (·.contains name) = some 0 := by
  obtain ⟨scope, outer, rfl, hget⟩ := h
  simp [List.findIdx?_cons, Bindings.contains, hget]

namespace Moment

variable {h : History} {s : Session} {stack : List Pending} {id : ExprId} {name : Token}
  {value : Expr} {d : Nat}

/-- Where a local assignment is evaluated: in the initializer of its own variable, whose name is
still promised to the current frame, or where the frame that it leads to binds the name. -/
theorem Coherent.assignment
    (hcoherent : Coherent ⟨h, ⟨.eval (.assign id name value), stack, s⟩⟩)
    (hhop : s.hop? id = some d) :
    ∃ program ∈ h.programs, ∃ p, Visits program p ∧ p.node = .expr (.assign id name value) ∧
      (Initializes program name.lexeme p ∧ s.current ≠ s.globals ∧ d = 0 ∧
          ⟨s.current, name.lexeme⟩ ∈ promises s.current stack ∨
        ¬ Initializes program name.lexeme p ∧ ∃ frame,
          s.heap.ancestor? s.current d = some frame ∧
          (s.heap.local? frame name.lexeme).isSome) := by
  have hok : (s.world h).Ok := hcoherent.ok
  obtain ⟨setting, scopes, outer, sites, ⟨program, hprogram, hvisits⟩, hreads, hagrees, hwaits⟩ :=
    hcoherent.works
  have hpart : value ∈ (Expr.assign id name value).parts := by simp [Expr.parts]
  obtain rfl : scopes = outer := hreads.eq hpart
  have hroot := hok.accepted program hprogram
  have hfound : scopes.findIdx? (·.contains name.lexeme) = some d :=
    (hcoherent.hop?_eq hprogram hvisits rfl).symm.trans hhop
  have hinit : Initializes program name.lexeme _ ↔ Declaring name.lexeme scopes :=
    hvisits.initializes_iff hroot rfl
  refine ⟨program, hprogram, _, hvisits, rfl, ?_⟩
  by_cases hdeclaring : Declaring name.lexeme scopes
  · refine .inl ⟨hinit.mpr hdeclaring, fun hglobals => ?_, ?_, hwaits.promised hok hdeclaring⟩
    · obtain ⟨scope, rest, rfl, -⟩ := hdeclaring
      exact hagrees.ancestor?_ne_globals hok (Nat.succ_pos _) (congrArg some hglobals)
    · exact Option.some.inj (hfound.symm.trans hdeclaring.findIdx?)
  · obtain ⟨scope, hscope, hcomplete⟩ :=
      Point.complete_of_not_declaring (hvisits.placed hroot).2 hdeclaring hfound
    obtain ⟨frame, -, hframe, -, -, hbinds⟩ := hagrees.ancestor? hscope
    exact .inr ⟨fun hinside => hdeclaring (hinit.mp hinside), frame, hframe, hbinds _ hcomplete⟩

theorem Reached.run {a : Moment} (hreached : a.Reached) (k : Nat) :
    Reached ⟨a.history.run k a.machine, a.machine.run k⟩ := by
  obtain ⟨sink, reading, hlater⟩ := hreached
  exact ⟨sink, reading, hlater.trans (later_run k a.history a.machine)⟩

/-- What a moment has in common with a later one at which what was begun is over. -/
structure Resumes (a b : Moment) : Prop where
  registers : b.machine.session.registers = a.machine.session.registers
  hops : b.machine.session.hops = a.machine.session.hops
  heap : a.machine.session.heap.Grows b.machine.session.heap

theorem Reached.resumes {a : Moment} (hreached : a.Reached) {k : Nat}
    (hfinishes : a.machine.Finishes k) :
    Resumes a ⟨a.history.run k a.machine, a.machine.run k⟩ where
  registers := hfinishes.registers
  hops := (hreached.coherent.run_table k).1
  heap := (hreached.coherent.grows (later_run k a.history a.machine)).heap

end Moment

namespace Machine

variable {s : Session} {stack : List Pending} {id : ExprId} {name : Token} {d : Nat}
  {frame : FrameId}

/-- A value is stored in the frame that the hop count leads to if that binds the name. -/
theorem receive_assign_bound (hhop : s.hop? id = some d)
    (hframe : s.heap.ancestor? s.current d = some frame)
    (hbound : (s.heap.local? frame name.lexeme).isSome) (v : Value) :
    receive v (.assign id name) stack s =
      ⟨.value v, stack, { s with heap := s.heap.define frame name.lexeme v }⟩ := by
  simp only [receive, Session.binder?, hhop, Heap.binderAt?, hframe, if_pos hbound]

theorem receive_assign_unbound (hhop : s.hop? id = some d)
    (hframe : s.heap.ancestor? s.current d = some frame)
    (hnone : s.heap.local? frame name.lexeme = none) (v : Value) :
    receive v (.assign id name) stack s = ⟨.failing (Session.undefined name), stack, s⟩ := by
  simp [receive, Session.binder?, hhop, Heap.binderAt?, hframe, hnone]

theorem step_of_value {m : Machine} {v : Value} {p : Pending} (htask : m.task = .value v)
    (hstack : m.stack = p :: stack) : m.step = receive v p stack m.session := by
  obtain ⟨task, rest, s⟩ := m
  obtain rfl : task = .value v := htask
  obtain rfl : rest = p :: stack := hstack
  rfl

end Machine

namespace Moment

variable {a : Moment} (hreached : a.Reached) {stack : List Pending} {id : ExprId} {name : Token}
  (hstack : a.machine.stack = .assign id name :: stack)

include hreached

/-- A name that is promised to a local frame is not bound by it. -/
theorem Reached.unbound {f : FrameId} {name : String}
    (hpromised : ⟨f, name⟩ ∈ promises a.machine.session.current a.machine.stack)
    (hlocal : f ≠ a.machine.session.globals) : a.machine.session.heap.local? f name = none :=
  hreached.owes.unbound _ (List.mem_append_right _ hpromised) hlocal

variable {k : Nat} (hfinishes : a.machine.Finishes k) {v : Value}
  (hvalue : (a.machine.run k).task = .value v)

include hstack hfinishes hvalue

/-- An assignment stores its value in the frame that binds the name when it begins. -/
theorem Reached.assign_stores {d : Nat} (hhop : a.machine.session.hop? id = some d)
    {frame : FrameId} (hframe : a.machine.session.heap.ancestor? a.machine.session.current d =
      some frame)
    (hbound : (a.machine.session.heap.local? frame name.lexeme).isSome) :
    (a.machine.run k).step = ⟨.value v, stack, { (a.machine.run k).session with
      heap := (a.machine.run k).session.heap.define frame name.lexeme v }⟩ := by
  obtain ⟨hregisters, hhops, hgrows⟩ := hreached.resumes hfinishes
  obtain ⟨hcurrent, -⟩ := Registers.mk.inj hregisters
  rw [Machine.step_of_value hvalue (hfinishes.stack.trans hstack)]
  refine Machine.receive_assign_bound (d := d) ?_ ?_ (hgrows.binds _ _ hbound) v
  · rw [Session.hop?, hhops]
    exact hhop
  · rw [hcurrent]
    exact hgrows.ancestor? hframe

/-- An assignment to a name that is still promised to the current frame fails. -/
theorem Reached.assign_misses (hhop : a.machine.session.hop? id = some 0)
    (hlocal : a.machine.session.current ≠ a.machine.session.globals)
    (hpromised : ⟨a.machine.session.current, name.lexeme⟩ ∈
      promises a.machine.session.current stack) :
    (a.machine.run k).step =
      ⟨.failing (Session.undefined name), stack, (a.machine.run k).session⟩ := by
  obtain ⟨hregisters, hhops, -⟩ := hreached.resumes hfinishes
  obtain ⟨hcurrent, -, hglobals⟩ := Registers.mk.inj hregisters
  rw [← hcurrent] at hpromised
  rw [← hcurrent, ← hglobals] at hlocal
  have hrest := hfinishes.stack.trans hstack
  rw [Machine.step_of_value hvalue hrest]
  refine Machine.receive_assign_unbound (d := 0) ?_ rfl ((hreached.run k).unbound ?_ hlocal) v
  · rw [Session.hop?, hhops]
    exact hhop
  · rw [hrest]
    exact hpromised

end Moment

/-! ### Assignments of `nil` -/

/-- What an assignment of `nil` assigns to. -/
def Expr.cleared? : Expr → Option (ExprId × Token)
  | .assign id name (.literal .nil) => some (id, name)
  | _ => none

/-- What a task is to assign `nil` to. -/
def Task.cleared? (task : Task) : Option (ExprId × Token) := task.expr?.bind Expr.cleared?

theorem Task.eq_of_cleared? {task : Task} {id : ExprId} {name : Token}
    (h : task.cleared? = some (id, name)) : task = .eval (.assign id name (.literal .nil)) := by
  obtain ⟨e, he, hcleared⟩ := Option.bind_eq_some_iff.mp h
  rw [Task.eq_eval he]
  unfold Expr.cleared? at hcleared
  split at hcleared
  · cases hcleared
    rfl
  · cases hcleared

/-- The value `nil` is known after one step. -/
theorem Machine.finishes_nil {m : Machine} {id : ExprId} {name : Token}
    (htask : m.task = .eval (.assign id name (.literal .nil))) :
    m.step.Finishes 1 ∧ (Machine.run 1 m.step).task = .value .nil := by
  obtain ⟨task, stack, s⟩ := m
  obtain rfl : task = _ := htask
  refine ⟨⟨fun k hk => ?_, rfl, rfl⟩, rfl⟩
  obtain rfl : k = 0 := Nat.lt_one_iff.mp hk
  exact nofun

/-! ### Runs -/

/-- At every moment of every run at which an assignment with a hop count is evaluated, there is a
frame that many links out. It binds the name unless the assignment stands in the initializer of that
very variable. Once the value is known, it is stored in that frame outside the initializer; inside
the variable is undefined. -/
theorem local_assignments_miss_only_in_own_initializer {sources : List Source} {h : History}
    {s s' : Session} (hran : s.Ran sources h) {source : Source} {program : Program}
    (hprepare : s.prepare source = (.ok program, s')) (n : Nat) {id : ExprId} {name : Token}
    {value : Expr}
    (htask : (Machine.run n (.ofProgram program s')).task = .eval (.assign id name value)) {d : Nat}
    (hhop : (Machine.run n (.ofProgram program s')).session.hop? id = some d) :
    let m := Machine.run n (.ofProgram program s')
    let history := (h.accept program).run n (.ofProgram program s')
    ∃ accepted ∈ history.programs, ∃ p frame, Visits accepted p ∧
      p.node = .expr (.assign id name value) ∧
      m.session.heap.ancestor? m.session.current d = some frame ∧
      ((m.session.heap.local? frame name.lexeme).isSome ↔
        ¬ Initializes accepted name.lexeme p) ∧
      ∀ k v, m.step.Finishes k → (Machine.run k m.step).task = .value v →
        let t := (Machine.run k m.step).session
        (¬ Initializes accepted name.lexeme p → (Machine.run k m.step).step =
          ⟨.value v, m.stack, { t with heap := t.heap.define frame name.lexeme v }⟩) ∧
        (Initializes accepted name.lexeme p → (Machine.run k m.step).step =
          ⟨.failing (.raised name (.undefinedVariable name.lexeme)), m.stack, t⟩) := by
  intro m history
  have hreached : Moment.Reached ⟨history, m⟩ := Moment.reached_run hran hprepare n
  replace htask : m.task = .eval (.assign id name value) := htask
  replace hhop : m.session.hop? id = some d := hhop
  clear_value m history
  obtain ⟨task, stack, t⟩ := m
  obtain rfl : task = .eval (.assign id name value) := htask
  obtain ⟨accepted, hmem, p, hvisits, hnode, hcases⟩ := hreached.coherent.assignment hhop
  -- The value is evaluated next, and the assignment waits for it.
  have hnext : Moment.Reached ⟨_, ⟨.eval value, .assign id name :: stack, t⟩⟩ := hreached.run 1
  rcases hcases with ⟨hinside, hlocal, rfl, hpromised⟩ | ⟨houtside, frame, hframe, hbound⟩
  · have hunbound : t.heap.local? t.current name.lexeme = none := hreached.unbound hpromised hlocal
    refine ⟨accepted, hmem, p, t.current, hvisits, hnode, rfl, ?_, fun k v hfinishes hvalue => ?_⟩
    · simp [hunbound, hinside]
    · exact ⟨fun houtside => absurd hinside houtside,
        fun _ => hnext.assign_misses rfl hfinishes hvalue hhop hlocal hpromised⟩
  · refine ⟨accepted, hmem, p, frame, hvisits, hnode, hframe, ?_, fun k v hfinishes hvalue => ?_⟩
    · exact iff_of_true hbound houtside
    · exact ⟨fun _ => hnext.assign_stores rfl hfinishes hvalue hhop hframe hbound,
        fun hinside => absurd hinside houtside⟩

/-- In `{var a=(a=nil);}` the hop count of the assignment leads to the frame of the block, which
does not bind `a` yet, and the script fails. -/
theorem local_assignments_may_miss :
    let source : Source := "\x7bvar a=(a=nil);\x7d".toUTF8.toList
    let s := Session.new .unlimited fun _ => 0
    ∃ program s' id name, s.prepare source = (.ok program, s') ∧
      let m := Machine.run 5 (.ofProgram program s')
      m.task = .eval (.assign id name (.literal .nil)) ∧ m.session.hop? id = some 0 ∧
      m.session.heap.ancestor? m.session.current 0 = some m.session.current ∧
      m.session.heap.local? m.session.current name.lexeme = none ∧
      (s.run 20 source).1 = .failed (.raised name (.undefinedVariable name.lexeme)) := by
  intro source s
  obtain ⟨program, s', hprepare, hcheck⟩ := s.exists_of_prepare source
    (fun program s' =>
      let m := Machine.run 5 (.ofProgram program s')
      m.task.cleared?.any fun (id, name) => m.session.hop? id == some 0 &&
        (m.session.heap.local? m.session.current name.lexeme).isNone &&
        decide ((s.run 20 source).1 = .failed (.raised name (.undefinedVariable name.lexeme))))
    (by decide +kernel)
  obtain ⟨⟨id, name⟩, hcleared, hrest⟩ := (Option.any_eq_true _ _).mp hcheck
  simp only [Bool.and_eq_true, beq_iff_eq, Option.isNone_iff_eq_none, decide_eq_true_eq] at hrest
  obtain ⟨⟨hhop, hunbound⟩, hfailed⟩ := hrest
  exact ⟨program, s', id, name, hprepare, Task.eq_of_cleared? hcleared, hhop, rfl, hunbound,
    hfailed⟩

/-- In `{var a;fun f(){a=nil;}f();var b=(b=nil);}` the function stores its value in the frame around
its own, and the initializer of `b` fails. -/
theorem local_assignments_miss_only_in_own_initializer_closure :
    let source : Source :=
      "\x7bvar a;fun f()\x7ba=nil;\x7df();var b=(b=nil);\x7d".toUTF8.toList
    ∃ program s',
      (Session.new .unlimited fun _ => 0).prepare source = (.ok program, s') ∧
      (∃ id name frame, let m := Machine.run 14 (.ofProgram program s')
        let t := (Machine.run 1 m.step).session
        m.task = .eval (.assign id name (.literal .nil)) ∧ m.session.hop? id = some 1 ∧
        m.session.heap.ancestor? m.session.current 1 = some frame ∧
        (Machine.run 1 m.step).step =
          ⟨.value .nil, m.stack, { t with heap := t.heap.define frame name.lexeme .nil }⟩) ∧
      ∃ id name, let m := Machine.run 24 (.ofProgram program s')
        m.task = .eval (.assign id name (.literal .nil)) ∧ m.session.hop? id = some 0 ∧
        (Machine.run 1 m.step).step = ⟨.failing (.raised name (.undefinedVariable name.lexeme)),
          m.stack, (Machine.run 1 m.step).session⟩ := by
  intro source
  obtain ⟨program, s', hprepare, hcheck⟩ := Session.exists_of_prepare
    (.new .unlimited fun _ => 0) source
    (fun program s' =>
      let binds (n d : Nat) (bound : Bool) : Bool :=
        let m := Machine.run n (.ofProgram program s')
        m.task.cleared?.any fun (id, name) => m.session.hop? id == some d &&
          (m.session.heap.getAt? m.session.current d name.lexeme).isSome == bound
      binds 14 1 true && binds 24 0 false) (by decide +kernel)
  obtain ⟨hfirst, hsecond⟩ := (Bool.and_eq_true _ _).mp hcheck
  have hmoment {n d : Nat} {id : ExprId} {name : Token}
      (htask : (Machine.run n (.ofProgram program s')).task =
        .eval (.assign id name (.literal .nil)))
      (hhop : (Machine.run n (.ofProgram program s')).session.hop? id = some d) :=
    local_assignments_miss_only_in_own_initializer (.new .unlimited fun _ => 0) hprepare n htask
      hhop
  refine ⟨program, s', hprepare, ?_, ?_⟩
  · obtain ⟨⟨id, name⟩, hcleared, hrest⟩ := (Option.any_eq_true _ _).mp hfirst
    simp only [Bool.and_eq_true, beq_iff_eq] at hrest
    obtain ⟨hhop, hbound⟩ := hrest
    have htask := Task.eq_of_cleared? hcleared
    obtain ⟨hfinishes, hvalue⟩ := Machine.finishes_nil htask
    obtain ⟨accepted, -, p, frame, -, -, hframe, hbinds, hstores⟩ := hmoment htask hhop
    rw [Heap.getAt?, hframe] at hbound
    exact ⟨id, name, frame, htask, hhop, hframe,
      (hstores 1 .nil hfinishes hvalue).1 (hbinds.mp hbound)⟩
  · obtain ⟨⟨id, name⟩, hcleared, hrest⟩ := (Option.any_eq_true _ _).mp hsecond
    simp only [Bool.and_eq_true, beq_iff_eq] at hrest
    obtain ⟨hhop, hunbound⟩ := hrest
    have htask := Task.eq_of_cleared? hcleared
    obtain ⟨hfinishes, hvalue⟩ := Machine.finishes_nil htask
    obtain ⟨accepted, -, p, frame, -, -, hframe, hbinds, hstores⟩ := hmoment htask hhop
    rw [Heap.getAt?, hframe] at hunbound
    refine ⟨id, name, htask, hhop, (hstores 1 .nil hfinishes hvalue).2 ?_⟩
    refine Classical.byContradiction fun houtside => ?_
    exact Bool.false_ne_true (hunbound.symm.trans (hbinds.mpr houtside))

end ScriptLang
