import ScriptLang.Proofs.Frames.Agreement
import ScriptLang.Proofs.Frames.Superclass

/-! What methods are bound to: the instance of a bound method, the superclass that `super` asks, and
what a call of an initializer gives. -/

namespace ScriptLang

namespace Moment

/-! ### Frames that stay -/

/-- The moment after the next step. -/
def stepped (a : Moment) : Moment := ⟨a.history.extend a.machine.opens, a.machine.step⟩

theorem Coherent.grows_stepped {a : Moment} (h : a.Coherent) : a.world.Grows a.stepped.world :=
  (Machine.step_advances h.ok h.works).grows

theorem Coherent.grows_next {a b : Moment} (h : a.Coherent) (hnext : Next a b) :
    a.world.Grows b.world := by
  cases hnext with
  | step => exact h.grows_stepped
  | finish => exact .refl _
  | start hprepare =>
      obtain ⟨haccepted, -, -, heq⟩ := Session.prepare_ok hprepare
      have hgrows := (h.ok.accept haccepted).1
      refine ⟨hgrows.programs, hgrows.openings, ?_, ?_⟩
      · rw [heq]
        exact .refl _
      · rw [heq]
        rfl
  | reject hprepare =>
      obtain ⟨-, heq⟩ := Session.prepare_error hprepare
      rw [heq]
      exact .refl _

/-- What a session has made stays for ever. -/
theorem Coherent.grows {a b : Moment} (h : a.Coherent) (hlater : Later a b) :
    a.world.Grows b.world := by
  have hboth : a.world.Grows b.world ∧ b.Coherent := by
    induction hlater with
    | refl => exact ⟨.refl _, h⟩
    | next _ hnext ih => exact ⟨ih.1.trans (ih.2.grows_next hnext), ih.2.next hnext⟩
  exact hboth.1

/-- The frame that a method is bound in has its instance as `this` for ever. -/
theorem Coherent.this_stays {a b : Moment} (h : a.Coherent) (hlater : Later a b) {g : FrameId}
    {method : FunctionDecl} {i : InstanceId}
    (hg : a.history.openings[g]? = some (some (.this method i))) :
    b.history.openings[g]? = some (some (.this method i)) ∧
      b.machine.session.heap.local? g "this" = some (.instanceObj i) := by
  have hgrows := h.grows hlater
  have hthis : a.world.heap.local? g "this" = some (.instanceObj i) := h.ok.holds g _ hg
  exact ⟨hgrows.openings g _ hg, hgrows.heap.words g "this" _ (.inl rfl) hthis⟩

end Moment

namespace Machine

/-- The next step makes a function of the method `f` by binding it to the instance `i`. -/
inductive Binds (m : Machine) (f : Function) (i : InstanceId) : Prop where
  | super (id : ExprId) (keyword method : Token) : m.task = .eval (.super id keyword method) →
      m.session.superMethod id keyword method = .ok (.method f i) → Binds m f i
  | get (name : Token) (rest : List Pending) : m.task = .value (.instanceObj i) →
      m.stack = .get name :: rest →
      m.session.property (.instanceObj i) name = .ok (.method f i) → Binds m f i

/-- Binding a method gives a function that closes over the frame opened for that. -/
theorem Binds.step_eq {m : Machine} {f : Function} {i : InstanceId} (h : m.Binds f i) :
    m.halted = false ∧ m.opens = [.this f.decl i] ∧ ∃ id,
      m.step.task = .value (.function id) ∧
      m.step.session.heap.functions[id]? =
        some { f with closure := m.session.heap.frames.size } := by
  obtain ⟨task, stack, s⟩ := m
  cases h with
  | super id keyword method htask hsuper =>
      obtain rfl : task = _ := htask
      replace hsuper : s.superMethod id keyword method = _ := hsuper
      refine ⟨rfl, ?_, ?_⟩
      · simp only [opens, hsuper, binds]
      · simp only [step, evaluate, hsuper, found]
        exact ⟨_, rfl, Heap.newFunction_getElem? _ _⟩
  | get name rest htask hstack hproperty =>
      obtain rfl : task = _ := htask
      obtain rfl : stack = _ := hstack
      replace hproperty : s.property _ name = _ := hproperty
      refine ⟨rfl, ?_, ?_⟩
      · simp only [opens, receives, hproperty, binds]
      · simp only [step, receive, hproperty, found]
        exact ⟨_, rfl, Heap.newFunction_getElem? _ _⟩

/-! ### Calls that end -/

/-- The call that a machine is about to make is over after `k` steps: for the first time the stack
is no higher than before. -/
def Completes (m : Machine) (k : Nat) : Prop :=
  0 < k ∧ (run k m).stack.length = m.stack.length ∧
    ∀ j < k, 0 < j → m.stack.length < (run j m).stack.length

/-- The stack is as high as `base` after `k` steps, and was higher before. -/
def Uncovers (m : Machine) (base : List Pending) (k : Nat) : Prop :=
  (run k m).stack.length = base.length ∧ ∀ j < k, base.length < (run j m).stack.length

theorem Completes.uncovers {m : Machine} {k : Nat} (h : m.Completes k) :
    ∃ j, k = j + 1 ∧ m.step.Uncovers m.stack j := by
  obtain ⟨hpos, hstack, hhigher⟩ := h
  cases k with
  | zero => exact absurd hpos (Nat.lt_irrefl 0)
  | succ j =>
      refine ⟨j, rfl, by rwa [← run_succ], fun l hl => ?_⟩
      rw [← run_succ]
      exact hhigher (l + 1) (Nat.succ_lt_succ hl) (Nat.succ_pos l)

theorem Uncovers.eq_zero {m : Machine} {base : List Pending} {k : Nat} (h : m.Uncovers base k)
    (hstack : m.stack = base) : k = 0 := by
  cases k with
  | zero => rfl
  | succ k =>
      have hlt : base.length < m.stack.length := h.2 0 (Nat.succ_pos k)
      rw [hstack] at hlt
      exact absurd hlt (Nat.lt_irrefl _)

theorem Uncovers.step {m : Machine} {base : List Pending} {k : Nat} (h : m.Uncovers base (k + 1)) :
    m.step.Uncovers base k := by
  refine ⟨by rw [← run_succ]; exact h.1, fun j hj => ?_⟩
  rw [← run_succ]
  exact h.2 (j + 1) (Nat.succ_lt_succ hj)

theorem stack_of_halted {m : Machine} (h : m.halted = true) : m.stack = [] := by
  obtain ⟨task, stack, s⟩ := m
  cases stack with
  | nil => rfl
  | cons p stack => cases task <;> cases h

end Machine

namespace Moment

/-- The work `p` stays on the stack until what is above it is over and it is given the result. So
what holds of every task that `p` ends with holds of the task with which the stack below `p` is
uncovered. -/
theorem task_of_uncovers {I : Moment → Prop} (hkept : ∀ a, I a → I a.stepped) {p : Pending}
    {rest : List Pending} {T : Task → Prop}
    (hends : ∀ a, I a → a.machine.stack = p :: rest →
      Machine.halted ⟨a.machine.task, [], a.machine.session⟩ = true →
      a.machine.step.stack = p :: rest ∨ a.machine.step.stack = rest ∧ T a.machine.step.task)
    {a : Moment} (h : I a) {front : List Pending} (hstack : a.machine.stack = front ++ p :: rest)
    {k : Nat} (hk : a.machine.Uncovers rest k) : T (Machine.run k a.machine).task := by
  induction k generalizing a front with
  | zero =>
      have hlength : a.machine.stack.length = rest.length := hk.1
      rw [hstack, List.length_append, List.length_cons] at hlength
      omega
  | succ k ih =>
      rw [Machine.run_succ]
      cases hhalted : Machine.halted ⟨a.machine.task, front, a.machine.session⟩ with
      | false =>
          have hbelow : a.machine =
              Machine.below ⟨a.machine.task, front, a.machine.session⟩ (p :: rest) := by
            simp only [Machine.below, ← hstack]
          have hstep := congrArg Machine.stack (Machine.step_below hhalted (p :: rest))
          rw [← hbelow] at hstep
          exact ih (hkept a h) hstep hk.step
      | true =>
          obtain rfl : front = [] := Machine.stack_of_halted hhalted
          rcases hends a h hstack hhalted with hstep | ⟨hstep, htask⟩
          · exact ih (hkept a h) (hstep.trans (List.nil_append _).symm) hk.step
          · obtain rfl := hk.step.eq_zero hstep
            exact htask

/-- What the call of an initializer for the instance `i` may end with. -/
def Gives (i : InstanceId) (task : Task) : Prop :=
  task = .value (.instanceObj i) ∨ ∃ fault, task = .failing fault

/-- A call of an initializer that is over gave the instance it is bound to, or failed. -/
theorem Coherent.gives_of_body {f : Function} (hinit : f.isInitializer = true) {i : InstanceId}
    {rest : List Pending} {a : Moment} (h : a.Coherent)
    (hopened : a.history.openings[f.closure]? = some (some (.this f.decl i)))
    {front : List Pending} (hstack : a.machine.stack = front ++ .body f :: rest) {k : Nat}
    (hk : a.machine.Uncovers rest k) : Gives i (Machine.run k a.machine).task := by
  refine task_of_uncovers
    (I := fun a => a.Coherent ∧ a.history.openings[f.closure]? = some (some (.this f.decl i)))
    (fun a ha => ⟨ha.1.step, ha.1.grows_stepped.openings _ _ ha.2⟩) ?_ ⟨h, hopened⟩ hstack hk
  rintro ⟨history, task, stack, s⟩ ⟨hcoherent, hopened⟩ hstack hhalted
  obtain rfl : stack = _ := hstack
  have hleave (hf : (s.world history).Callable f) (v : Value) :
      (Machine.leave f v rest s).stack = rest ∧ Gives i (Machine.leave f v rest s).task := by
    obtain ⟨u, heq, -, hinstance⟩ := Machine.leave_eq hcoherent.ok hf v rest
    obtain ⟨j, hj, rfl⟩ := hinstance hinit
    obtain rfl : j = i := by simpa using hj.symm.trans hopened
    rw [heq]
    exact ⟨rfl, .inl rfl⟩
  have hworks := hcoherent.works
  cases task with
  | eval | exec | call => cases hhalted
  | value v =>
      obtain ⟨-, scopes, sites, -, hwaits⟩ := hworks
      cases hwaits
  | done =>
      obtain ⟨scopes, sites, -, hwaits⟩ := hworks
      cases hwaits with
      | body hf => exact .inr (hleave hf .nil)
  | returning v =>
      obtain ⟨-, scopes, sites, -, hwaits⟩ := hworks
      cases hwaits with
      | body hf => exact .inr (hleave hf v)
  | failing fault => exact .inr ⟨rfl, .inr ⟨fault, rfl⟩⟩

/-- A call of a class that is over gave the new instance, or failed. -/
theorem gives_of_initializer {i : InstanceId} {rest : List Pending} {a : Moment}
    {front : List Pending} (hstack : a.machine.stack = front ++ .initializer i :: rest) {k : Nat}
    (hk : a.machine.Uncovers rest k) : Gives i (Machine.run k a.machine).task := by
  refine task_of_uncovers (I := fun _ => True) (fun _ _ => trivial) ?_ trivial hstack hk
  rintro ⟨history, task, stack, s⟩ - hstack hhalted
  obtain rfl : stack = _ := hstack
  cases task with
  | eval | exec | call => cases hhalted
  | value v => exact .inr ⟨rfl, .inl rfl⟩
  | done | returning => exact .inl rfl
  | failing fault => exact .inr ⟨rfl, .inr ⟨fault, rfl⟩⟩

/-- Beginning to call a function makes its body wait, or fails at once. -/
theorem enter_stack (f : Function) (arguments : List Value) (paren : Token) (stack : List Pending)
    (s : Session) :
    (∃ front, (Machine.enter f arguments paren stack s).stack = front ++ .body f :: stack) ∨
      (Machine.enter f arguments paren stack s).stack = stack ∧
        ∃ fault, (Machine.enter f arguments paren stack s).task = .failing fault := by
  unfold Machine.enter
  split
  · exact .inr ⟨rfl, _, rfl⟩
  · exact .inl ⟨[_], rfl⟩

theorem invoke_function_stack {s : Session} {id : FunctionId} {f : Function}
    (hf : s.heap.functions[id]? = some f) (arguments : List Value) (paren : Token)
    (stack : List Pending) :
    (∃ front, (Machine.invoke (.function id) arguments paren stack s).stack =
      front ++ .body f :: stack) ∨
    (Machine.invoke (.function id) arguments paren stack s).stack = stack ∧
      ∃ fault, (Machine.invoke (.function id) arguments paren stack s).task = .failing fault := by
  simp only [Machine.invoke, hf]
  split
  · exact enter_stack f arguments paren stack s
  · exact .inr ⟨rfl, _, rfl⟩

theorem invoke_class_stack (s : Session) (c : ClassId) (arguments : List Value) (paren : Token)
    (stack : List Pending) :
    (∃ front, (Machine.invoke (.classObj c) arguments paren stack s).stack =
      front ++ .initializer s.heap.instances.size :: stack) ∨
    (Machine.invoke (.classObj c) arguments paren stack s).stack = stack ∧
      Gives s.heap.instances.size (Machine.invoke (.classObj c) arguments paren stack s).task := by
  simp only [Machine.invoke]
  split
  · simp only [Machine.construct]
    split
    · exact .inr ⟨rfl, .inl rfl⟩
    · exact .inl ⟨_, congrArg Machine.stack (Machine.enter_below _ _ _ arguments paren [])⟩
  · exact .inr ⟨rfl, .inr ⟨_, rfl⟩⟩

/-- A call that is over gave the instance that the called initializer is bound to, or failed. -/
theorem Coherent.gives_of_function {a : Moment} (h : a.Coherent) {id : FunctionId}
    {arguments : List Value} {paren : Token}
    (htask : a.machine.task = .call (.function id) arguments paren) {f : Function}
    (hf : a.machine.session.heap.functions[id]? = some f) (hinit : f.isInitializer = true) :
    ∃ i, a.history.openings[f.closure]? = some (some (.this f.decl i)) ∧
      ∀ k, a.machine.Completes k → Gives i (Machine.run k a.machine).task := by
  obtain ⟨history, task, stack, s⟩ := a
  obtain rfl : task = _ := htask
  obtain ⟨g, hg, hcallable⟩ := h.works.1 id rfl
  obtain rfl : g = f := Option.some.inj (hg.symm.trans hf)
  obtain ⟨i, hopened⟩ := hcallable.bound hinit
  refine ⟨i, hopened, fun k hk => ?_⟩
  obtain ⟨j, rfl, hj⟩ := hk.uncovers
  rw [Machine.run_succ]
  rcases invoke_function_stack hf arguments paren stack with
    ⟨front, hfront⟩ | ⟨hstack, fault, htask⟩
  · exact h.step.gives_of_body hinit (h.grows_stepped.openings _ _ hopened) hfront hj
  · obtain rfl := hj.eq_zero hstack
    exact .inr ⟨fault, htask⟩

/-- A call of a class that is over gave the instance that it made, or failed. -/
theorem gives_of_class {a : Moment} {c : ClassId} {arguments : List Value} {paren : Token}
    (htask : a.machine.task = .call (.classObj c) arguments paren) {k : Nat}
    (hk : a.machine.Completes k) :
    Gives a.machine.session.heap.instances.size (Machine.run k a.machine).task := by
  obtain ⟨history, task, stack, s⟩ := a
  obtain rfl : task = _ := htask
  obtain ⟨j, rfl, hj⟩ := hk.uncovers
  rw [Machine.run_succ]
  rcases invoke_class_stack s c arguments paren stack with ⟨front, hfront⟩ | ⟨hstack, htask⟩
  · exact gives_of_initializer (a := ⟨history, _⟩) hfront hj
  · obtain rfl := hj.eq_zero hstack
    exact htask

end Moment

/-! ### Methods -/

namespace Moment

/-- The frame `g` stands `k` links out of the current one and was opened for this. -/
structure Stands (a : Moment) (k : Nat) (g : FrameId) (opening : Opening) : Prop where
  link : a.machine.session.heap.ancestor? a.machine.session.current k = some g
  opened : a.history.openings[g]? = some (some opening)

/-- `this` gives the instance of the innermost method around it, which its body runs for: the frame
right outside that of the body is the one in which the method was bound to the instance. -/
def FindsInstance (a : Moment) (id : ExprId) (keyword : Token) : Prop :=
  ∃ accepted ∈ a.history.programs, ∃ setting scopes sites,
    Visits accepted ⟨.expr (.this id keyword), setting, scopes, sites⟩ ∧
    ∃ inner method i f g, sites.findIdx? Site.isThis = some (inner + 1) ∧
      sites[inner + 1]? = some (.this method) ∧ a.Stands inner f (.body method) ∧
      a.Stands (inner + 1) g (.this method i) ∧
      a.machine.step = ⟨.value (.instanceObj i), a.machine.stack, a.machine.session⟩

/-- `super` asks the class that the name of the superclass stood for when the class around it was
declared. What it finds is bound to the instance of the innermost method around it; if it finds
nothing, it fails for that reason. -/
def AsksSuperclass (a : Moment) (id : ExprId) (keyword method : Token) : Prop :=
  ∃ accepted ∈ a.history.programs, ∃ setting scopes sites,
    Visits accepted ⟨.expr (.super id keyword method), setting, scopes, sites⟩ ∧
    ∃ k around i f name methods c g, sites.findIdx? Site.isThis = some k ∧
      sites[k]? = some (.this around) ∧ sites[k + 1]? = some (.super name methods) ∧
      a.Stands k f (.this around i) ∧ a.Stands (k + 1) g (.super name methods c) ∧
      (∃ b, Reached b ∧ Later b a ∧ b.Declares name methods c g) ∧
      ((∃ found, a.machine.session.heap.method? c method.lexeme = some found ∧
          a.machine.Binds found i) ∨
        a.machine.session.heap.method? c method.lexeme = none ∧
          a.machine.step.task = .failing (.raised method (.undefinedProperty method.lexeme)))

theorem Coherent.findsInstance {a : Moment} (h : a.Coherent) {id : ExprId} {keyword : Token}
    (htask : a.machine.task = .eval (.this id keyword)) : a.FindsInstance id keyword := by
  obtain ⟨history, task, stack, s⟩ := a
  obtain rfl : task = _ := htask
  obtain ⟨accepted, hmem, setting, scopes, outer, sites, hvisits, haccepted, hplaced, hreads,
    hagrees, hhops⟩ := h.point
  obtain ⟨inner, m, i, f, g, hfound, hsite, hmethod, hf, hbody, hg, hthis⟩ :=
    Session.this_frame haccepted hplaced hreads hagrees
  have hkeyword : keyword.lexeme = "this" := haccepted.wellFormed
  have hhop : s.hop? id = some (inner + 1) := by rw [hhops id keyword rfl, hkeyword, hfound]
  have hvalue : s.heap.local? g "this" = some (.instanceObj i) := h.ok.holds g _ hthis
  have hread : s.read? id keyword.lexeme = some (.instanceObj i) := by
    simp only [Session.read?, hhop, Heap.getAt?, hg, Option.bind_some, hkeyword, hvalue]
  refine ⟨accepted, hmem, setting, scopes, sites, hvisits, inner, m, i, f, g, hsite, hmethod,
    ⟨hf, hbody⟩, ⟨hg, hthis⟩, ?_⟩
  simp only [Machine.step, Machine.evaluate, Machine.readName, hread]

theorem Reached.asksSuperclass {a : Moment} (h : a.Reached) {id : ExprId}
    {keyword method : Token} (htask : a.machine.task = .eval (.super id keyword method)) :
    a.AsksSuperclass id keyword method := by
  have hcoherent := h.coherent
  obtain ⟨sink, reading, hlater⟩ := h
  have hdeclared := hlater.declares.2
  obtain ⟨history, task, stack, s⟩ := a
  obtain rfl : task = _ := htask
  obtain ⟨accepted, hmem, setting, scopes, outer, sites, hvisits, haccepted, hplaced, hreads,
    hagrees, hhops⟩ := hcoherent.point
  obtain ⟨k, m, i, name, methods, c, f, g, hfound, hsite, hmethod, hclass, hf, hthis, hg, hsuper⟩ :=
    Session.super_frame haccepted hplaced hreads hagrees
  have hkeyword : keyword.lexeme = "super" := haccepted.wellFormed
  have hhop : s.hop? id = some (k + 1) := by rw [hhops id keyword rfl, hkeyword, hfound]
  have heq := Session.superMethod_eq hcoherent.ok hkeyword method hhop hf hthis hg hsuper
  refine ⟨accepted, hmem, setting, scopes, sites, hvisits, k, m, i, f, name, methods, c, g, hsite,
    hmethod, hclass, ⟨hf, hthis⟩, ⟨hg, hsuper⟩, hdeclared g name methods c hsuper, ?_⟩
  cases hmethod? : s.heap.method? c method.lexeme with
  | some found =>
      rw [hmethod?] at heq
      exact .inl ⟨found, rfl, .super id keyword method rfl heq⟩
  | none =>
      rw [hmethod?] at heq
      refine .inr ⟨rfl, ?_⟩
      simp only [Machine.step, Machine.evaluate, heq, Machine.found]

end Moment

/-- The function that a task is to call. -/
def Task.function? : Task → Option FunctionId
  | .call (.function id) _ _ => some id
  | _ => none

theorem Task.eq_call {task : Task} {id : FunctionId} (h : task.function? = some id) :
    ∃ arguments paren, task = .call (.function id) arguments paren := by
  unfold Task.function? at h
  split at h
  · obtain rfl := Option.some.inj h
    exact ⟨_, _, rfl⟩
  · cases h

/-- What methods are bound to never changes. A frame that a method is bound in has the instance as
`this` for ever, and so has the closure of the function that binding gives. `this` is the instance
of the innermost method around it, wherever that is called from. `super` asks the class that the
name of the superclass stood for when the class around it was declared, and binds what it finds to
that instance, or fails since there is no such method. A call of an initializer or a class that is
over gave its instance, unless it failed. -/
theorem methods_stay_bound {a : Moment} (ha : a.Reached) :
    (∀ g method i, a.history.openings[g]? = some (some (.this method i)) → ∀ b, a.Later b →
      b.history.openings[g]? = some (some (.this method i)) ∧
      b.machine.session.heap.local? g "this" = some (.instanceObj i)) ∧
    (∀ f i, a.machine.Binds f i → ∃ id closure, a.machine.step.task = .value (.function id) ∧
      ∀ b, a.stepped.Later b →
        b.machine.session.heap.functions[id]? = some { f with closure := closure } ∧
        b.history.openings[closure]? = some (some (.this f.decl i)) ∧
        b.machine.session.heap.local? closure "this" = some (.instanceObj i)) ∧
    (∀ id keyword, a.machine.task = .eval (.this id keyword) → a.FindsInstance id keyword) ∧
    (∀ id keyword method, a.machine.task = .eval (.super id keyword method) →
      a.AsksSuperclass id keyword method) ∧
    (∀ id arguments paren f, a.machine.task = .call (.function id) arguments paren →
      a.machine.session.heap.functions[id]? = some f → f.isInitializer = true →
      ∃ i, a.history.openings[f.closure]? = some (some (.this f.decl i)) ∧
        ∀ k, a.machine.Completes k → Moment.Gives i (Machine.run k a.machine).task) ∧
    ∀ c arguments paren, a.machine.task = .call (.classObj c) arguments paren →
      ∀ k, a.machine.Completes k →
        Moment.Gives a.machine.session.heap.instances.size (Machine.run k a.machine).task := by
  have hcoherent := ha.coherent
  refine ⟨fun g method i hg b hlater => hcoherent.this_stays hlater hg, fun f i hbinds => ?_,
    fun id keyword => hcoherent.findsInstance, fun id keyword method => ha.asksSuperclass,
    fun id arguments paren f htask hf hinit => hcoherent.gives_of_function htask hf hinit,
    fun c arguments paren htask k => Moment.gives_of_class htask⟩
  obtain ⟨-, hopens, id, htask, hfunction⟩ := hbinds.step_eq
  have hsize : a.history.openings.length = a.machine.session.heap.frames.size := hcoherent.ok.size
  have hopened : a.stepped.history.openings[a.machine.session.heap.frames.size]? =
      some (some (.this f.decl i)) := by
    rw [Moment.stepped, hopens, ← hsize]
    simp [History.extend]
  refine ⟨id, a.machine.session.heap.frames.size, htask, fun b hlater => ?_⟩
  have hstepped : a.stepped.Coherent := hcoherent.step
  exact ⟨(hstepped.grows hlater).heap.functions id _ hfunction, hstepped.this_stays hlater hopened⟩

/-- In `class A{init(){this.x=nil;}}class B<A{init(){super.init();}}B();` the call of the inherited
initializer is over after 11 steps. -/
theorem methods_stay_bound_super_init :
    let source : Source :=
      ("class A\x7binit()\x7bthis.x=nil;\x7d\x7d" ++
        "class B<A\x7binit()\x7bsuper.init();\x7d\x7dB();").toUTF8.toList
    ∃ program s' id arguments paren f i,
      (Session.new .unlimited fun _ => 0).prepare source = (.ok program, s') ∧
      let m := Machine.run 17 (.ofProgram program s')
      m.task = .call (.function id) arguments paren ∧
      m.session.heap.functions[id]? = some f ∧ f.isInitializer = true ∧ m.Completes 11 ∧
      m.session.heap.local? f.closure "this" = some (.instanceObj i) ∧
      Moment.Gives i (Machine.run 11 m).task := by
  intro source
  obtain ⟨program, s', hprepare, hcheck⟩ := Session.exists_of_prepare
    (.new .unlimited fun _ => 0) source
    (fun program s' =>
      let m := Machine.run 17 (.ofProgram program s')
      (m.task.function?.bind fun id => m.session.heap.functions[id]?).any Function.isInitializer &&
        ((Machine.run 11 m).stack.length == m.stack.length &&
          (List.range 11).all fun j =>
            j == 0 || m.stack.length < (Machine.run j m).stack.length)) (by decide +kernel)
  obtain ⟨hinit, hsteps⟩ := (Bool.and_eq_true _ _).mp hcheck
  obtain ⟨f, hf, hinit⟩ := (Option.any_eq_true _ _).mp hinit
  obtain ⟨id, htask, hf⟩ := Option.bind_eq_some_iff.mp hf
  obtain ⟨arguments, paren, htask⟩ := Task.eq_call htask
  simp only [Bool.and_eq_true, beq_iff_eq, List.all_eq_true, List.mem_range, Bool.or_eq_true,
    decide_eq_true_eq] at hsteps
  have hcompletes : Machine.Completes (Machine.run 17 (.ofProgram program s')) 11 :=
    ⟨by decide, hsteps.1, fun j hj hpos => (hsteps.2 j hj).resolve_left (Nat.ne_of_gt hpos)⟩
  have hreached := Moment.reached_run (.new .unlimited fun _ => 0) hprepare 17
  obtain ⟨hstays, -, -, -, hcalls, -⟩ := methods_stay_bound hreached
  obtain ⟨i, hopened, hgives⟩ := hcalls id arguments paren f htask hf hinit
  exact ⟨program, s', id, arguments, paren, f, i, hprepare, htask, hf, hinit, hcompletes,
    (hstays _ _ i hopened _ (.refl _)).2, hgives 11 hcompletes⟩

end ScriptLang
