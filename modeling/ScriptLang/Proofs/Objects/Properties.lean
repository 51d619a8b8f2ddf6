import Mathlib.Data.List.Forall2
import ScriptLang.Proofs.Objects.Deeds

/-! Properties of instances. What an instance answers when it is asked for a property, and how many
arguments its class takes, follow from the deeds of the session so far. -/

namespace ScriptLang

/-! ### Heaps and deeds -/

/-- A class is what its declaration says. -/
structure Heap.Follows (h : Heap) (cls : Class) (d : Declaration) : Prop where
  name : cls.name = d.name
  superclass : cls.superclass = d.superclass
  methods : ∀ name, h.Offers cls name (d.method? name)

/-- The classes and fields of a heap are what deeds tell. Classes and declarations have the same
numbers, since both are counted as they are made. -/
structure Heap.Records (h : Heap) (ds : Chronicle) : Prop where
  classes : List.Forall₂ h.Follows h.classes.toList ds.declarations
  fields : ∀ i name, h.field? i name = ds.written? i name

namespace Heap

variable {h h' : Heap} {ds : Chronicle}

theorem Follows.mono
    (hfunctions : ∀ (id : FunctionId) f, h.functions[id]? = some f → h'.functions[id]? = some f)
    {cls : Class} {d : Declaration} (hfollows : h.Follows cls d) : h'.Follows cls d :=
  ⟨hfollows.name, hfollows.superclass, fun name => (hfollows.methods name).mono hfunctions⟩

namespace Records

theorem empty {h : Heap} (hclasses : h.classes = #[]) (hinstances : h.instances = #[]) :
    h.Records [] where
  classes := by rw [hclasses]; exact .nil
  fields i name := by rw [field?, hinstances]; rfl

theorem quiet (hrecords : h.Records ds) (hquiet : h.Quiet h') : h'.Records ds where
  classes := by
    rw [hquiet.classes]
    exact hrecords.classes.imp fun _ _ hfollows => hfollows.mono hquiet.functions
  fields i name := (hquiet.fields i name).trans (hrecords.fields i name)

theorem newClass (hrecords : h.Records ds) {d : Declaration} {methods : Bindings FunctionId}
    (hoffers : ∀ name, h.Offers ⟨d.name, d.superclass, methods⟩ name (d.method? name)) :
    (h.newClass ⟨d.name, d.superclass, methods⟩).1.Records (ds ++ [.declared d]) where
  classes := by
    rw [Chronicle.declarations_append]
    have hlast : List.Forall₂ h.Follows [⟨d.name, d.superclass, methods⟩] [d] :=
      .cons ⟨rfl, rfl, hoffers⟩ .nil
    have hclasses := List.rel_append hrecords.classes hlast
    simp only [← Array.toList_push] at hclasses
    exact hclasses.imp fun _ _ hfollows => hfollows.mono (Grows.newClass h _).functions
  fields i name := by
    rw [Chronicle.written?_append]
    exact hrecords.fields i name

theorem setField (hrecords : h.Records ds) {i : InstanceId} (hi : i < h.instances.size)
    (name : String) (v : Value) : (h.setField i name v).Records (ds ++ [.wrote i name v]) where
  classes := by
    rw [Chronicle.declarations_append]
    refine (List.append_nil ds.declarations).symm ▸ ?_
    have hfunctions := (Grows.setField h i name v).functions
    exact hrecords.classes.imp fun _ _ hfollows => hfollows.mono hfunctions
  fields j other := by
    rw [field?_setField_of_lt h hi, Chronicle.written?_append, hrecords.fields]
    by_cases heq : i = j ∧ name = other <;> simp [Chronicle.written?, Deed.writes?, heq]

/-- What deeds do to a heap that was told from deeds is told from all of them. -/
theorem effect {es : Chronicle} (hrecords : h.Records ds) (heffect : h.Effect es h')
    (hmade : ∀ i name v, .wrote i name v ∈ es → i < h.instances.size) : h'.Records (ds ++ es) := by
  cases heffect with
  | nothing hquiet =>
      rw [List.append_nil]
      exact hrecords.quiet hquiet
  | declared hbefore hoffers hafter =>
      exact ((hrecords.quiet hbefore).newClass hoffers).quiet hafter
  | wrote i name v => exact hrecords.setField (hmade i name v List.mem_cons_self) name v

/-! ### Chains of classes -/

theorem size_eq (hrecords : h.Records ds) : h.classes.size = ds.declarations.length :=
  hrecords.classes.length_eq

/-- A class and its declaration. -/
theorem class_cases (hrecords : h.Records ds) (c : ClassId) :
    h.classes[c]? = none ∧ ds.declarations[c]? = none ∨
      ∃ cls d, h.classes[c]? = some cls ∧ ds.declarations[c]? = some d ∧ h.Follows cls d := by
  have hsize := hrecords.size_eq
  by_cases hc : c < h.classes.size
  · right
    refine ⟨_, _, Array.getElem?_eq_getElem hc, List.getElem?_eq_getElem (hsize ▸ hc), ?_⟩
    exact hrecords.classes.get hc (hsize ▸ hc)
  · left
    exact ⟨Array.getElem?_eq_none (Nat.le_of_not_lt hc),
      List.getElem?_eq_none (hsize ▸ Nat.le_of_not_lt hc)⟩

theorem parent?_eq (hrecords : h.Records ds) : h.parent? = ds.superclass? := by
  funext c
  rw [parent?, Chronicle.superclass?]
  rcases hrecords.class_cases c with ⟨hcls, hd⟩ | ⟨cls, d, hcls, hd, hfollows⟩
  · rw [hcls, hd]
    rfl
  · rw [hcls, hd]
    exact hfollows.superclass

/-- The method that is found on some classes was made for the declaration that deeds tell. -/
theorem first_method (hrecords : h.Records ds) (classes : List ClassId) (name : String) :
    ds.method? classes name = none ∧
        classes.findSome? (fun c => h.classes[c]?.bind (·.methods.get? name)) = none ∨
      ∃ id f, classes.findSome? (fun c => h.classes[c]?.bind (·.methods.get? name)) = some id ∧
        h.functions[id]? = some f ∧ ds.method? classes name = some f.decl ∧
        f.isInitializer = f.decl.isInit := by
  unfold Chronicle.method?
  induction classes with
  | nil => exact .inl ⟨rfl, rfl⟩
  | cons c classes ih =>
      rw [List.findSome?_cons, List.findSome?_cons]
      rcases hrecords.class_cases c with ⟨hcls, hd⟩ | ⟨cls, d, hcls, hd, hfollows⟩
      · rw [hcls, hd]
        exact ih
      · rw [hcls, hd, Option.bind_some, Option.bind_some]
        have hoffers := hfollows.methods name
        cases hmethod : d.method? name with
        | none =>
            rw [hmethod] at hoffers
            rw [show cls.methods.get? name = none from hoffers]
            exact ih
        | some decl =>
            rw [hmethod] at hoffers
            obtain ⟨id, f, hget, hf, rfl, hinit⟩ := hoffers
            rw [hget]
            exact .inr ⟨id, f, rfl, hf, rfl, hinit⟩

theorem method?_eq (hrecords : h.Records ds) {c : ClassId} {classes : List ClassId}
    (hderived : h.Derived c classes) (name : String) :
    ds.method? classes name = none ∧ h.method? c name = none ∨
      ∃ f, ds.method? classes name = some f.decl ∧ h.method? c name = some f ∧
        f.isInitializer = f.decl.isInit := by
  rw [Heap.method?, hderived.method]
  rcases hrecords.first_method classes name with ⟨hnone, hfind⟩ | ⟨id, f, hfind, hf, hdecl, hinit⟩
  · rw [hfind]
    exact .inl ⟨hnone, rfl⟩
  · rw [hfind, Option.bind_some]
    exact .inr ⟨f, hdecl, hf, hinit⟩

theorem classArity_eq (hrecords : h.Records ds) {c : ClassId} {classes : List ClassId}
    (hderived : h.Derived c classes) : h.classArity c = ds.arity classes := by
  unfold classArity Chronicle.arity
  rcases hrecords.method?_eq hderived initName with ⟨hnone, hmethod⟩ | ⟨f, hdecl, hmethod, -⟩
  · rw [hnone, hmethod]
  · rw [hdecl, hmethod]

end Records

end Heap

/-! ### Moments and deeds -/

namespace Moment

/-- The moments of the runs of a session, with what was done to objects up to then. -/
inductive Lived : Chronicle → Moment → Prop where
  | new (sink : Sink) (reading : Nat → Float) : Lived [] (idle .start (.new sink reading))
  | next {ds : Chronicle} {a b : Moment} : Lived ds a → Next a b → Lived (ds ++ a.machine.deeds) b

variable {ds : Chronicle} {a b : Moment}

theorem Lived.reached (h : a.Lived ds) : a.Reached := by
  induction h with
  | new sink reading => exact ⟨sink, reading, .refl _⟩
  | next _ hnext ih =>
      obtain ⟨sink, reading, hlater⟩ := ih
      exact ⟨sink, reading, hlater.next hnext⟩

theorem Lived.later (h : a.Lived ds) (hlater : a.Later b) : ∃ later, b.Lived (ds ++ later) := by
  induction hlater with
  | refl => exact ⟨[], by rwa [List.append_nil]⟩
  | next _ hnext ih =>
      obtain ⟨later, hlived⟩ := ih
      exact ⟨_, List.append_assoc ds later _ ▸ hlived.next hnext⟩

theorem Reached.lived (h : a.Reached) : ∃ ds, a.Lived ds := by
  obtain ⟨sink, reading, hlater⟩ := h
  exact (Lived.new sink reading).later hlater

end Moment

/-- A machine that holds only what was made sets fields of instances that were made. -/
theorem Machine.Arises.lt_size {m : Machine} (harises : m.Arises) {i : InstanceId} {name : String}
    {v : Value} (hwrote : .wrote i name v ∈ m.deeds) : i < m.session.heap.instances.size := by
  obtain ⟨-, -, hstack⟩ := harises.abides
  obtain ⟨task, stack, s⟩ := m
  unfold deeds at hwrote
  split at hwrote
  · simp at hwrote
  · rename_i u p rest htask hwaits
    obtain rfl : stack = p :: rest := hwaits
    cases p with
    | setValue j other =>
        obtain ⟨rfl, -, -⟩ : i = j ∧ name = other.lexeme ∧ v = u := by
          simpa [Pending.deeds] using hwrote
        exact hstack _ List.mem_cons_self
    | superclass _ _ _ => cases u <;> simp [Pending.deeds] at hwrote
    | _ => simp [Pending.deeds] at hwrote
  · cases hwrote

/-- What at most `n` steps do to objects. -/
def Machine.chronicle : Nat → Machine → Chronicle
  | 0, _ => []
  | n + 1, m => m.deeds ++ m.step.chronicle n

theorem Machine.deeds_of_halted {m : Machine} (h : m.halted = true) : m.deeds = [] := by
  obtain ⟨task, stack, s⟩ := m
  obtain rfl : stack = [] := stack_of_halted h
  cases task with
  | eval | exec | call => cases h
  | value | done | returning | failing => rfl

theorem Machine.chronicle_of_halted {m : Machine} (h : m.halted = true) (n : Nat) :
    m.chronicle n = [] := by
  induction n with
  | zero => rfl
  | succ n ih => rw [chronicle, deeds_of_halted h, step_of_halted h, ih, List.append_nil]

namespace Moment

variable {ds : Chronicle} {a b : Moment}

/-- At every moment the classes and fields are what the deeds up to then tell. -/
theorem Lived.records (h : a.Lived ds) : a.machine.session.heap.Records ds := by
  induction h with
  | new sink reading => exact .empty rfl rfl
  | next hlived hnext ih =>
      cases hnext with
      | step =>
          have harises := Machine.arises_of_reached hlived.reached
          exact ih.effect (Machine.step_effect _) fun i name v => harises.lt_size
      | finish hhalted =>
          rw [Machine.deeds_of_halted hhalted, List.append_nil]
          exact ih
      | start hprepare =>
          obtain ⟨-, -, -, heq⟩ := Session.prepare_ok hprepare
          rw [Machine.deeds_of_halted rfl, List.append_nil, heq]
          exact ih
      | reject hprepare =>
          obtain ⟨-, heq⟩ := Session.prepare_error hprepare
          rw [Machine.deeds_of_halted rfl, List.append_nil, heq]
          exact ih

/-- A run of a machine adds its deeds to those before. -/
theorem Lived.run {history : History} {m : Machine} (h : Lived ds ⟨history, m⟩) (n : Nat) :
    Lived (ds ++ m.chronicle n) ⟨history.run n m, m.run n⟩ := by
  induction n generalizing ds history m with
  | zero => exact (List.append_nil ds).symm ▸ h
  | succ n ih =>
      unfold History.run Machine.run
      split
      · rename_i hhalted
        rw [Machine.chronicle_of_halted hhalted, List.append_nil]
        exact h
      · rename_i hhalted
        have hstep := ih (h.next (.step (by simpa using hhalted)))
        rwa [List.append_assoc] at hstep

/-- Nothing that was made goes away while scripts run. -/
theorem Later.keeps (h : a.Later b) :
    a.machine.session.heap.Keeps b.machine.session.heap := by
  refine h.induct (P := fun b => a.machine.session.heap.Keeps b.machine.session.heap) (.refl _)
    fun b c hb hnext => hb.trans ?_
  cases hnext with
  | @step _ m _ =>
      have hkeeps := Machine.run_keeps 1 m
      rw [Machine.run_succ] at hkeeps
      exact hkeeps
  | finish => exact .refl _
  | start hprepare =>
      obtain ⟨-, -, -, heq⟩ := Session.prepare_ok hprepare
      rw [heq]
      exact .refl _
  | reject hprepare =>
      obtain ⟨-, heq⟩ := Session.prepare_error hprepare
      rw [heq]
      exact .refl _

end Moment

/-! ### Reading and calling -/

/-- What is found when an instance is asked for a property. -/
inductive Finding where
  | field (v : Value)
  | method (decl : FunctionDecl)
  | missing

/-- What was written last, or else the method of the first class that has it. -/
def Chronicle.find (ds : Chronicle) (i : InstanceId) (classes : List ClassId) (name : String) :
    Finding :=
  match ds.written? i name, ds.method? classes name with
  | some v, _ => .field v
  | none, some decl => .method decl
  | none, none => .missing

/-- The machine that asking the instance `i` for a property leads to when this is found. A method is
given as a new function that has the instance as `this`. -/
def Session.Finds (s : Session) (i : InstanceId) (name : Token) (stack : List Pending)
    (m : Machine) : Finding → Prop
  | .field v => m = ⟨.value v, stack, s⟩
  | .method decl => ∃ id f, m.task = .value (.function id) ∧ m.stack = stack ∧
      s.heap.functions[id]? = none ∧ m.session.heap.functions[id]? = some f ∧
      f.decl = decl ∧ f.isInitializer = decl.isInit ∧
      m.session.heap.local? f.closure "this" = some (.instanceObj i)
  | .missing => ∃ fault, m = ⟨.failing fault, stack, s⟩ ∧
      fault.message = Message.running name ("Undefined property '" ++ name.lexeme ++ "'.")

/-- A call of a class with another number of arguments fails at once. With the right number an
instance is made, and a call that is over gave a new instance of the class, or failed. -/
def Session.Constructs (s : Session) (c : ClassId) (arity : Nat) : Prop :=
  ∀ arguments paren stack, let m : Machine := ⟨.call (.classObj c) arguments paren, stack, s⟩
    (arguments.length ≠ arity →
      m.step = ⟨.failing (.raised paren (.wrongArity arity arguments.length)), stack, s⟩) ∧
    (arguments.length = arity →
      m.step.session.heap.instances = s.heap.instances.push ⟨c, .empty⟩) ∧
    ∀ k, m.Completes k →
      (∃ i inst, (m.run k).task = .value (.instanceObj i) ∧ s.heap.instances[i]? = none ∧
        (m.run k).session.heap.instances[i]? = some inst ∧ inst.cls = c) ∨
      ∃ fault, (m.run k).task = .failing fault

namespace Session

variable {s : Session} {ds : Chronicle}

/-- The function that binding a method makes. -/
theorem bindMethod_spec (s : Session) (f : Function) (i : InstanceId) :
    ∃ id g, (s.bindMethod f i).2 = .function id ∧ s.heap.functions[id]? = none ∧
      (s.bindMethod f i).1.heap.functions[id]? = some g ∧ g.decl = f.decl ∧
      g.isInitializer = f.isInitializer ∧
      (s.bindMethod f i).1.heap.local? g.closure "this" = some (.instanceObj i) := by
  refine ⟨s.heap.functions.size, { f with closure := s.heap.frames.size }, rfl, by simp,
    Heap.newFunction_getElem? _ _, rfl, rfl, ?_⟩
  have hsize : s.heap.frames.size < (s.heap.newFrame (some f.closure)).1.frames.size := by simp
  exact (Heap.local?_define _ hsize _ "this" "this" _).trans (if_pos ⟨rfl, rfl⟩)

theorem finds_of_derived (hrecords : s.heap.Records ds) {i : InstanceId} {inst : Instance}
    (hinst : s.heap.instances[i]? = some inst) {classes : List ClassId}
    (hderived : s.heap.Derived inst.cls classes) (name : Token) (stack : List Pending) :
    s.Finds i name stack (Machine.step ⟨.value (.instanceObj i), .get name :: stack, s⟩)
      (ds.find i classes name.lexeme) := by
  simp only [Machine.step, Machine.receive, property, hrecords.fields, hinst, Option.bind_some,
    Chronicle.find]
  cases hwritten : ds.written? i name.lexeme with
  | some v => rfl
  | none =>
      rcases hrecords.method?_eq hderived name.lexeme with
        ⟨hnone, hmethod⟩ | ⟨f, hdecl, hmethod, hinit⟩
      · rw [hnone, hmethod]
        exact ⟨_, rfl, rfl⟩
      · rw [hdecl, hmethod]
        obtain ⟨id, g, hvalue, hnew, hg, hgdecl, hginit, hthis⟩ := s.bindMethod_spec f i
        exact ⟨id, g, congrArg Task.value hvalue, rfl, hnew, hg, hgdecl, hginit.trans hinit, hthis⟩

theorem enter_instances (f : Function) (arguments : List Value) (paren : Token)
    (stack : List Pending) (s : Session) :
    (Machine.enter f arguments paren stack s).session.heap.instances = s.heap.instances := by
  have hfold {bind : Heap → Token × Value → Heap}
      (hbind : ∀ h p, (bind h p).instances = h.instances) (params : List (Token × Value))
      (h : Heap) : (params.foldl bind h).instances = h.instances := by
    induction params generalizing h with
    | nil => rfl
    | cons p params ih => exact (ih (bind h p)).trans (hbind h p)
  unfold Machine.enter
  split
  · rfl
  · simp only [Machine.foldl_define]
    refine hfold ?_ _ _
    intro h p
    rfl

theorem construct_instances (c : ClassId) (arguments : List Value) (paren : Token)
    (stack : List Pending) (s : Session) :
    (Machine.construct c arguments paren stack s).session.heap.instances =
      s.heap.instances.push ⟨c, .empty⟩ := by
  simp only [Machine.construct]
  split
  · rfl
  · rw [enter_instances]
    rfl

theorem constructs_classArity (s : Session) (c : ClassId) :
    s.Constructs c (s.heap.classArity c) := by
  intro arguments paren stack m
  have hrefused (hne : arguments.length ≠ s.heap.classArity c) :
      m.step = Machine.wrongArity (s.heap.classArity c) arguments paren stack s := if_neg hne
  have hmade (heq : arguments.length = s.heap.classArity c) :
      m.step.session.heap.instances = s.heap.instances.push ⟨c, .empty⟩ := by
    have hstep : m.step = Machine.construct c arguments paren stack s := if_pos heq
    rw [hstep, construct_instances]
  refine ⟨hrefused, hmade, fun k hk => ?_⟩
  obtain ⟨j, rfl, huncovers⟩ := hk.uncovers
  by_cases heq : arguments.length = s.heap.classArity c
  · refine (Moment.gives_of_class (a := ⟨.start, m⟩) rfl hk).imp_left fun htask => ?_
    have hnew : m.step.session.heap.instances[s.heap.instances.size]? = some ⟨c, .empty⟩ := by
      simp [hmade heq]
    obtain ⟨inst, hinst, hcls, -⟩ := (Machine.run_keeps j m.step).instances _ _ hnew
    refine ⟨_, inst, htask, by simp [m], ?_, hcls⟩
    rw [Machine.run_succ]
    exact hinst
  · have hstep := hrefused heq
    obtain rfl := huncovers.eq_zero (by rw [hstep]; rfl)
    exact .inr ⟨_, congrArg Machine.task hstep⟩

end Session

/-- What is found after more deeds is what was written since, or else what was found before. -/
theorem Chronicle.find_append {ds : Chronicle} (later : Chronicle) {classes : List ClassId}
    (hclasses : ∀ c ∈ classes, c < ds.declarations.length) (i : InstanceId) (name : String) :
    (ds ++ later).find i classes name =
      ((later.written? i name).map .field).getD (ds.find i classes name) := by
  rw [find, written?_append, method?_append later hclasses]
  cases later.written? i name <;> rfl

/-- The chain of a class stays as it is. -/
theorem Chronicle.chain_append {ds : Chronicle} (later : Chronicle) {c : ClassId}
    {classes : List ClassId} (hchain : Chain ds.superclass? c classes)
    (hclasses : ∀ c ∈ classes, c < ds.declarations.length) :
    Chain (superclass? (ds ++ later)) c classes := by
  induction hchain with
  | last hc => exact .last (by rwa [superclass?_append later (hclasses _ List.mem_cons_self)])
  | cons hc _ ih =>
      refine .cons ?_ (ih fun d hd => hclasses d (List.mem_cons_of_mem _ hd))
      rwa [superclass?_append later (hclasses _ List.mem_cons_self)]

/-- At every moment of every session an instance that is asked for a property gives what was written
last to its field, or else the last method of that name in the first class of its chain that
declares one, bound to the instance, or else fails. The class takes as many arguments as the
initializer found in the same way has parameters, runs nothing with any other number of them, and
gives a new instance of its own if it does not fail. Whatever happens later, other classes of the
same names included, leaves all of this as it is, but for what is written to the fields. Classes are
numbered as they are declared, and a declaration gives its name to the class of its number. -/
theorem properties_follow_deeds {a : Moment} (h : a.Reached) :
    let s := a.machine.session
    (∃ ds, a.Lived ds) ∧ ∀ ds : Chronicle, a.Lived ds →
      (∀ d, .declared d ∈ a.machine.deeds →
        a.machine.step.session.heap.local? s.current d.name =
          some (.classObj ds.declarations.length)) ∧
      (∀ (i : InstanceId) inst, s.heap.instances[i]? = some inst →
        inst.cls < ds.declarations.length) ∧
      ∀ c < ds.declarations.length, ∃ classes, Chain ds.superclass? c classes ∧
        (∀ (i : InstanceId) inst, s.heap.instances[i]? = some inst → inst.cls = c → ∀ name stack,
          s.Finds i name stack (Machine.step ⟨.value (.instanceObj i), .get name :: stack, s⟩)
            (ds.find i classes name.lexeme)) ∧
        s.Constructs c (ds.arity classes) ∧
        ∀ b, a.Later b → ∃ later, b.Lived (ds ++ later) ∧
          Chain (Chronicle.superclass? (ds ++ later)) c classes ∧
          Chronicle.arity (ds ++ later) classes = ds.arity classes ∧
          ∀ (i : InstanceId) inst, s.heap.instances[i]? = some inst → inst.cls = c →
            (∃ inst', b.machine.session.heap.instances[i]? = some inst' ∧ inst'.cls = c) ∧
            ∀ name, Chronicle.find (ds ++ later) i classes name =
              ((Chronicle.written? later i name).map .field).getD (ds.find i classes name) := by
  intro s
  obtain ⟨⟨hordered, hcurrent, -⟩, -, -⟩ := (Machine.arises_of_reached h).abides
  refine ⟨h.lived, fun ds hlived => ?_⟩
  have hrecords := hlived.records
  refine ⟨fun d hdeclared => ?_, fun i inst hinst => ?_, fun c hc => ?_⟩
  · rw [Machine.step_declared hdeclared, ← hrecords.size_eq]
    exact Session.local?_declareClass hcurrent d
  · rw [← hrecords.size_eq]
    exact hordered.points (.ofClass hinst)
  · rw [← hrecords.size_eq] at hc
    obtain ⟨classes, hderived⟩ := hordered.derived hc
    have hchain : Chain ds.superclass? c classes := hrecords.parent?_eq ▸ hderived.chain
    have hclasses : ∀ d ∈ classes, d < ds.declarations.length := fun d hd => by
      rw [← hrecords.size_eq]
      exact Nat.lt_of_le_of_lt (Chain.le_of_mem hordered.parent hderived.chain d hd) hc
    refine ⟨classes, hchain, fun i inst hinst hcls name stack => ?_, ?_, fun b hlater => ?_⟩
    · exact Session.finds_of_derived hrecords hinst (hcls ▸ hderived) name stack
    · rw [← hrecords.classArity_eq hderived]
      exact s.constructs_classArity c
    · obtain ⟨later, hlived⟩ := hlived.later hlater
      refine ⟨later, hlived, Chronicle.chain_append later hchain hclasses, ?_,
        fun i inst hinst hcls => ⟨?_, Chronicle.find_append later hclasses i⟩⟩
      · rw [Chronicle.arity, Chronicle.method?_append later hclasses, Chronicle.arity]
      · obtain ⟨inst', hinst', hcls', -⟩ := hlater.keeps.instances i inst hinst
        exact ⟨inst', hinst', hcls'.trans hcls⟩

/-- After `class A{m(){}init(a){this.x=a;}m(b){}}class B<A{}var b=B(7);b.x=b;class A{}` the instance
of `B` has a field `x`, the second method `m` of the first `A`, and no property `y`; `B` takes one
argument. -/
theorem properties_follow_deeds_redefined :
    let source : Source :=
      ("class A\x7bm()\x7b\x7dinit(a)\x7bthis.x=a;\x7dm(b)\x7b\x7d\x7dclass B<A\x7b\x7d" ++
        "var b=B(7);b.x=b;class A\x7b\x7d").toUTF8.toList
    ∃ program s', (Session.new .unlimited fun _ => 0).prepare source = (.ok program, s') ∧
      let m := Machine.run 37 (.ofProgram program s')
      let read name :=
        Machine.step ⟨.value (.instanceObj 0), [.get ⟨.identifier, name, 1⟩], m.session⟩
      m.halted = true ∧
      (∃ v, m.session.Finds 0 ⟨.identifier, "x", 1⟩ [] (read "x") (.field v)) ∧
      (∃ decl, m.session.Finds 0 ⟨.identifier, "m", 1⟩ [] (read "m") (.method decl) ∧
        decl.arity = 1) ∧
      m.session.Finds 0 ⟨.identifier, "y", 1⟩ [] (read "y") .missing ∧
      m.session.Constructs 1 1 := by
  intro source
  obtain ⟨program, s', hprepare, hcheck⟩ := Session.exists_of_prepare
    (.new .unlimited fun _ => 0) source
    (fun program s' =>
      let m := Machine.run 37 (.ofProgram program s')
      let ds := Machine.chronicle 37 (.ofProgram program s')
      m.halted && ds.declarations.length == 3 && ds.superclass? 1 == some 0 &&
        (ds.superclass? 0).isNone && (m.session.heap.instances[0]?.map (·.cls)) == some 1 &&
        (ds.written? 0 "x").isSome && (ds.written? 0 "m").isNone && (ds.written? 0 "y").isNone &&
        (ds.method? [1, 0] "m").any (·.arity == 1) && (ds.method? [1, 0] "y").isNone &&
        ds.arity [1, 0] == 1)
    (by decide +kernel)
  simp only [Bool.and_eq_true, beq_iff_eq, Option.isNone_iff_eq_none, Option.isSome_iff_exists,
    Option.any_eq_true, Option.map_eq_some_iff] at hcheck
  obtain ⟨⟨⟨⟨⟨⟨⟨⟨⟨⟨hhalted, hcount⟩, hsecond⟩, hfirst⟩, inst, hinst, hcls⟩, v, hx⟩, hm⟩, hy⟩, decl,
    hdecl, hparams⟩, hmissing⟩, harity⟩ := hcheck
  have hlived := ((Moment.Lived.new .unlimited fun _ => 0).next (.start hprepare)).run 37
  rw [Machine.deeds_of_halted rfl, List.nil_append, List.nil_append] at hlived
  -- The machine and its deeds are named, so that nothing runs them again.
  generalize Machine.chronicle 37 (.ofProgram program s') = ds at *
  refine ⟨program, s', hprepare, ?_⟩
  generalize Machine.run 37 (.ofProgram program s') = m at *
  obtain ⟨-, -, hclasses⟩ := (properties_follow_deeds hlived.reached).2 ds hlived
  obtain ⟨classes, hchain, hfinds, hconstructs, -⟩ := hclasses 1 (by rw [hcount]; decide)
  obtain rfl : classes = [1, 0] := by
    cases hchain with
    | last hnone => cases hsecond.symm.trans hnone
    | cons hsome hrest =>
        obtain rfl := Option.some.inj (hsecond.symm.trans hsome)
        cases hrest with
        | last => rfl
        | cons hsome => cases hfirst.symm.trans hsome
  have hread := fun name => hfinds 0 inst hinst hcls ⟨.identifier, name, 1⟩ []
  simp only [Chronicle.find] at hread
  rw [harity] at hconstructs
  refine ⟨hhalted, ⟨v, ?_⟩, ⟨decl, ?_, hparams⟩, ?_, hconstructs⟩
  · have hvalue := hread "x"
    rwa [hx] at hvalue
  · have hmethod := hread "m"
    rwa [hm, hdecl] at hmethod
  · have hnothing := hread "y"
    rwa [hy, hmissing] at hnothing

end ScriptLang
