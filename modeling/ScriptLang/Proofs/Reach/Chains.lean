import ScriptLang.Proofs.Reach.Encapsulation
import ScriptLang.Proofs.Registers

/-! Chains of frames and of classes. A frame is made inside an older one and a class extends an
older one, and neither link is ever changed; so every chain ends, and the walks along it visit all
of it. Nothing that was made goes away, and no name or field is ever lost. -/

namespace ScriptLang

/-- All that links lead to, one after the other. -/
inductive Chain (link : Nat → Option Nat) : Nat → List Nat → Prop where
  | last {x : Nat} : link x = none → Chain link x [x]
  | cons {x y : Nat} {rest : List Nat} : link x = some y → Chain link y rest →
      Chain link x (x :: rest)

namespace Chain

variable {link : Nat → Option Nat} (hlink : ∀ x y, link x = some y → y < x)
include hlink

/-- Links that lead to what is older lead to an end. -/
theorem exists_of_older (x : Nat) : ∃ xs, Chain link x xs := by
  induction x using Nat.strongRecOn with
  | ind x ih =>
      cases hx : link x with
      | none => exact ⟨[x], .last hx⟩
      | some y =>
          obtain ⟨rest, hrest⟩ := ih y (hlink x y hx)
          exact ⟨x :: rest, .cons hx hrest⟩

variable {x : Nat} {xs : List Nat}

theorem le_of_mem (h : Chain link x xs) : ∀ y ∈ xs, y ≤ x := by
  induction h with
  | last => simp
  | cons hx _ ih =>
      intro z hz
      rcases List.mem_cons.mp hz with rfl | hz
      · exact Nat.le_refl _
      · exact Nat.le_trans (ih z hz) (Nat.le_of_lt (hlink _ _ hx))

theorem nodup (h : Chain link x xs) : xs.Nodup := by
  induction h with
  | last => simp
  | cons hx hrest ih =>
      refine List.nodup_cons.mpr ⟨fun hmem => ?_, ih⟩
      exact Nat.lt_irrefl _ (Nat.lt_of_le_of_lt (le_of_mem hlink hrest _ hmem) (hlink _ _ hx))

theorem length_le (h : Chain link x xs) : xs.length ≤ x + 1 := by
  induction h with
  | last => simp
  | cons hx _ ih =>
      have hlt := hlink _ _ hx
      rw [List.length_cons]
      omega

end Chain

namespace Heap

/-! ### Walks along chains -/

/-- The superclass of a class. -/
def parent? (h : Heap) (c : ClassId) : Option ClassId := h.classes[c]?.bind (·.superclass)

variable {h : Heap}

theorem ancestor?_of_chain {f : FrameId} {chain : List FrameId}
    (hchain : Chain h.enclosing? f chain) (d : Nat) : h.ancestor? f d = chain[d]? := by
  induction hchain generalizing d with
  | last hf => cases d <;> simp [ancestor?, hf]
  | cons hf _ ih => cases d <;> simp [ancestor?, hf, ih]

/-- A walk that may take as many steps as the chain is long finds the first frame of the chain that
binds the name. -/
theorem binderWithin_of_chain {f : FrameId} {chain : List FrameId}
    (hchain : Chain h.enclosing? f chain) (name : String) {n : Nat} (hn : chain.length ≤ n) :
    h.binderWithin name n f = chain.find? fun g => (h.local? g name).isSome := by
  induction hchain generalizing n with
  | last hf =>
      cases n with
      | zero => cases hn
      | succ n => simp only [binderWithin, hf]; split <;> simp [*]
  | cons hf _ ih =>
      cases n with
      | zero => cases hn
      | succ n =>
          simp only [binderWithin, hf, ih (Nat.le_of_succ_le_succ hn), List.find?_cons]
          split <;> simp [*]

/-- A walk that may take as many steps as the chain is long finds the method of the first class of
the chain that has it. -/
theorem methodWithin_of_chain {c : ClassId} {chain : List ClassId}
    (hchain : Chain h.parent? c chain) (name : String) {n : Nat} (hn : chain.length ≤ n) :
    h.methodWithin name n c =
      chain.findSome? fun d => h.classes[d]?.bind (·.methods.get? name) := by
  induction hchain generalizing n with
  | @last c hc =>
      cases n with
      | zero => cases hn
      | succ n =>
          unfold parent? at hc
          cases hcls : h.classes[c]? with
          | none => simp [methodWithin, hcls]
          | some cls =>
              rw [hcls, Option.bind_some] at hc
              cases hget : cls.methods.get? name <;> simp [methodWithin, hcls, hc, hget]
  | cons hc _ ih =>
      cases n with
      | zero => cases hn
      | succ n =>
          obtain ⟨cls, hcls, hsuper⟩ := Option.bind_eq_some_iff.mp hc
          have hrest := ih (Nat.le_of_succ_le_succ hn)
          cases hget : cls.methods.get? name <;>
            simp [methodWithin, hcls, hsuper, hget, hrest]

/-! ### The order of a heap -/

/-- Nothing refers to what has not been made, frames lie inside older ones and classes extend older
ones, and the frame `g` alone lies inside no other. -/
structure Ordered (g : FrameId) (h : Heap) : Prop where
  points : ∀ {r r'}, h.Points r r' → h.Has r'
  enclosing : ∀ f outer, h.enclosing? f = some outer → outer < f
  parent : ∀ c parent, h.parent? c = some parent → parent < c
  outermost : ∀ f < h.frames.size, h.enclosing? f = none → f = g

variable {g : FrameId}

theorem parent?_newClass {cls : Class} {c parent : ClassId}
    (hparent : (h.newClass cls).1.parent? c = some parent) :
    h.parent? c = some parent ∨ c = h.classes.size ∧ cls.superclass = some parent := by
  obtain ⟨d, hd, hsuper⟩ := Option.bind_eq_some_iff.mp hparent
  rcases getElem?_push_cases hd with hd | ⟨hc, rfl⟩
  · exact .inl (Option.bind_eq_some_iff.mpr ⟨d, hd, hsuper⟩)
  · exact .inr ⟨hc, hsuper⟩

theorem Ordered.edit {h' : Heap} (hordered : h.Ordered g) (hedit : h.Edit h.Has h') :
    h'.Ordered g where
  points hpoints := (hedit.points hpoints).elim (fun h => hedit.has (hordered.points h)) hedit.has
  enclosing f outer hf := by
    cases hedit with
    | define name => exact hordered.enclosing f outer (by rwa [enclosing?_define] at hf)
    | newFrame houter =>
        rw [enclosing?_newFrame] at hf
        split at hf
        · rename_i hsize
          cases hf
          exact hsize ▸ houter
        · exact hordered.enclosing f outer hf
    | _ => exact hordered.enclosing f outer hf
  parent c parent hc := by
    cases hedit with
    | newClass hsuper =>
        rcases parent?_newClass hc with hc | ⟨rfl, hparent⟩
        · exact hordered.parent c parent hc
        · exact hsuper parent hparent
    | _ => exact hordered.parent c parent hc
  outermost f hlt hf := by
    cases hedit with
    | define name =>
        rw [define_size] at hlt
        rw [enclosing?_define] at hf
        exact hordered.outermost f hlt hf
    | newFrame houter =>
        rw [newFrame_size] at hlt
        rw [enclosing?_newFrame] at hf
        split at hf
        · cases hf
        · rename_i hne
          exact hordered.outermost f (Nat.lt_of_le_of_ne (Nat.le_of_lt_succ hlt) hne) hf
    | _ => exact hordered.outermost f hlt hf

/-- A heap with a single frame, in which one name stands for a native function. -/
theorem ordered_native (name : String) (f : Native) :
    ((empty.newFrame none).1.define 0 name (.native f)).Ordered 0 := by
  have henclosing (g : FrameId) :
      ((empty.newFrame none).1.define 0 name (.native f)).enclosing? g = none := by
    rw [enclosing?_define, enclosing?_newFrame]
    split <;> rfl
  constructor
  · intro r r' hpoints
    cases hpoints with
    | enclosing hg => simp [henclosing] at hg
    | bound hg hr =>
        rcases local?_define_cases hg with hg | rfl
        · rw [local?_newFrame] at hg
          cases hg
        · cases hr
    | closure hg | ofClass hg | field hg | superclass hg | method hg => cases hg
  · intro g outer hg
    simp [henclosing] at hg
  · intro c parent hc
    cases hc
  · intro g hg _
    exact Nat.lt_one_iff.mp hg

/-- To hold only what has been made. -/
def ordering (g : FrameId) : Discipline where
  allows := Has
  keeps := Ordered g
  points hordered _ hpoints := hordered.points hpoints
  edit := Ordered.edit
  mono _ hedit := hedit.has
  fresh _ _ _ := id

/-! ### Chains of a heap -/

/-- The chain of a frame: it is finite, comes back to none of its frames and ends in the global
frame `g`. Walks along it go as far as it goes. -/
structure Rooted (h : Heap) (g f : FrameId) (frames : List FrameId) : Prop where
  chain : Chain h.enclosing? f frames
  nodup : frames.Nodup
  last : frames.getLast? = some g
  ancestor : ∀ d, h.ancestor? f d = frames[d]?
  binder : ∀ name, h.binder? f name = frames.find? fun g => (h.local? g name).isSome

/-- The chain of a class: it is finite and comes back to none of its classes. Walks along it go as
far as it goes. -/
structure Derived (h : Heap) (c : ClassId) (classes : List ClassId) : Prop where
  chain : Chain h.parent? c classes
  nodup : classes.Nodup
  method : ∀ name,
    h.findMethod? c name = classes.findSome? fun d => h.classes[d]?.bind (·.methods.get? name)

theorem Ordered.getLast? (hordered : h.Ordered g) {f : FrameId} {chain : List FrameId}
    (hchain : Chain h.enclosing? f chain) (hf : f < h.frames.size) :
    chain.getLast? = some g := by
  induction hchain with
  | last hlast =>
      rw [hordered.outermost _ hf hlast]
      rfl
  | cons houter hrest ih =>
      have hlast := ih (hordered.points (.enclosing houter))
      rw [List.getLast?_cons, hlast]
      rfl

theorem Ordered.rooted (hordered : h.Ordered g) {f : FrameId} (hf : f < h.frames.size) :
    ∃ chain, h.Rooted g f chain := by
  obtain ⟨chain, hchain⟩ := Chain.exists_of_older hordered.enclosing f
  have hlength := Chain.length_le hordered.enclosing hchain
  exact ⟨chain, hchain, Chain.nodup hordered.enclosing hchain, hordered.getLast? hchain hf,
    ancestor?_of_chain hchain,
    fun name => binderWithin_of_chain hchain name (Nat.le_trans hlength hf)⟩

theorem Ordered.derived (hordered : h.Ordered g) {c : ClassId} (hc : c < h.classes.size) :
    ∃ chain, h.Derived c chain := by
  obtain ⟨chain, hchain⟩ := Chain.exists_of_older hordered.parent c
  have hlength := Chain.length_le hordered.parent hchain
  exact ⟨chain, hchain, Chain.nodup hordered.parent hchain,
    fun name => methodWithin_of_chain hchain name (Nat.le_trans hlength hc)⟩

/-! ### Growth -/

/-- Every object of `h` is still there in `h'`: a frame lies inside the same frame and binds all the
names it bound, an instance is of the same class and has all the fields it had, and functions and
classes are the same. -/
structure Keeps (h h' : Heap) : Prop where
  frames : ∀ (f : FrameId) frame, h.frames[f]? = some frame →
    ∃ later, h'.frames[f]? = some later ∧ later.enclosing = frame.enclosing ∧
      ∀ name, frame.bindings.contains name → later.bindings.contains name
  instances : ∀ (i : InstanceId) inst, h.instances[i]? = some inst →
    ∃ later, h'.instances[i]? = some later ∧ later.cls = inst.cls ∧
      ∀ name, inst.fields.contains name → later.fields.contains name
  functions : ∀ (id : FunctionId) f, h.functions[id]? = some f → h'.functions[id]? = some f
  classes : ∀ (c : ClassId) cls, h.classes[c]? = some cls → h'.classes[c]? = some cls

theorem Keeps.refl (h : Heap) : h.Keeps h where
  frames _ frame hframe := ⟨frame, hframe, rfl, fun _ => id⟩
  instances _ inst hinst := ⟨inst, hinst, rfl, fun _ => id⟩
  functions _ _ := id
  classes _ _ := id

theorem Keeps.trans {h₁ h₂ h₃ : Heap} (h : h₁.Keeps h₂) (h' : h₂.Keeps h₃) : h₁.Keeps h₃ where
  frames f frame hframe := by
    obtain ⟨later, hlater, henclosing, hnames⟩ := h.frames f frame hframe
    obtain ⟨last, hlast, henclosing', hnames'⟩ := h'.frames f later hlater
    exact ⟨last, hlast, henclosing'.trans henclosing, fun name hn => hnames' name (hnames name hn)⟩
  instances i inst hinst := by
    obtain ⟨later, hlater, hcls, hfields⟩ := h.instances i inst hinst
    obtain ⟨last, hlast, hcls', hfields'⟩ := h'.instances i later hlater
    exact ⟨last, hlast, hcls'.trans hcls, fun name hn => hfields' name (hfields name hn)⟩
  functions id f hf := h'.functions id f (h.functions id f hf)
  classes c cls hc := h'.classes c cls (h.classes c cls hc)

theorem getElem?_push_of_eq_some {α : Type} {xs : Array α} {x y : α} {k : Nat}
    (hx : xs[k]? = some x) : (xs.push y)[k]? = some x := by
  rw [Array.getElem?_push, if_neg (Nat.ne_of_lt (Array.getElem?_eq_some_iff.mp hx).1), hx]

theorem exists_getElem?_modify {α : Type} {xs : Array α} {i k : Nat} {update : α → α} {x : α}
    {P : α → Prop} (hx : xs[k]? = some x) (hold : P x) (hnew : P (update x)) :
    ∃ later, (xs.modify i update)[k]? = some later ∧ P later := by
  rw [Array.getElem?_modify, hx]
  split
  · exact ⟨update x, rfl, hnew⟩
  · exact ⟨x, rfl, hold⟩

/-- No edit takes anything away. -/
theorem Edit.keeps {may : Ref → Prop} {h h' : Heap} (hedit : h.Edit may h') : h.Keeps h' := by
  have hsame := Keeps.refl h
  cases hedit with
  | define name =>
      refine { hsame with frames := fun g frame hframe => ?_ }
      refine exists_getElem?_modify hframe ⟨rfl, fun _ => id⟩ ⟨rfl, fun other hother => ?_⟩
      simp [Bindings.contains_insert, hother]
  | setField name =>
      refine { hsame with instances := fun i inst hinst => ?_ }
      refine exists_getElem?_modify hinst ⟨rfl, fun _ => id⟩ ⟨rfl, fun other hother => ?_⟩
      simp [Bindings.contains_insert, hother]
  | newFrame =>
      exact { hsame with
        frames := fun f frame hframe =>
          ⟨frame, getElem?_push_of_eq_some hframe, rfl, fun _ => id⟩ }
  | newFunction => exact { hsame with functions := fun _ _ => getElem?_push_of_eq_some }
  | newClass => exact { hsame with classes := fun _ _ => getElem?_push_of_eq_some }
  | newInstance =>
      exact { hsame with
        instances := fun i inst hinst =>
          ⟨inst, getElem?_push_of_eq_some hinst, rfl, fun _ => id⟩ }

/-- To make of a heap only what keeps its objects. -/
def permanence (h : Heap) : Discipline where
  allows _ _ := True
  keeps := h.Keeps
  points _ _ _ := trivial
  edit hkeeps hedit := hkeeps.trans hedit.keeps
  mono _ _ := id
  fresh _ _ _ _ := trivial

end Heap

/-! ### Machines that arise -/

/-- The machines of a session that carries out programs and other tasks of any kind, one after the
other, with any hop counts. -/
inductive Machine.Arises : Machine → Prop where
  | new (sink : Sink) (reading : Nat → Float) : Arises ⟨.done, [], .new sink reading⟩
  | step {m : Machine} : Arises m → Arises m.step
  | program {m : Machine} (program : Program) (hops : HopTable) (nextId : ExprId) : Arises m →
      m.halted = true → Arises (.ofProgram program { m.session with hops, nextId })
  | task {m : Machine} {task : Task} (hops : HopTable) (nextId : ExprId) : Arises m →
      m.halted = true → task.Begins → Arises ⟨task, [], { m.session with hops, nextId }⟩

namespace Machine

theorem Arises.idle {m : Machine} (h : m.Arises) (hhalted : m.halted = true) (hops : HopTable)
    (nextId : ExprId) : Arises ⟨.done, [], { m.session with hops, nextId }⟩ :=
  .step (.program [] hops nextId h hhalted)

/-- The machines of sessions that run scripts arise. -/
theorem arises_of_reached {a : Moment} (h : a.Reached) : a.machine.Arises := by
  obtain ⟨sink, reading, hlater⟩ := h
  refine hlater.induct (P := fun a => a.machine.Arises) (.new sink reading) fun b c hb hnext => ?_
  cases hnext with
  | step => exact hb.step
  | finish hhalted => exact hb.idle hhalted _ _
  | start hprepare =>
      obtain ⟨-, -, -, heq⟩ := Session.prepare_ok hprepare
      rw [heq]
      exact .program _ _ _ hb rfl
  | reject hprepare =>
      obtain ⟨-, heq⟩ := Session.prepare_error hprepare
      rw [heq]
      exact hb.idle rfl _ _

theorem Arises.abides {m : Machine} (h : m.Arises) :
    m.Abides (Heap.ordering m.session.globals) := by
  induction h with
  | new sink reading =>
      have hordered := Heap.ordered_native Session.clockFunction.name Session.clockFunction
      exact ⟨⟨hordered, Nat.one_pos, Nat.one_pos⟩, trivial, fun p hp => nomatch hp⟩
  | @step m _ ih =>
      rw [step_globals]
      exact ih.step
  | program program hops nextId _ _ ih =>
      obtain ⟨⟨hkeeps, hcurrent, hglobals⟩, -, -⟩ := ih
      exact ⟨⟨hkeeps, hcurrent, hglobals⟩, trivial, by simp [ofProgram, Pending.Within]⟩
  | task hops nextId _ _ hbegins ih =>
      obtain ⟨⟨hkeeps, hcurrent, hglobals⟩, -, -⟩ := ih
      exact ⟨⟨hkeeps, hcurrent, hglobals⟩, Task.Begins.within hbegins _, fun p hp => nomatch hp⟩

/-- Whatever a machine does keeps the objects of its heap. -/
theorem run_keeps (n : Nat) (m : Machine) : m.session.heap.Keeps (m.run n).session.heap := by
  have habides : m.Abides m.session.heap.permanence :=
    ⟨⟨.refl _, trivial, trivial⟩, Task.within_of_forall fun _ => trivial,
      fun p _ => Pending.within_of_forall fun _ => trivial⟩
  exact (habides.run n).session.keeps

end Machine

/-- Whatever a machine does keeps every object of its heap with its links, names and fields. At
every moment of every session the chains of frames are finite, come back to none of their frames
and end in the global frame, those of the closures of functions too; the chains of classes are
finite and come back to none of their classes; and the walks along chains end where these end. -/
theorem heaps_grow_and_chains_end :
    (∀ (m : Machine) (n : Nat), m.session.heap.Keeps (m.run n).session.heap ∧
      (m.run n).session.globals = m.session.globals) ∧
    ∀ m : Machine, m.Arises →
      (∀ f < m.session.heap.frames.size,
        ∃ frames, m.session.heap.Rooted m.session.globals f frames) ∧
      m.session.current < m.session.heap.frames.size ∧
      m.session.globals < m.session.heap.frames.size ∧
      (∀ (id : FunctionId) f, m.session.heap.functions[id]? = some f →
        ∃ frames, m.session.heap.Rooted m.session.globals f.closure frames) ∧
      (∀ f, .body f ∈ m.stack →
        ∃ frames, m.session.heap.Rooted m.session.globals f.closure frames) ∧
      ∀ c < m.session.heap.classes.size, ∃ classes, m.session.heap.Derived c classes := by
  refine ⟨fun m n => ⟨Machine.run_keeps n m, Machine.run_globals n m⟩, fun m harises => ?_⟩
  obtain ⟨⟨hordered, hcurrent, hglobals⟩, -, hstack⟩ := harises.abides
  exact ⟨fun f hf => hordered.rooted hf, hcurrent, hglobals,
    fun id f hf => hordered.rooted (hordered.points (.closure hf)),
    fun f hf => hordered.rooted (hstack _ hf), fun c hc => hordered.derived hc⟩

/-- After `class A{}class B<A{}class A<B{}fun f(){}` the second class named `A` extends one that
extends the first. -/
theorem heaps_grow_and_chains_end_redefined :
    let source : Source :=
      "class A\x7b\x7dclass B<A\x7b\x7dclass A<B\x7b\x7dfun f()\x7b\x7d".toUTF8.toList
    ∃ program s', (Session.new .unlimited fun _ => 0).prepare source = (.ok program, s') ∧
      let m := Machine.run 30 (.ofProgram program s')
      m.session.heap.parent? 2 = some 1 ∧ m.session.heap.parent? 1 = some 0 ∧
      (∃ classes, m.session.heap.Derived 2 classes) ∧
      ∃ f, m.session.heap.functions[0]? = some f ∧
        ∃ frames, m.session.heap.Rooted m.session.globals f.closure frames := by
  intro source
  obtain ⟨program, s', hprepare, hcheck⟩ := Session.exists_of_prepare
    (.new .unlimited fun _ => 0) source
    (fun program s' =>
      let heap := (Machine.run 30 (.ofProgram program s')).session.heap
      heap.parent? 2 == some 1 && heap.parent? 1 == some 0 && heap.classes.size == 3 &&
        heap.functions[0]?.isSome)
    (by decide +kernel)
  simp only [Bool.and_eq_true, beq_iff_eq, Option.isSome_iff_exists] at hcheck
  obtain ⟨⟨⟨hsecond, hfirst⟩, hsize⟩, f, hf⟩ := hcheck
  have harises := Machine.arises_of_reached
    (Moment.reached_run (.new .unlimited fun _ => 0) hprepare 30)
  obtain ⟨-, -, -, hclosures, -, hclasses⟩ := heaps_grow_and_chains_end.2 _ harises
  have hmade : 2 < (Machine.run 30 (.ofProgram program s')).session.heap.classes.size := by
    rw [hsize]
    decide
  exact ⟨program, s', hprepare, hsecond, hfirst, hclasses 2 hmade, f, hf, hclosures 0 f hf⟩

end ScriptLang
