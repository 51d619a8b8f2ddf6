import ScriptLang.Proofs.Frames.Growth
import ScriptLang.Proofs.Joining.Scopes

/-! Sessions that are alike: they differ only in the declarations of their functions, which are
alike, and in hop counts of ids that no reference has. What is done to both keeps them alike. -/

namespace ScriptLang

variable {l : Likeness}

structure Function.Alike (l : Likeness) (f f' : Function) : Prop where
  decl : f.decl.Alike l f'.decl
  closure : f'.closure = f.closure
  isInitializer : f'.isInitializer = f.isInitializer

structure Heap.Alike (l : Likeness) (h h' : Heap) : Prop where
  frames : h'.frames = h.frames
  classes : h'.classes = h.classes
  instances : h'.instances = h.instances
  size : h'.functions.size = h.functions.size
  functions : ∀ id : FunctionId, Option.Rel (Function.Alike l) h.functions[id]? h'.functions[id]?

structure Session.Alike (l : Likeness) (s s' : Session) : Prop where
  heap : s.heap.Alike l s'.heap
  globals : s'.globals = s.globals
  current : s'.current = s.current
  depth : s'.depth = s.depth
  sink : s'.sink = s.sink
  clock : s'.clock = s.clock
  hops : ∀ id, l.id id → s'.hop? id = s.hop? id

/-- Failures at tokens that stand for each other. -/
inductive Fault.Alike (l : Likeness) : Fault → Fault → Prop where
  | raised {t t' : Token} (cause : FaultCause) : l.token t t' →
      Fault.Alike l (.raised t cause) (.raised t' cause)
  | sink (e : SinkError) : Fault.Alike l (.sink e) (.sink e)

theorem Fault.Alike.undefined {t t' : Token} (h : l.token t t') :
    Fault.Alike l (Session.undefined t) (Session.undefined t') := by
  unfold Session.undefined
  rw [l.lexeme h]
  exact .raised _ h

theorem none_or_some_of_rel {α β : Type} {r : α → β → Prop} {a : Option α} {b : Option β}
    (h : Option.Rel r a b) : a = none ∧ b = none ∨ ∃ x y, a = some x ∧ b = some y ∧ r x y := by
  cases h with
  | none => exact .inl ⟨rfl, rfl⟩
  | some h => exact .inr ⟨_, _, rfl, rfl, h⟩

theorem Function.Alike.mono {l' : Likeness} (hl : l.Implies l') {f f' : Function}
    (h : f.Alike l f') : f.Alike l' f' :=
  { h with decl := h.decl.mono hl }

theorem Function.Alike.eq (hl : l.Exact) {f f' : Function} (h : f.Alike l f') : f' = f := by
  have hdecl := h.decl.eq hl
  obtain ⟨decl, closure, isInitializer⟩ := f
  obtain ⟨decl', closure', isInitializer'⟩ := f'
  obtain ⟨-, rfl, rfl⟩ := h
  obtain rfl : decl' = decl := hdecl
  rfl

/-! ### Looking into the heap -/

namespace Heap.Alike

variable {h h' : Heap} (hh : h.Alike l h')
include hh

theorem mono {l' : Likeness} (hl : l.Implies l') : h.Alike l' h' := by
  refine { hh with functions := fun id => ?_ }
  rcases none_or_some_of_rel (hh.functions id) with ⟨hf, hf'⟩ | ⟨f, f', hf, hf', halike⟩
  · rw [hf, hf']
    exact .none
  · rw [hf, hf']
    exact .some (halike.mono hl)

theorem eq (hl : l.Exact) : h' = h := by
  have hfunctions : h'.functions = h.functions := by
    refine Array.ext_getElem? fun id => ?_
    rcases none_or_some_of_rel (hh.functions id) with ⟨hf, hf'⟩ | ⟨f, f', hf, hf', halike⟩
    · rw [hf, hf']
    · rw [hf, hf', halike.eq hl]
  obtain ⟨frames, functions, classes, instances⟩ := h
  obtain ⟨frames', functions', classes', instances'⟩ := h'
  obtain ⟨rfl, rfl, rfl, -, -⟩ := hh
  obtain rfl : functions' = functions := hfunctions
  rfl

theorem local? (f : FrameId) (name : String) : h'.local? f name = h.local? f name := by
  simp only [Heap.local?, hh.frames]

theorem enclosing? (f : FrameId) : h'.enclosing? f = h.enclosing? f := by
  simp only [Heap.enclosing?, hh.frames]

theorem ancestor? (f : FrameId) (d : Nat) : h'.ancestor? f d = h.ancestor? f d := by
  induction d generalizing f with
  | zero => rfl
  | succ d ih => simp only [Heap.ancestor?, hh.enclosing?, ih]

theorem getAt? (f : FrameId) (d : Nat) (name : String) :
    h'.getAt? f d name = h.getAt? f d name := by
  simp only [Heap.getAt?, hh.ancestor?, hh.local?]

theorem binderAt? (f : FrameId) (d : Nat) (name : String) :
    h'.binderAt? f d name = h.binderAt? f d name := by
  simp only [Heap.binderAt?, hh.ancestor?, hh.local?]

theorem binderWithin (name : String) (n : Nat) (f : FrameId) :
    h'.binderWithin name n f = h.binderWithin name n f := by
  induction n generalizing f with
  | zero => rfl
  | succ n ih => simp only [Heap.binderWithin, hh.local?, hh.enclosing?, ih]

theorem binder? (f : FrameId) (name : String) : h'.binder? f name = h.binder? f name := by
  simp only [Heap.binder?, hh.frames, hh.binderWithin]

theorem get? (f : FrameId) (name : String) : h'.get? f name = h.get? f name := by
  simp only [Heap.get?, hh.binder?, hh.local?]

theorem field? (i : InstanceId) (name : String) : h'.field? i name = h.field? i name := by
  simp only [Heap.field?, hh.instances]

theorem method? (c : ClassId) (name : String) :
    Option.Rel (Function.Alike l) (h.method? c name) (h'.method? c name) := by
  simp only [Heap.method?, Heap.findMethod?, methodWithin_congr hh.classes, hh.classes]
  cases h.methodWithin name h.classes.size c with
  | none => exact .none
  | some id => exact hh.functions id

theorem classArity (c : ClassId) : h'.classArity c = h.classArity c := by
  unfold Heap.classArity
  rcases none_or_some_of_rel (hh.method? c initName) with ⟨hnone, hnone'⟩ | ⟨f, f', hf, hf', halike⟩
  · rw [hnone, hnone']
  · rw [hf, hf']
    exact halike.decl.arity

theorem display (v : Value) : h'.display v = h.display v := by
  cases v with
  | function f =>
      simp only [Heap.display]
      rcases none_or_some_of_rel (hh.functions f) with ⟨hnone, hnone'⟩ | ⟨g, g', hg, hg', halike⟩
      · rw [hnone, hnone']
      · simp [hg, hg', halike.decl.name]
  | classObj c => simp only [Heap.display, Heap.className, hh.classes]
  | instanceObj i => simp only [Heap.display, Heap.className, hh.classes, hh.instances]
  | _ => rfl

/-! ### Changing the heap -/

theorem define (f : FrameId) (name : String) (v : Value) :
    (h.define f name v).Alike l (h'.define f name v) where
  frames := by simp only [Heap.define, hh.frames]
  classes := hh.classes
  instances := hh.instances
  size := hh.size
  functions := hh.functions

theorem newFrame (enclosing : Option FrameId) :
    (h.newFrame enclosing).1.Alike l (h'.newFrame enclosing).1 ∧
      (h'.newFrame enclosing).2 = (h.newFrame enclosing).2 :=
  ⟨⟨by simp only [Heap.newFrame, hh.frames], hh.classes, hh.instances, hh.size, hh.functions⟩,
    congrArg Array.size hh.frames⟩

theorem newFunction {f f' : Function} (hf : f.Alike l f') :
    (h.newFunction f).1.Alike l (h'.newFunction f').1 ∧
      (h'.newFunction f').2 = (h.newFunction f).2 := by
  refine ⟨⟨hh.frames, hh.classes, hh.instances, ?_, fun id => ?_⟩, hh.size⟩
  · simp only [Heap.newFunction, Array.size_push, hh.size]
  · simp only [Heap.newFunction, Array.getElem?_push, hh.size]
    split
    · exact .some hf
    · exact hh.functions id

theorem newClass (c : Class) : (h.newClass c).1.Alike l (h'.newClass c).1 ∧
    (h'.newClass c).2 = (h.newClass c).2 :=
  ⟨⟨hh.frames, by simp only [Heap.newClass, hh.classes], hh.instances, hh.size, hh.functions⟩,
    congrArg Array.size hh.classes⟩

theorem newInstance (c : ClassId) : (h.newInstance c).1.Alike l (h'.newInstance c).1 ∧
    (h'.newInstance c).2 = (h.newInstance c).2 :=
  ⟨⟨hh.frames, hh.classes, by simp only [Heap.newInstance, hh.instances], hh.size, hh.functions⟩,
    congrArg Array.size hh.instances⟩

theorem setField (i : InstanceId) (name : String) (v : Value) :
    (h.setField i name v).Alike l (h'.setField i name v) :=
  ⟨hh.frames, hh.classes, by simp only [Heap.setField, hh.instances], hh.size, hh.functions⟩

theorem bindMethod {f f' : Function} (hf : f.Alike l f') (i : InstanceId) :
    (h.bindMethod f i).1.Alike l (h'.bindMethod f' i).1 ∧
      (h.bindMethod f i).2.Alike l (h'.bindMethod f' i).2 := by
  obtain ⟨hheap, hframe⟩ := hh.newFrame (some f.closure)
  simp only [Heap.bindMethod, hf.closure, hframe]
  exact ⟨hheap.define _ _ _, hf.decl, rfl, hf.isInitializer⟩

omit hh in
theorem newMethods (closure : FrameId) {ds ds' : List FunctionDecl}
    (hds : FunctionDecl.AlikeEach l ds ds') {h h' : Heap} (hh : h.Alike l h')
    (methods : Bindings FunctionId) :
    (h.newMethods closure ds methods).1.Alike l (h'.newMethods closure ds' methods).1 ∧
      (h'.newMethods closure ds' methods).2 = (h.newMethods closure ds methods).2 := by
  induction ds generalizing ds' h h' methods with
  | nil =>
      cases hds
      exact ⟨hh, rfl⟩
  | cons d ds ih =>
      cases hds with
      | @cons _ d' _ _ hd hds =>
          have hmethod : Function.Alike l ⟨d, closure, d.isInit⟩ ⟨d', closure, d'.isInit⟩ :=
            ⟨hd, rfl, hd.isInit⟩
          obtain ⟨hheap, hid⟩ := hh.newFunction hmethod
          simp only [Heap.newMethods, hid, hd.name]
          exact ih hds hheap _

theorem makeClass (f closure : FrameId) (name : String) (superclass : Option ClassId)
    {ds ds' : List FunctionDecl} (hds : FunctionDecl.AlikeEach l ds ds') :
    let made := h.newMethods closure ds .empty
    let made' := h'.newMethods closure ds' .empty
    let cls := made.1.newClass ⟨name, superclass, made.2⟩
    let cls' := made'.1.newClass ⟨name, superclass, made'.2⟩
    (cls.1.define f name (.classObj cls.2)).Alike l (cls'.1.define f name (.classObj cls'.2)) := by
  intro made made' cls cls'
  obtain ⟨hmethods, heq⟩ := newMethods closure hds hh .empty
  obtain ⟨hheap, hid⟩ := hmethods.newClass ⟨name, superclass, made.2⟩
  have hcls : cls' = made'.1.newClass ⟨name, superclass, made.2⟩ := by
    simp only [cls', made', made, heq]
  rw [hcls, show (made'.1.newClass _).2 = cls.2 from hid]
  exact hheap.define f name _

end Heap.Alike

/-! ### Sessions -/

/-- What looking for a property gives, alike. -/
inductive Session.FoundAlike (l : Likeness) :
    Except Fault Session.Property → Except Fault Session.Property → Prop where
  | value (v : Value) : FoundAlike l (.ok (.value v)) (.ok (.value v))
  | method {f f' : Function} (i : InstanceId) : f.Alike l f' →
      FoundAlike l (.ok (.method f i)) (.ok (.method f' i))
  | fault {f f' : Fault} : f.Alike l f' → FoundAlike l (.error f) (.error f')

namespace Session.Alike

variable {s s' : Session} (hs : s.Alike l s')
include hs

theorem eq (hl : l.Exact) : s' = { s with hops := s'.hops, nextId := s'.nextId } := by
  have hheap := hs.heap.eq hl
  obtain ⟨heap, globals, current, depth, hops, nextId, sink, clock⟩ := s
  obtain ⟨heap', globals', current', depth', hops', nextId', sink', clock'⟩ := s'
  obtain ⟨-, rfl, rfl, rfl, rfl, rfl, -⟩ := hs
  obtain rfl : heap' = heap := hheap
  rfl

theorem withHeap {h h' : Heap} (hh : h.Alike l h') :
    { s with heap := h }.Alike l { s' with heap := h' } :=
  { hs with heap := hh }

theorem withCurrent (f : FrameId) : { s with current := f }.Alike l { s' with current := f } :=
  { hs with current := rfl }

theorem mapDepth (g : Nat → Nat) :
    { s with depth := g s.depth }.Alike l { s' with depth := g s'.depth } :=
  { hs with depth := congrArg g hs.depth }

theorem define (name : String) (v : Value) : (s.define name v).Alike l (s'.define name v) := by
  refine hs.withHeap ?_
  rw [hs.current]
  exact hs.heap.define s.current name v

theorem enterFrame (outer : FrameId) : (s.enterFrame outer).Alike l (s'.enterFrame outer) := by
  obtain ⟨hheap, hframe⟩ := hs.heap.newFrame (some outer)
  exact { hs with heap := hheap, current := hframe }

theorem newFunction {f f' : Function} (hf : f.Alike l f') :
    (s.newFunction f).1.Alike l (s'.newFunction f').1 ∧
      (s'.newFunction f').2 = (s.newFunction f).2 := by
  obtain ⟨hheap, hid⟩ := hs.heap.newFunction hf
  exact ⟨hs.withHeap hheap, congrArg Value.function hid⟩

theorem bindMethod {f f' : Function} (hf : f.Alike l f') (i : InstanceId) :
    (s.bindMethod f i).1.Alike l (s'.bindMethod f' i).1 ∧
      (s'.bindMethod f' i).2 = (s.bindMethod f i).2 := by
  obtain ⟨hheap, hbound⟩ := hs.heap.bindMethod hf i
  exact (hs.withHeap hheap).newFunction hbound

theorem read? {id : ExprId} (hid : l.id id) (name : String) :
    s'.read? id name = s.read? id name := by
  unfold Session.read?
  simp only [hs.hops id hid, hs.current, hs.globals, hs.heap.getAt?, hs.heap.get?]

theorem binder? {id : ExprId} (hid : l.id id) (name : String) :
    s'.binder? id name = s.binder? id name := by
  unfold Session.binder?
  simp only [hs.hops id hid, hs.current, hs.globals, hs.heap.binderAt?, hs.heap.binder?]

theorem property (object : Value) {t t' : Token} (ht : l.token t t') :
    FoundAlike l (s.property object t) (s'.property object t') := by
  unfold Session.property
  split
  · rename_i i
    rw [hs.heap.field?, l.lexeme ht, hs.heap.instances]
    cases s.heap.field? i t.lexeme with
    | some v => exact .value v
    | none =>
        cases s.heap.instances[i]? with
        | none => exact .fault (.raised _ ht)
        | some inst =>
            simp only [Option.bind_some]
            rcases none_or_some_of_rel (hs.heap.method? inst.cls t.lexeme) with
              ⟨h, h'⟩ | ⟨f, f', h, h', hf⟩
            · rw [h, h']
              exact .fault (.raised _ ht)
            · rw [h, h']
              exact .method i hf
  · exact .fault (.raised _ ht)

theorem superMethod {id : ExprId} (hid : l.id id) {t t' u u' : Token} (ht : l.token t t')
    (hu : l.token u u') : FoundAlike l (s.superMethod id t u) (s'.superMethod id t' u') := by
  simp only [Session.superMethod, hs.hops id hid, hs.current, hs.heap.getAt?, l.lexeme ht,
    l.lexeme hu]
  cases s.hop? id with
  | none => exact .fault (.raised _ ht)
  | some distance =>
      dsimp only
      cases s.heap.getAt? s.current distance t.lexeme with
      | none => exact .fault (.undefined ht)
      | some v =>
          cases v with
          | classObj c =>
              cases distance with
              | zero => exact .fault (.raised _ ht)
              | succ inner =>
                  dsimp only
                  cases s.heap.getAt? s.current inner thisToken.lexeme with
                  | none => exact .fault (.undefined l.this)
                  | some this =>
                      cases this with
                      | instanceObj i =>
                          dsimp only
                          rcases none_or_some_of_rel (hs.heap.method? c u.lexeme) with
                            ⟨h, h'⟩ | ⟨f, f', h, h', hf⟩
                          · rw [h, h']
                            exact .fault (.raised _ hu)
                          · rw [h, h']
                            exact .method i hf
                      | _ => exact .fault (.raised _ ht)
          | _ => exact .fault (.raised _ ht)

theorem declareClass (name : String) (superclass : Option ClassId) {ds ds' : List FunctionDecl}
    (hds : FunctionDecl.AlikeEach l ds ds') :
    (s.declareClass name superclass ds).Alike l (s'.declareClass name superclass ds') := by
  have hname := hs.heap.define s.current name .nil
  refine hs.withHeap ?_
  rw [hs.current]
  cases superclass with
  | none => exact hname.makeClass s.current s.current name none hds
  | some c =>
      obtain ⟨hheap, hframe⟩ := hname.newFrame (some s.current)
      let frame := ((s.heap.define s.current name .nil).newFrame (some s.current)).2
      have hsuper := hheap.define frame "super" (.classObj c)
      have hmade := hsuper.makeClass s.current frame name (some c) hds
      dsimp only
      rw [hframe]
      exact hmade

omit hs in
theorem foldl_zip {g : Session → Token × Value → Session}
    (hg : ∀ {s s' : Session}, s.Alike l s' → ∀ {t t' : Token}, l.token t t' → ∀ v : Value,
      (g s (t, v)).Alike l (g s' (t', v)))
    {ts ts' : List Token} (hts : Token.AlikeEach l ts ts') (arguments : List Value)
    {s s' : Session} (hs : s.Alike l s') :
    ((ts.zip arguments).foldl g s).Alike l ((ts'.zip arguments).foldl g s') := by
  induction hts generalizing arguments s s' with
  | nil => exact hs
  | cons ht _ ih =>
      cases arguments with
      | nil => exact hs
      | cons v arguments => exact ih arguments (hg hs ht v)

theorem print (v : Value) :
    (s.print v).1.Alike l (s'.print v).1 ∧ (s'.print v).2 = (s.print v).2 := by
  unfold Session.print
  rw [hs.heap.display, hs.sink]
  exact ⟨{ hs with sink := rfl }, rfl⟩

theorem readClock : s.readClock.1.Alike l s'.readClock.1 ∧ s'.readClock.2 = s.readClock.2 := by
  unfold Session.readClock
  rw [hs.clock]
  exact ⟨{ hs with clock := rfl }, rfl⟩

end Session.Alike

end ScriptLang
