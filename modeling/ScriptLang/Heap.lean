import ScriptLang.Bindings
import ScriptLang.Stmt
import ScriptLang.Value

/-! The heap: everything that scripts share and change. It only grows, and what is made later
refers to what was made earlier: a frame encloses in an older one, a class extends an older one. -/

namespace ScriptLang

/-- The names of one scope at run time, and the frame around it. -/
structure Frame where
  bindings : Bindings Value
  enclosing : Option FrameId

/-- A function or method with the frame it was declared in. -/
structure Function where
  decl : FunctionDecl
  closure : FrameId
  isInitializer : Bool

structure Class where
  name : String
  superclass : Option ClassId
  methods : Bindings FunctionId

structure Instance where
  cls : ClassId
  fields : Bindings Value

structure Heap where
  frames : Array Frame
  functions : Array Function
  classes : Array Class
  instances : Array Instance

namespace Heap

def empty : Heap := ⟨#[], #[], #[], #[]⟩

/-! ### Making objects -/

/-- A new frame without names. -/
def newFrame (h : Heap) (enclosing : Option FrameId) : Heap × FrameId :=
  let id := h.frames.size
  ({ h with frames := h.frames.push ⟨.empty, enclosing⟩ }, id)

def newFunction (h : Heap) (f : Function) : Heap × FunctionId :=
  let id := h.functions.size
  ({ h with functions := h.functions.push f }, id)

def newClass (h : Heap) (c : Class) : Heap × ClassId :=
  let id := h.classes.size
  ({ h with classes := h.classes.push c }, id)

/-- A new instance without fields. -/
def newInstance (h : Heap) (cls : ClassId) : Heap × InstanceId :=
  let id := h.instances.size
  ({ h with instances := h.instances.push ⟨cls, .empty⟩ }, id)

/-! ### Frames -/

/-- Binds a name in a frame. -/
def define (h : Heap) (f : FrameId) (name : String) (v : Value) : Heap :=
  { h with frames := h.frames.modify f fun frame =>
      { frame with bindings := frame.bindings.insert name v } }

/-- What a name stands for in exactly this frame. -/
def local? (h : Heap) (f : FrameId) (name : String) : Option Value :=
  h.frames[f]?.bind (·.bindings.get? name)

def enclosing? (h : Heap) (f : FrameId) : Option FrameId :=
  h.frames[f]?.bind (·.enclosing)

/-- The frame this many links out. -/
def ancestor? (h : Heap) (f : FrameId) : Nat → Option FrameId
  | 0 => some f
  | d + 1 => match h.enclosing? f with
    | some outer => h.ancestor? outer d
    | none => none

/-- What a name stands for in the frame this many links out. -/
def getAt? (h : Heap) (f : FrameId) (distance : Nat) (name : String) : Option Value :=
  (h.ancestor? f distance).bind (h.local? · name)

/-- The frame this many links out, if it binds a name. -/
def binderAt? (h : Heap) (f : FrameId) (distance : Nat) (name : String) : Option FrameId :=
  match h.ancestor? f distance with
  | some target => if (h.local? target name).isSome then some target else none
  | none => none

/-- Binds a name anew in the frame this many links out, which must bind it already. -/
def assignAt? (h : Heap) (f : FrameId) (distance : Nat) (name : String) (v : Value) :
    Option Heap :=
  (h.binderAt? f distance name).map (h.define · name v)

/-- The nearest of the first `n` frames on a chain that binds a name. -/
def binderWithin (h : Heap) (name : String) : Nat → FrameId → Option FrameId
  | 0, _ => none
  | n + 1, f =>
    if (h.local? f name).isSome then some f
    else match h.enclosing? f with
      | some outer => h.binderWithin name n outer
      | none => none

/-- The nearest frame on a chain that binds a name; no chain is longer than the heap. -/
def binder? (h : Heap) (f : FrameId) (name : String) : Option FrameId :=
  h.binderWithin name h.frames.size f

/-- What a name stands for on a chain. -/
def get? (h : Heap) (f : FrameId) (name : String) : Option Value :=
  (h.binder? f name).bind (h.local? · name)

/-- Binds a name anew in the nearest frame on a chain that binds it. -/
def assign? (h : Heap) (f : FrameId) (name : String) (v : Value) : Option Heap :=
  (h.binder? f name).map (h.define · name v)

@[simp]
theorem enclosing?_define (h : Heap) (f g : FrameId) (name : String) (v : Value) :
    (h.define f name v).enclosing? g = h.enclosing? g := by
  simp only [enclosing?, define, Array.getElem?_modify]
  split
  · cases h.frames[g]? <;> rfl
  · rfl

theorem local?_define (h : Heap) {f : FrameId} (hf : f < h.frames.size) (g : FrameId)
    (name other : String) (v : Value) :
    (h.define f name v).local? g other =
      if g = f ∧ other = name then some v else h.local? g other := by
  by_cases hg : g = f
  · subst hg
    by_cases hn : other = name
    · simp [local?, define, Array.getElem_modify_self, hf, hn]
    · simp [local?, define, Array.getElem_modify_self, hf, hn, Bindings.get?_insert, Ne.symm hn]
  · simp [local?, define, Array.getElem?_modify, hg, Ne.symm hg]

/-- Binding a name leaves every chain as it is. -/
theorem ancestor?_define (h : Heap) (f g : FrameId) (name : String) (v : Value) (d : Nat) :
    (h.define f name v).ancestor? g d = h.ancestor? g d := by
  induction d generalizing g with
  | zero => rfl
  | succ d ih =>
    simp only [ancestor?, enclosing?_define]
    cases h.enclosing? g with
    | none => rfl
    | some outer => exact ih outer

/-! ### Classes and instances -/

/-- The method of the first of the next `n` classes on a chain that has it. -/
def methodWithin (h : Heap) (name : String) : Nat → ClassId → Option FunctionId
  | 0, _ => none
  | n + 1, c =>
    match h.classes[c]? with
    | none => none
    | some cls =>
      match cls.methods.get? name with
      | some f => some f
      | none => match cls.superclass with
        | some parent => h.methodWithin name n parent
        | none => none

/-- The method that a class has or inherits; no chain is longer than the heap. -/
def findMethod? (h : Heap) (c : ClassId) (name : String) : Option FunctionId :=
  h.methodWithin name h.classes.size c

/-- The method itself. -/
def method? (h : Heap) (c : ClassId) (name : String) : Option Function :=
  (h.findMethod? c name).bind (h.functions[·]?)

/-- A class takes the arguments of its initializer. -/
def classArity (h : Heap) (c : ClassId) : Nat :=
  match h.method? c initName with
  | some f => f.decl.arity
  | none => 0

/-- The methods that a class declares in the frame `closure`, each a new function; `methods` are
those before. Of methods with one name the last counts. -/
def newMethods (h : Heap) (closure : FrameId) :
    List FunctionDecl → Bindings FunctionId → Heap × Bindings FunctionId
  | [], methods => (h, methods)
  | decl :: decls, methods =>
    let (h, id) := h.newFunction ⟨decl, closure, decl.isInit⟩
    h.newMethods closure decls (methods.insert decl.name.lexeme id)

/-- A method bound to an instance: its closure is a new frame in which `this` is the instance. -/
def bindMethod (h : Heap) (f : Function) (i : InstanceId) : Heap × Function :=
  let (h, frame) := h.newFrame (some f.closure)
  (h.define frame "this" (.instanceObj i), { f with closure := frame })

def field? (h : Heap) (i : InstanceId) (name : String) : Option Value :=
  h.instances[i]?.bind (·.fields.get? name)

def setField (h : Heap) (i : InstanceId) (name : String) (v : Value) : Heap :=
  { h with instances := h.instances.modify i fun inst =>
      { inst with fields := inst.fields.insert name v } }

/-! ### Text -/

def className (h : Heap) (c : ClassId) : String :=
  (h.classes[c]?.map (·.name)).getD ""

/-- What printing a value shows. -/
def display (h : Heap) : Value → String
  | .nil => "nil"
  | .bool b => if b then "true" else "false"
  | .number x => Value.numberText x
  | .string s => s
  | .native _ => "<native fn>"
  | .function f => "<fn " ++ (h.functions[f]?.map (·.decl.name.lexeme)).getD "" ++ ">"
  | .classObj c => h.className c
  | .instanceObj i => (h.instances[i]?.map (h.className ·.cls)).getD "" ++ " instance"

end Heap

end ScriptLang
