import ScriptLang.Fault
import ScriptLang.Heap
import ScriptLang.Scope
import Std.Data.TreeMap

/-! A session: what runs of scripts leave behind for later ones. -/

namespace ScriptLang

/-- The time as scripts see it. The `n`-th question is answered by `reading n`. -/
structure Clock where
  reading : Nat → Float
  asked : Nat

/-- How many frames out each local reference finds its name. -/
abbrev HopTable := Std.TreeMap ExprId Nat

/-- The state of a session. Between runs the current frame is the global one and no call is
active. -/
structure Session where
  heap : Heap
  globals : FrameId
  current : FrameId
  depth : Nat
  hops : HopTable
  nextId : ExprId
  sink : Sink
  clock : Clock

namespace Session

/-- The most calls that may be active at once. -/
def maxDepth : Nat := 2048

def clockFunction : Native := ⟨"clock", 0⟩

/-- A session in which only the clock is defined. -/
def new (sink : Sink) (reading : Nat → Float) : Session :=
  let (heap, globals) := Heap.empty.newFrame none
  { heap := heap.define globals clockFunction.name (.native clockFunction)
    globals, current := globals, depth := 0, hops := {}, nextId := 0, sink
    clock := ⟨reading, 0⟩ }

/-! ### Names -/

def recordHop (s : Session) (id : ExprId) (depth : Nat) : Session :=
  { s with hops := s.hops.insert id depth }

def hop? (s : Session) (id : ExprId) : Option Nat := s.hops[id]?

/-- Checks the scoping rules and records the hop counts of a program that keeps them. -/
def resolve (s : Session) (program : List Stmt) : Except (List ScopeError) Session :=
  match Stmt.hopCounts program with
  | .ok hops => .ok (hops.foldl (fun s (id, depth) => s.recordHop id depth) s)
  | .error errors => .error errors

def define (s : Session) (name : String) (v : Value) : Session :=
  { s with heap := s.heap.define s.current name v }

/-- What a reference stands for: in the frame its hop count gives, or else globally. -/
def read? (s : Session) (id : ExprId) (name : String) : Option Value :=
  match s.hop? id with
  | some distance => s.heap.getAt? s.current distance name
  | none => s.heap.get? s.globals name

/-- The frame in which a reference finds its name. -/
def binder? (s : Session) (id : ExprId) (name : String) : Option FrameId :=
  match s.hop? id with
  | some distance => s.heap.binderAt? s.current distance name
  | none => s.heap.binder? s.globals name

/-! ### Frames -/

/-- Makes a new frame inside `outer` the current one. -/
def enterFrame (s : Session) (outer : FrameId) : Session :=
  let (heap, frame) := s.heap.newFrame (some outer)
  { s with heap, current := frame }

def undefined (name : Token) : Fault := .raised name (.undefinedVariable name.lexeme)

/-- What `this` is called where no token says so. -/
def thisToken : Token := ⟨.kwThis, "this", 0⟩

/-! ### Functions, classes and properties -/

/-- A new function value. -/
def newFunction (s : Session) (f : Function) : Session × Value :=
  let (heap, id) := s.heap.newFunction f
  ({ s with heap }, .function id)

/-- A method as a function value bound to an instance. -/
def bindMethod (s : Session) (f : Function) (i : InstanceId) : Session × Value :=
  let (heap, bound) := s.heap.bindMethod f i
  newFunction { s with heap } bound

/-- What a property is: a value, or a method still to be bound. -/
inductive Property where
  | value (v : Value)
  | method (f : Function) (i : InstanceId)

/-- The property of a value: a field, or else a method of the instance's class. -/
def property (s : Session) (object : Value) (name : Token) : Except Fault Property :=
  match object with
  | .instanceObj i =>
    match s.heap.field? i name.lexeme with
    | some v => .ok (.value v)
    | none =>
      match s.heap.instances[i]?.bind (s.heap.method? ·.cls name.lexeme) with
      | some f => .ok (.method f i)
      | none => .error (.raised name (.undefinedProperty name.lexeme))
  | _ => .error (.raised name .noProperties)

/-- A method of the superclass, for `this`, which stands one frame inside the frame that holds
the superclass. -/
def superMethod (s : Session) (id : ExprId) (keyword method : Token) : Except Fault Property :=
  match s.hop? id with
  | none => .error (.raised keyword (.undefinedVariable "super"))
  | some distance =>
    match s.heap.getAt? s.current distance keyword.lexeme with
    | none => .error (undefined keyword)
    | some (.classObj c) =>
      match distance with
      | 0 => .error (.raised keyword (.undefinedVariable "this"))
      | inner + 1 =>
        match s.heap.getAt? s.current inner thisToken.lexeme with
        | none => .error (undefined thisToken)
        | some (.instanceObj i) =>
          match s.heap.method? c method.lexeme with
          | some f => .ok (.method f i)
          | none => .error (.raised method (.undefinedProperty method.lexeme))
        | some _ => .error (.raised keyword (.undefinedVariable "this"))
    | some _ => .error (.raised keyword .superclassNotClass)

/-- Declares a class in the current frame. The methods of a derived class are declared in a frame
of their own, which holds the superclass. -/
def declareClass (s : Session) (name : String) (superclass : Option ClassId)
    (methods : List FunctionDecl) : Session :=
  let heap := s.heap.define s.current name .nil
  let (heap, closure) := match superclass with
    | none => (heap, s.current)
    | some c =>
      let (heap, frame) := heap.newFrame (some s.current)
      (heap.define frame "super" (.classObj c), frame)
  let (heap, methods) := heap.newMethods closure methods .empty
  let (heap, id) := heap.newClass ⟨name, superclass, methods⟩
  { s with heap := heap.define s.current name (.classObj id) }

/-! ### Output -/

/-- Prints a value on a line of its own. -/
def print (s : Session) (v : Value) : Session × Except SinkError Unit :=
  let (sink, result) := s.sink.write (s.heap.display v ++ "\n").toUTF8
  ({ s with sink }, result)

/-- The next answer of the clock. -/
def readClock (s : Session) : Session × Value :=
  ({ s with clock := { s.clock with asked := s.clock.asked + 1 } },
    .number (s.clock.reading s.clock.asked))

end Session

end ScriptLang
