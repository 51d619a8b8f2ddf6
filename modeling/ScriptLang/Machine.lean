import ScriptLang.Operator
import ScriptLang.Session

/-! The machine that runs scripts, one small step after another. A machine has a task at hand, a
stack of work that waits for the task to be over, and a session. -/

namespace ScriptLang

/-- What a machine does next. -/
inductive Task where
  /-- Find the value of an expression. -/
  | eval (e : Expr)
  /-- Carry out a statement. -/
  | exec (s : Stmt)
  /-- Call a value. -/
  | call (callee : Value) (arguments : List Value) (paren : Token)
  /-- An expression has this value. -/
  | value (v : Value)
  /-- A statement is over. -/
  | done
  /-- A statement is over and ends the function around it. -/
  | returning (v : Value)
  /-- Something failed. -/
  | failing (f : Fault)

/-- Work that waits for a value or for the end of a statement. -/
inductive Pending where
  | unary (operator : Token)
  | binaryLeft (operator : Token) (right : Expr)
  | binaryRight (left : Value) (operator : Token)
  | logical (operator : Token) (right : Expr)
  | assign (id : ExprId) (name : Token)
  | callee (paren : Token) (arguments : List Expr)
  /-- Arguments that are known stand last first. -/
  | argument (callee : Value) (paren : Token) (front : List Value) (rest : List Expr)
  | get (name : Token)
  | setObject (name : Token) (value : Expr)
  | setValue (object : InstanceId) (name : Token)
  | expression
  | print
  | var (name : Token)
  | branch (thenBranch : Stmt) (elseBranch : Option Stmt)
  | loopTest (condition : Expr) (body : Stmt)
  | loopBody (condition : Expr) (body : Stmt)
  | ret
  | superclass (name : Token) (superclass : Expr) (methods : List FunctionDecl)
  /-- The rest of a block, and the frame to go back to. -/
  | block (rest : List Stmt) (outer : FrameId)
  /-- The body of a function is at work. -/
  | body (f : Function)
  /-- The initializer of an instance is at work. -/
  | initializer (i : InstanceId)
  /-- The rest of a program. -/
  | program (rest : List Stmt)

/-- A machine between two steps. -/
structure Machine where
  task : Task
  stack : List Pending
  session : Session

namespace Machine

/-! ### Starting a task -/

/-- The property found, or the failure to find it. A method is bound now. -/
def found (stack : List Pending) (s : Session) : Except Fault Session.Property → Machine
  | .ok (.value v) => ⟨.value v, stack, s⟩
  | .ok (.method f i) =>
    let (s, v) := s.bindMethod f i
    ⟨.value v, stack, s⟩
  | .error f => ⟨.failing f, stack, s⟩

/-- The value that an operator gives, or its failure. -/
def applied (operator : Token) (stack : List Pending) (s : Session) :
    Except FaultCause Value → Machine
  | .ok v => ⟨.value v, stack, s⟩
  | .error cause => ⟨.failing (.raised operator cause), stack, s⟩

def literal : Literal → Value
  | .nil => .nil
  | .bool b => .bool b
  | .number x => .number x
  | .string s => .string s

/-- The value of a name. -/
def readName (id : ExprId) (name : Token) (stack : List Pending) (s : Session) : Machine :=
  match s.read? id name.lexeme with
  | some v => ⟨.value v, stack, s⟩
  | none => ⟨.failing (Session.undefined name), stack, s⟩

/-- Begins to evaluate an expression. -/
def evaluate (e : Expr) (stack : List Pending) (s : Session) : Machine :=
  match e with
  | .literal l => ⟨.value (literal l), stack, s⟩
  | .grouping inner => ⟨.eval inner, stack, s⟩
  | .unary operator right => ⟨.eval right, .unary operator :: stack, s⟩
  | .binary left operator right => ⟨.eval left, .binaryLeft operator right :: stack, s⟩
  | .logical left operator right => ⟨.eval left, .logical operator right :: stack, s⟩
  | .variable id name => readName id name stack s
  | .assign id name value => ⟨.eval value, .assign id name :: stack, s⟩
  | .call callee paren arguments => ⟨.eval callee, .callee paren arguments :: stack, s⟩
  | .get object name => ⟨.eval object, .get name :: stack, s⟩
  | .set object name value => ⟨.eval object, .setObject name value :: stack, s⟩
  | .this id keyword => readName id keyword stack s
  | .super id keyword method => found stack s (s.superMethod id keyword method)

/-- Makes statements wait in a new frame inside `outer`. -/
def enterBlock (body : List Stmt) (outer : FrameId) (stack : List Pending) (s : Session) :
    Machine :=
  ⟨.done, .block body s.current :: stack, s.enterFrame outer⟩

/-- Begins to carry out a statement. -/
def execute (st : Stmt) (stack : List Pending) (s : Session) : Machine :=
  match st with
  | .expression e => ⟨.eval e, .expression :: stack, s⟩
  | .print e => ⟨.eval e, .print :: stack, s⟩
  | .var name none => ⟨.done, stack, s.define name.lexeme .nil⟩
  | .var name (some e) => ⟨.eval e, .var name :: stack, s⟩
  | .block body => enterBlock body s.current stack s
  | .ifThen condition thenBranch => ⟨.eval condition, .branch thenBranch none :: stack, s⟩
  | .ifElse condition thenBranch elseBranch =>
    ⟨.eval condition, .branch thenBranch (some elseBranch) :: stack, s⟩
  | .loop condition body => ⟨.eval condition, .loopTest condition body :: stack, s⟩
  | .function decl =>
    let (s, v) := s.newFunction ⟨decl, s.current, false⟩
    ⟨.done, stack, s.define decl.name.lexeme v⟩
  | .ret _ none => ⟨.returning .nil, stack, s⟩
  | .ret _ (some e) => ⟨.eval e, .ret :: stack, s⟩
  | .classDecl name none methods => ⟨.done, stack, s.declareClass name.lexeme none methods⟩
  | .classDecl name (some superclass) methods =>
    ⟨.eval superclass, .superclass name superclass methods :: stack, s⟩

/-! ### Calls -/

/-- Begins to call a function whose arguments are as many as its parameters. -/
def enter (f : Function) (arguments : List Value) (paren : Token) (stack : List Pending)
    (s : Session) : Machine :=
  if Session.maxDepth ≤ s.depth then ⟨.failing (.raised paren .stackOverflow), stack, s⟩
  else
    let m := enterBlock f.decl.body f.closure (.body f :: stack) s
    let s := (f.decl.params.zip arguments).foldl
      (fun s (param, v) => s.define param.lexeme v) m.session
    { m with session := { s with depth := s.depth + 1 } }

/-- A call with too few or too many arguments. -/
def wrongArity (expected : Nat) (arguments : List Value) (paren : Token) (stack : List Pending)
    (s : Session) : Machine :=
  ⟨.failing (.raised paren (.wrongArity expected arguments.length)), stack, s⟩

/-- Makes an instance and begins to call its initializer, if its class has one. -/
def construct (c : ClassId) (arguments : List Value) (paren : Token) (stack : List Pending)
    (s : Session) : Machine :=
  let (heap, i) := s.heap.newInstance c
  match heap.method? c initName with
  | none => ⟨.value (.instanceObj i), stack, { s with heap }⟩
  | some f =>
    let (heap, bound) := heap.bindMethod f i
    enter bound arguments paren (.initializer i :: stack) { s with heap }

/-- Begins to call a value. -/
def invoke (callee : Value) (arguments : List Value) (paren : Token) (stack : List Pending)
    (s : Session) : Machine :=
  match callee with
  | .native f =>
    if arguments.length = f.arity then
      let (s, v) := s.readClock
      ⟨.value v, stack, s⟩
    else wrongArity f.arity arguments paren stack s
  | .function id =>
    match s.heap.functions[id]? with
    | some f =>
      if arguments.length = f.decl.arity then enter f arguments paren stack s
      else wrongArity f.decl.arity arguments paren stack s
    | none => ⟨.failing (.raised paren .notCallable), stack, s⟩
  | .classObj c =>
    let arity := s.heap.classArity c
    if arguments.length = arity then construct c arguments paren stack s
    else wrongArity arity arguments paren stack s
  | _ => ⟨.failing (.raised paren .notCallable), stack, s⟩

/-- Ends a call. An initializer gives its instance whatever it returns. -/
def leave (f : Function) (v : Value) (stack : List Pending) (s : Session) : Machine :=
  let s := { s with depth := s.depth - 1 }
  if f.isInitializer then
    match s.heap.getAt? f.closure 0 Session.thisToken.lexeme with
    | some this => ⟨.value this, stack, s⟩
    | none => ⟨.failing (Session.undefined Session.thisToken), stack, s⟩
  else ⟨.value v, stack, s⟩

/-! ### Going on after a task -/

/-- The token at which a class that extends no class fails. -/
def superclassToken (name : Token) : Expr → Token
  | .variable _ superName => superName
  | _ => name

/-- Goes on with the work that waits for a value. Work that waits for the end of a statement never
meets one, and stays. -/
def receive (v : Value) (p : Pending) (stack : List Pending) (s : Session) : Machine :=
  match p with
  | .unary operator => applied operator stack s (v.applyUnary operator.kind)
  | .binaryLeft operator right => ⟨.eval right, .binaryRight v operator :: stack, s⟩
  | .binaryRight left operator => applied operator stack s (left.applyBinary operator.kind v)
  | .logical operator right =>
    let decided := if operator.kind = .kwOr then v.truthy else !v.truthy
    if decided then ⟨.value v, stack, s⟩ else ⟨.eval right, stack, s⟩
  | .assign id name =>
    match s.binder? id name.lexeme with
    | some f => ⟨.value v, stack, { s with heap := s.heap.define f name.lexeme v }⟩
    | none => ⟨.failing (Session.undefined name), stack, s⟩
  | .callee paren [] => ⟨.call v [] paren, stack, s⟩
  | .callee paren (e :: rest) => ⟨.eval e, .argument v paren [] rest :: stack, s⟩
  | .argument callee paren front [] => ⟨.call callee (v :: front).reverse paren, stack, s⟩
  | .argument callee paren front (e :: rest) =>
    ⟨.eval e, .argument callee paren (v :: front) rest :: stack, s⟩
  | .get name => found stack s (s.property v name)
  | .setObject name value =>
    match v with
    | .instanceObj i => ⟨.eval value, .setValue i name :: stack, s⟩
    | _ => ⟨.failing (.raised name .noFields), stack, s⟩
  | .setValue i name => ⟨.value v, stack, { s with heap := s.heap.setField i name.lexeme v }⟩
  | .expression => ⟨.done, stack, s⟩
  | .print =>
    match s.print v with
    | (s, .ok _) => ⟨.done, stack, s⟩
    | (s, .error e) => ⟨.failing (.sink e), stack, s⟩
  | .var name => ⟨.done, stack, s.define name.lexeme v⟩
  | .branch thenBranch elseBranch =>
    if v.truthy then ⟨.exec thenBranch, stack, s⟩
    else match elseBranch with
      | some st => ⟨.exec st, stack, s⟩
      | none => ⟨.done, stack, s⟩
  | .loopTest condition body =>
    if v.truthy then ⟨.exec body, .loopBody condition body :: stack, s⟩ else ⟨.done, stack, s⟩
  | .ret => ⟨.returning v, stack, s⟩
  | .superclass name superclass methods =>
    match v with
    | .classObj c => ⟨.done, stack, s.declareClass name.lexeme (some c) methods⟩
    | _ => ⟨.failing (.raised (superclassToken name superclass) .superclassNotClass), stack, s⟩
  | .initializer i => ⟨.value (.instanceObj i), stack, s⟩
  | p => ⟨.value v, p :: stack, s⟩

/-- Goes on with the work that waits for the end of a statement. Work that waits for a value never
meets one, and stays. -/
def proceed (p : Pending) (stack : List Pending) (s : Session) : Machine :=
  match p with
  | .loopBody condition body => ⟨.eval condition, .loopTest condition body :: stack, s⟩
  | .block (st :: rest) outer => ⟨.exec st, .block rest outer :: stack, s⟩
  | .block [] outer => ⟨.done, stack, { s with current := outer }⟩
  | .body f => leave f .nil stack s
  | .program (st :: rest) => ⟨.exec st, .program rest :: stack, s⟩
  | .program [] => ⟨.done, stack, s⟩
  | p => ⟨.done, p :: stack, s⟩

/-- Drops the work up to the end of the function that returns. At the top level a return ends
only the statement it stands in. -/
def unwind (v : Value) (p : Pending) (stack : List Pending) (s : Session) : Machine :=
  match p with
  | .loopBody _ _ => ⟨.returning v, stack, s⟩
  | .block _ outer => ⟨.returning v, stack, { s with current := outer }⟩
  | .body f => leave f v stack s
  | .program rest => ⟨.done, .program rest :: stack, s⟩
  | p => ⟨.returning v, p :: stack, s⟩

/-- Drops work after a failure. -/
def abandon (f : Fault) (p : Pending) (stack : List Pending) (s : Session) : Machine :=
  match p with
  | .block _ outer => ⟨.failing f, stack, { s with current := outer }⟩
  | .body _ => ⟨.failing f, stack, { s with depth := s.depth - 1 }⟩
  | _ => ⟨.failing f, stack, s⟩

/-! ### Steps -/

/-- One step. A machine that has nothing left to do stays as it is. -/
def step : Machine → Machine
  | ⟨.eval e, stack, s⟩ => evaluate e stack s
  | ⟨.exec st, stack, s⟩ => execute st stack s
  | ⟨.call callee arguments paren, stack, s⟩ => invoke callee arguments paren stack s
  | ⟨.value v, p :: stack, s⟩ => receive v p stack s
  | ⟨.done, p :: stack, s⟩ => proceed p stack s
  | ⟨.returning v, p :: stack, s⟩ => unwind v p stack s
  | ⟨.failing f, p :: stack, s⟩ => abandon f p stack s
  | m => m

/-- Whether nothing is left to do. -/
def halted : Machine → Bool
  | ⟨.value _, [], _⟩ => true
  | ⟨.done, [], _⟩ => true
  | ⟨.returning _, [], _⟩ => true
  | ⟨.failing _, [], _⟩ => true
  | _ => false

/-- At most `n` steps, up to the one after which nothing is left to do. -/
def run : Nat → Machine → Machine
  | 0, m => m
  | n + 1, m => if m.halted then m else run n m.step

/-! ### Runs -/

theorem step_of_halted {m : Machine} (h : m.halted = true) : m.step = m := by
  obtain ⟨task, stack, s⟩ := m
  cases stack with
  | cons p stack => cases task <;> simp [halted] at h
  | nil =>
      cases task with
      | eval | exec | call => simp [halted] at h
      | value | done | returning | failing => rfl

theorem run_of_halted {m : Machine} (h : m.halted = true) (n : Nat) : run n m = m := by
  cases n <;> simp [run, h]

theorem run_succ (n : Nat) (m : Machine) : run (n + 1) m = run n m.step := by
  by_cases h : m.halted = true
  · rw [run_of_halted h, step_of_halted h, run_of_halted h]
  · simp [run, h]

theorem run_add (j k : Nat) (m : Machine) : run (j + k) m = run k (run j m) := by
  induction j generalizing m with
  | zero => rw [Nat.zero_add, run]
  | succ j ih => rw [Nat.succ_add_eq_add_succ, Nat.add_succ, run_succ, run_succ, ih]

/-- What every step keeps between two machines is kept by runs of the same length. -/
theorem run_induct₂ (R : Machine → Machine → Prop) (hstep : ∀ m m', R m m' → R m.step m'.step)
    {m m' : Machine} (h : R m m') (n : Nat) : R (run n m) (run n m') := by
  induction n generalizing m m' with
  | zero => exact h
  | succ n ih =>
      rw [run_succ, run_succ]
      exact ih (hstep m m' h)

/-- What every step keeps is kept by runs. -/
theorem run_induct (P : Machine → Prop) (hstep : ∀ m, P m → P m.step) {m : Machine} (h : P m)
    (n : Nat) : P (run n m) :=
  @run_induct₂ (fun m _ => P m) (fun m _ => hstep m) m m h n

end Machine

end ScriptLang
