import ScriptLang.Machine
import ScriptLang.Scan
import ScriptLang.Stmt.Parser

/-! Running scripts in a session. A run is given a number of steps, and a run that needs more is
unfinished. -/

namespace ScriptLang

/-- How an evaluation ends. -/
inductive Ending (α : Type) where
  | value (a : α)
  | failed (f : Fault)
  | unfinished

/-- An error of a script, found before or while it runs. -/
inductive Diagnostic where
  | lexical (e : LexicalError)
  | parse (e : SyntaxError)
  | scope (e : ScopeError)
  | fault (f : Fault)
deriving DecidableEq

def Diagnostic.message : Diagnostic → String
  | .lexical e => e.message
  | .parse e => e.message
  | .scope e => e.message
  | .fault f => f.message

/-- How a run ends. -/
inductive Outcome where
  | ok
  | rejected (errors : List Diagnostic)
  | failed (f : Fault)
  | unfinished
deriving DecidableEq

namespace Outcome

/-- How a run ends whose script was carried out. -/
def ofEnding : Ending Unit → Outcome
  | .value _ => .ok
  | .failed f => .failed f
  | .unfinished => .unfinished

/-- The errors of a run, in the order in which they are reported. -/
def errors : Outcome → List Diagnostic
  | .rejected errors => errors
  | .failed f => [.fault f]
  | _ => []

/-- The exit status of a run. -/
def exitCode : Outcome → Nat
  | .ok => 0
  | .rejected _ => 65
  | .failed _ => 70
  | .unfinished => 70

end Outcome

/-! ### Machines at their start and end -/

namespace Machine

/-- A machine about to carry out a program. -/
def ofProgram (program : Program) (s : Session) : Machine := ⟨.done, [.program program], s⟩

/-- How a machine ended that was started on an expression. -/
def valueEnding (m : Machine) : Ending Value :=
  match m.task, m.stack with
  | .value v, [] => .value v
  | .failing f, [] => .failed f
  | _, _ => .unfinished

/-- How a machine ended that was started on a program, once the sink is flushed. A sink that fails
to flush hides any other failure. -/
def programEnding (m : Machine) : Ending Unit :=
  match m.task, m.stack, m.session.sink.flush with
  | .done, [], .ok _ => .value ()
  | .failing f, [], .ok _ => .failed f
  | .done, [], .error e => .failed (.sink e)
  | .failing _, [], .error e => .failed (.sink e)
  | _, _, _ => .unfinished

end Machine

/-! ### Scripts -/

namespace Session

/-- The value of an expression. -/
def evaluate (steps : Nat) (e : Expr) (s : Session) : Ending Value × Session :=
  let m := Machine.run steps ⟨.eval e, [], s⟩
  (m.valueEnding, m.session)

/-- Carries out a program up to its first failure. -/
def interpret (steps : Nat) (program : Program) (s : Session) : Ending Unit × Session :=
  let m := Machine.run steps (.ofProgram program s)
  (m.programEnding, m.session)

/-- Reads a script, with ids from the session's next free one on. -/
def load (source : Source) (s : Session) : Except (List Diagnostic) Program × Session :=
  let parsed := Parsed.ofTokens source.tokens s.nextId
  let s := { s with nextId := parsed.nextId }
  let lexical := source.lexicalErrors.map Diagnostic.lexical
  match parsed.program with
  | .ok program => if lexical.isEmpty then (.ok program, s) else (.error lexical, s)
  | .error errors => (.error (lexical ++ errors.map .parse), s)

/-- Reads a script and checks its scoping rules. -/
def prepare (source : Source) (s : Session) : Except (List Diagnostic) Program × Session :=
  match s.load source with
  | (.error errors, s) => (.error errors, s)
  | (.ok program, s) =>
    match s.resolve program with
    | .error errors => (.error (errors.map .scope), s)
    | .ok s => (.ok program, s)

/-- Carries out a program that was read, or rejects a script that could not be. -/
def carryOut (steps : Nat) : Except (List Diagnostic) Program × Session → Outcome × Session
  | (.error errors, s) => (.rejected errors, s)
  | (.ok program, s) =>
    let (ending, s) := s.interpret steps program
    (.ofEnding ending, s)

/-- Runs a script. One with lexical, syntax or scoping errors is rejected and does not start. -/
def run (steps : Nat) (source : Source) (s : Session) : Outcome × Session :=
  carryOut steps (s.prepare source)

/-- Runs a script without checking its scoping rules: no hop counts are recorded for it. -/
def runUnchecked (steps : Nat) (source : Source) (s : Session) : Outcome × Session :=
  carryOut steps (s.load source)

/-- What asking for the value of a script gives. -/
inductive Answer where
  | rejected (errors : List Diagnostic)
  | notExpression
  | ending (e : Ending Value)

/-- The value of a script whose last statement is an expression. The statements before it are read
but not carried out. -/
def query (steps : Nat) (checked : Bool) (source : Source) (s : Session) : Answer × Session :=
  match if checked then s.prepare source else s.load source with
  | (.error errors, s) => (.rejected errors, s)
  | (.ok program, s) =>
    match program.getLast? with
    | some (.expression e) =>
      let (ending, s) := s.evaluate steps e
      (.ending ending, s)
    | _ => (.notExpression, s)

end Session

end ScriptLang
