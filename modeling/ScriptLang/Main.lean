import ScriptLang.CommandLine.Report
import Std.Time.DateTime.Timestamp

/-! The program: it reads files and lines, prints, and leaves the rest to the library. -/

namespace ScriptLang.Main

/-- Seconds since the epoch. -/
def now : IO Float := do
  let t ← Std.Time.Timestamp.now
  let micros := t.toNanosecondsSinceUnixEpoch.val / 1000
  return Float.ofInt micros / 1000000.0

/-- Takes steps until nothing is left to do, and prints while it does. -/
partial def drive (m : Machine) : IO Machine := do
  let time ← now
  let clock : Clock := { m.session.clock with reading := fun _ => time }
  let m := Machine.run 10000 { m with session := { m.session with clock } }
  let stdout ← IO.getStdout
  stdout.write m.session.sink.written
  stdout.flush
  let m := { m with session := { m.session with sink := .unlimited } }
  if m.halted then return m else drive m

/-- Runs a script and reports its errors. -/
def runScript (source : Source) (s : Session) : IO (Outcome × Session) := do
  let (outcome, s) ← match s.prepare source with
    | (.error errors, s) => pure (Outcome.rejected errors, s)
    | (.ok program, s) =>
      let m ← drive (.ofProgram program s)
      pure (Outcome.ofEnding m.programEnding, m.session)
  (← IO.getStderr).putStr (Report.errorText outcome.errors)
  return (outcome, s)

/-- The interactive prompt. -/
partial def promptLoop (s : Session) : IO UInt32 := do
  let stdin ← IO.getStdin
  let stdout ← IO.getStdout
  stdout.putStr Report.prompt
  stdout.flush
  let rec readLine (front : List UInt8) : IO Source := do
    let bytes ← stdin.read 1
    match bytes.toList with
    | [] => return front.reverse
    | b :: _ => if b = newline then return (b :: front).reverse else readLine (b :: front)
  let line ← readLine []
  if line.isEmpty then
    stdout.putStr "\n"
    return 0
  else if Report.isText line then
    let (_, s) ← runScript (Report.trimLine line) s
    promptLoop s
  else
    (← IO.getStderr).putStr Report.notText
    return 1

/-- The contents of a file, or why it cannot be read. -/
def contents (file : String) : IO (Except FileError Source) := do
  try
    let bytes ← IO.FS.readBinFile file
    return .ok bytes.toList
  catch
    | .noFileOrDirectory .. => return .error .missing
    | .permissionDenied _ code details => return .error ⟨"open", details, code.toNat⟩
    | .inappropriateType _ code details =>
      return .error (if code = 21 then .isDirectory else ⟨"open", details, code.toNat⟩)
    | .invalidArgument _ code details => return .error ⟨"open", details, code.toNat⟩
    | e => return .error ⟨"open", toString e, 5⟩

/-- Writes a report. -/
def write (r : Report) : IO UInt32 := do
  (← IO.getStdout).write r.out
  (← IO.getStderr).putStr r.err
  return r.exit.toUInt32

/-- The file that a command works on. -/
def fileOf : Command → Option String
  | .run file => some file
  | .repl => none
  | .tokenize file _ => some file
  | .parse file => some file

def perform (invocation : Invocation) : IO UInt32 := do
  match invocation with
  | .command .repl _ => promptLoop (.new .unlimited fun _ => 0)
  | .command c _ =>
    let source ← match fileOf c with
      | some file => contents file
      | none => pure (.ok [])
    match c, source with
    | .run _, .ok source =>
      let (outcome, _) ← runScript source (.new .unlimited fun _ => 0)
      return outcome.exitCode.toUInt32
    | _, source => write (Report.ofInvocation 0 ⟨fun _ => source, [], fun _ => 0⟩ invocation)
  | _ => write (Report.ofInvocation 0 ⟨fun _ => .error .missing, [], fun _ => 0⟩ invocation)

end ScriptLang.Main

open ScriptLang in
def main (args : List String) : IO UInt32 := do
  let invocation := Invocation.ofArgs args
  if invocation.keepsLog then
    IO.FS.writeFile "salmon.log" ("Arguments: " ++ " ".intercalate args ++ "\n")
  Main.perform invocation
