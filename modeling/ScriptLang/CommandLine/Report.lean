import ScriptLang.CommandLine
import ScriptLang.CommandLine.Files
import ScriptLang.Session.Run
import ScriptLang.Stmt.Printer
import ScriptLang.Token.Json

/-! What commands do: the text they write and the status they exit with. -/

namespace ScriptLang

/-- What a command writes, and its exit status. -/
structure Report where
  exit : Nat
  out : ByteArray
  err : String

/-- What the program is given to work with. -/
structure Surroundings where
  fileAt : String → Except FileError Source
  input : Source
  reading : Nat → Float

namespace Report

def exitUsage : Nat := 64

def exitDataError : Nat := 65

def versionText : String := "salmon 0.1.0\n"

def usageText : String :=
  "Usage: salmon [--log] [run FILE | repl | tokenize FILE [--json] | parse FILE]\n"

/-- Errors, each on lines of its own. -/
def errorText (errors : List Diagnostic) : String :=
  String.join (errors.map fun e => e.message ++ "\n")

/-- A command on the contents of a file. -/
def onFile (w : Surroundings) (file : String) (f : Source → Report) : Report :=
  match w.fileAt file with
  | .ok source => f source
  | .error e => ⟨1, .empty, e.message file⟩

/-- Runs a script in a new session. -/
def ofRun (steps : Nat) (reading : Nat → Float) (source : Source) : Report :=
  let (outcome, s) := (Session.new .unlimited reading).run steps source
  ⟨outcome.exitCode, s.sink.written, errorText outcome.errors⟩

/-- Lists the tokens of a script, as JSON or in plain text. -/
def ofTokens (json : Bool) (source : Source) : Report :=
  let lines := source.tokens.map fun t => (if json then t.json else t.text) ++ "\n"
  let errors := source.lexicalErrors.map Diagnostic.lexical
  ⟨if errors.isEmpty then 0 else exitDataError, (String.join lines).toUTF8, errorText errors⟩

/-- Shows how a script is read. -/
def ofTree (source : Source) : Report :=
  let lexical := source.lexicalErrors.map Diagnostic.lexical
  match (Parsed.ofTokens source.tokens 0).program with
  | .error errors => ⟨exitDataError, .empty, errorText (lexical ++ errors.map .parse)⟩
  | .ok program =>
    if lexical.isEmpty then
      ⟨0, (String.join (program.map fun s => s.render ++ "\n")).toUTF8, ""⟩
    else ⟨exitDataError, .empty, errorText lexical⟩

/-! ### The prompt -/

def prompt : String := "> "

/-- A line of input without the bytes that end it. -/
def trimLine (line : Source) : Source :=
  match line.reverse with
  | b :: rest =>
    if b = newline then
      match rest with
      | c :: front => if c = byte '\r' then front.reverse else rest.reverse
      | [] => []
    else line
  | [] => []

/-- The lines of the input, each with the bytes that end it; `front` is the line so far, last
byte first. -/
def splitLines (front : List UInt8) : Source → List Source
  | [] => if front.isEmpty then [] else [front.reverse]
  | b :: rest =>
    if b = newline then (b :: front).reverse :: splitLines [] rest
    else splitLines (b :: front) rest

def isText (line : Source) : Bool := (ByteArray.mk line.toArray).validateUTF8

def notText : String :=
  FileError.explain "Failed to read from stdin" "stream did not contain valid UTF-8"

/-- Runs lines one after another, with a prompt before each. A line that is not text ends the
session. -/
def ofLines (steps : Nat) (s : Session) (out : ByteArray) (err : String) :
    List Source → Report
  | [] => ⟨0, out ++ (prompt ++ "\n").toUTF8, err⟩
  | line :: rest =>
    if isText line then
      let (outcome, after) := s.run steps (trimLine line)
      let printed := after.sink.written
      ofLines steps { after with sink := .unlimited } (out ++ prompt.toUTF8 ++ printed)
        (err ++ errorText outcome.errors) rest
    else ⟨1, out ++ prompt.toUTF8, err ++ notText⟩

def ofPrompt (steps : Nat) (w : Surroundings) : Report :=
  ofLines steps (.new .unlimited w.reading) .empty "" (splitLines [] w.input)

/-! ### Commands -/

/-- Carries out a command. -/
def ofCommand (steps : Nat) (w : Surroundings) : Command → Report
  | .run file => onFile w file (ofRun steps w.reading)
  | .repl => ofPrompt steps w
  | .tokenize file json => onFile w file (ofTokens json)
  | .parse file => onFile w file ofTree

/-- Carries out what the arguments mean. -/
def ofInvocation (steps : Nat) (w : Surroundings) : Invocation → Report
  | .command c _ => ofCommand steps w c
  | .help => ⟨0, usageText.toUTF8, ""⟩
  | .version => ⟨0, versionText.toUTF8, ""⟩
  | .malformed => ⟨exitUsage, .empty, usageText⟩

end Report

/-- Whether a log is kept. -/
def Invocation.keepsLog : Invocation → Bool
  | .command _ log => log
  | _ => false

end ScriptLang
