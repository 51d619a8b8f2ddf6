/-! The command line. The arguments name a command; options stand before or after its name. -/

namespace ScriptLang

/-- What the program is asked to do. -/
inductive Command where
  | run (file : String)
  | repl
  | tokenize (file : String) (json : Bool)
  | parse (file : String)
deriving DecidableEq, Repr

/-- What the arguments of the program mean. -/
inductive Invocation where
  | command (c : Command) (log : Bool)
  | help
  | version
  | malformed
deriving DecidableEq, Repr

namespace CommandLine

/-- The names of commands. -/
inductive Verb where
  | run | repl | tokenize | parse
deriving DecidableEq, Repr

def Verb.ofName? : String → Option Verb
  | "run" => some .run
  | "repl" => some .repl
  | "tokenize" => some .tokenize
  | "parse" => some .parse
  | _ => none

/-- The arguments read so far: options before the command's name and after it are counted apart,
and each may stand once. -/
structure Progress where
  logBefore : Bool
  log : Bool
  json : Bool
  file : Option String
deriving DecidableEq, Repr

/-- The command of a verb once all its arguments are read. All but one need a file, whose name is
not empty. -/
def finish (verb : Verb) (p : Progress) : Invocation :=
  let log := p.logBefore || p.log
  match verb, p.file with
  | .repl, _ => .command .repl log
  | _, none => .malformed
  | _, some "" => .malformed
  | .run, some file => .command (.run file) log
  | .tokenize, some file => .command (.tokenize file p.json) log
  | .parse, some file => .command (.parse file) log

/-- Takes an argument that is no option. -/
def positional? (verb : Verb) (p : Progress) (argument : String) : Option Progress :=
  match verb, p.file with
  | .repl, _ => none
  | _, some _ => none
  | _, none => some { p with file := some argument }

/-- A request for help, which comes too late after an empty file name. -/
def helpAfter (p : Progress) : Invocation :=
  if p.file = some "" then .malformed else .help

/-- Whether an argument is an option. A lone dash is none. -/
def isOption (argument : String) : Bool :=
  argument.toList.head? = some '-' && argument ≠ "-"

/-- Reads the arguments after a double dash, none of which is an option. -/
def afterOptions (verb : Verb) (p : Progress) : List String → Invocation
  | [] => finish verb p
  | argument :: rest =>
    match positional? verb p argument with
    | some p => afterOptions verb p rest
    | none => .malformed

/-- Reads the arguments after the name of a command. -/
def afterVerb (verb : Verb) (p : Progress) : List String → Invocation
  | [] => finish verb p
  | "--" :: rest => afterOptions verb p rest
  | "--log" :: rest => if p.log then .malformed else afterVerb verb { p with log := true } rest
  | "--json" :: rest =>
    if verb = .tokenize ∧ !p.json then afterVerb verb { p with json := true } rest
    else .malformed
  | "--help" :: _ => helpAfter p
  | argument :: rest =>
    if isOption argument then
      -- One-letter options may be joined; the first of them decides.
      match argument.toList with
      | _ :: 'h' :: _ => helpAfter p
      | _ => .malformed
    else match positional? verb p argument with
      | some p => afterVerb verb p rest
      | none => .malformed

/-- What a request for help on these topics gives. -/
def helpOn : List String → Invocation
  | [] => .help
  | [topic] => if topic = "help" ∨ (Verb.ofName? topic).isSome then .help else .malformed
  | _ => .malformed

/-- Reads the arguments up to the name of a command; without one, the prompt is meant. -/
def beforeVerb (log : Bool) : List String → Invocation
  | [] => .command .repl log
  | "--" :: rest => if rest.isEmpty then .command .repl log else .malformed
  | "--log" :: rest => if log then .malformed else beforeVerb true rest
  | "--help" :: _ => .help
  | "--version" :: _ => .version
  | "help" :: topics => helpOn topics
  | argument :: rest =>
    match Verb.ofName? argument with
    | some verb => afterVerb verb ⟨log, false, false, none⟩ rest
    | none =>
      match argument.toList with
      | '-' :: 'h' :: _ => .help
      | '-' :: 'V' :: _ => .version
      | _ => .malformed

end CommandLine

/-- The meaning of the program's arguments. -/
def Invocation.ofArgs (args : List String) : Invocation := CommandLine.beforeVerb false args

end ScriptLang
