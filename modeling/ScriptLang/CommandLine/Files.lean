import ScriptLang.Piece
import ScriptLang.Text.Quoted

/-! The files that a command may name, and how paths lead to them. -/

namespace ScriptLang

/-- Why a file cannot be read: what was tried, and the reason and number that the system gave. -/
structure FileError where
  action : String
  reason : String
  code : Nat
deriving DecidableEq, Repr

namespace FileError

def missing : FileError := ⟨"open", "No such file or directory", 2⟩

def notDirectory : FileError := ⟨"open", "Not a directory", 20⟩

def nameTooLong : FileError := ⟨"open", "File name too long", 36⟩

/-- A directory can be opened, but has no contents. -/
def isDirectory : FileError := ⟨"map", "No such device", 19⟩

/-- An error with the cause behind it. -/
def explain (text cause : String) : String :=
  "Error: " ++ text ++ "\n\nCaused by:\n    " ++ cause ++ "\n"

def message (e : FileError) (file : String) : String :=
  explain ("Failed to " ++ e.action ++ " file " ++ Quoted.quote file)
    (e.reason ++ " (os error " ++ e.code.repr ++ ")")

end FileError

/-- Files, each with the names that lead to it from the root, and the names that lead to the
working directory. The directories are the working directory and all that these names pass. -/
structure Files where
  entries : List (List String × Source)
  working : List String

namespace Files

/-- The most bytes of a name. -/
def maxName : Nat := 255

/-- The most bytes of a path. -/
def maxPath : Nat := 4095

def contents? (t : Files) (place : List String) : Option Source :=
  (t.entries.find? (·.1 = place)).map (·.2)

def isDirectory (t : Files) (place : List String) : Bool :=
  place.isPrefixOf t.working || t.entries.any fun (file, _) => place.isPrefixOf file.dropLast

/-- Goes from a directory to what it calls `name`. -/
def enter (t : Files) (place : List String) (name : String) : Except FileError (List String) :=
  if !t.isDirectory place then .error .notDirectory
  else if name = "" || name = "." then .ok place
  else if name = ".." then .ok place.dropLast
  else if maxName < name.utf8ByteSize then .error .nameTooLong
  else
    let inner := place ++ [name]
    if t.isDirectory inner || (t.contents? inner).isSome then .ok inner else .error .missing

/-- The contents of the file that a path leads to. A path that begins with a slash starts at the
root, any other at the working directory. -/
def read (t : Files) (path : String) : Except FileError Source := do
  if maxPath < path.utf8ByteSize then throw .nameTooLong
  let start := if path.toList.head? = some '/' then [] else t.working
  let place ← (path.splitOn "/").foldlM t.enter start
  match t.contents? place with
  | some source => pure source
  | none => throw .isDirectory

end Files

end ScriptLang
