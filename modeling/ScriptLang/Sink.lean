/-! Where printed text goes. A sink may accept only so many bytes, and may fail to flush. -/

namespace ScriptLang

inductive SinkError where
  | full
  | flushFailed
deriving DecidableEq, Repr

def SinkError.message : SinkError → String
  | .full => "sink full"
  | .flushFailed => "flush failed"

structure Sink where
  written : ByteArray
  limit : Option Nat
  flushFails : Bool

namespace Sink

/-- A sink that takes everything. -/
def unlimited : Sink := ⟨.empty, none, false⟩

/-- Writes bytes. If not all fit, those that do are kept and the write fails. -/
def write (s : Sink) (bytes : ByteArray) : Sink × Except SinkError Unit :=
  match s.limit with
  | none => ({ s with written := s.written ++ bytes }, .ok ())
  | some limit =>
    let room := limit - s.written.size
    if bytes.size ≤ room then ({ s with written := s.written ++ bytes }, .ok ())
    else ({ s with written := s.written ++ bytes.extract 0 room }, .error .full)

def flush (s : Sink) : Except SinkError Unit :=
  if s.flushFails then .error .flushFailed else .ok ()

end Sink

end ScriptLang
