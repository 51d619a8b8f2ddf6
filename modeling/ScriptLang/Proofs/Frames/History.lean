import ScriptLang.Proofs.Scoping.Points
import ScriptLang.Session.Run

/-! The history of a session: the programs that were accepted in it, and for what each of its
frames was opened. Runs of scripts are told as moments that follow one another. -/

namespace ScriptLang

/-- What a frame is opened for. The frame of a bound method knows the instance it is bound to, the
frame of a derived class the superclass. -/
inductive Opening where
  | block (body : List Stmt)
  | body (decl : FunctionDecl)
  | this (method : FunctionDecl) (i : InstanceId)
  | super (name : Token) (methods : List FunctionDecl) (c : ClassId)

/-- The scope that a frame is opened for. -/
def Opening.site : Opening → Site
  | .block ss => .block ss
  | .body decl => .body decl
  | .this method _ => .this method
  | .super name methods _ => .super name methods

namespace Machine

/-- The frame that is opened when a property turns out to be a method. -/
def binds : Except Fault Session.Property → List Opening
  | .ok (.method f i) => [.this f.decl i]
  | _ => []

/-- The frame that is opened to call a function. -/
def enters (f : Function) (s : Session) : List Opening :=
  if Session.maxDepth ≤ s.depth then [] else [.body f.decl]

/-- The frames that are opened to call a value. -/
def calls (callee : Value) (arguments : List Value) (s : Session) : List Opening :=
  match callee with
  | .function id =>
    match s.heap.functions[id]? with
    | some f => if arguments.length = f.decl.arity then enters f s else []
    | none => []
  | .classObj c =>
    if arguments.length = s.heap.classArity c then
      match s.heap.method? c initName with
      | some f => .this f.decl s.heap.instances.size :: enters f s
      | none => []
    else []
  | _ => []

/-- The frames that are opened when waiting work is given a value. -/
def receives (v : Value) (p : Pending) (s : Session) : List Opening :=
  match p with
  | .get name => binds (s.property v name)
  | .superclass name _ methods =>
    match v with
    | .classObj c => [.super name methods c]
    | _ => []
  | _ => []

/-- The frames that the next step opens. -/
def opens (m : Machine) : List Opening :=
  match m.task, m.stack with
  | .exec (.block body), _ => [.block body]
  | .eval (.super id keyword method), _ => binds (m.session.superMethod id keyword method)
  | .call callee arguments _, _ => calls callee arguments m.session
  | .value v, p :: _ => receives v p m.session
  | _, _ => []

end Machine

/-- The programs that were accepted, last first, and what each frame was opened for; the global
frame is opened for nothing. -/
structure History where
  programs : List Program
  openings : List (Option Opening)

namespace History

/-- The history of a new session. -/
def start : History := ⟨[], [none]⟩

def accept (h : History) (program : Program) : History :=
  { h with programs := program :: h.programs }

def extend (h : History) (openings : List Opening) : History :=
  { h with openings := h.openings ++ openings.map some }

/-- The history after at most `n` steps. -/
def run : Nat → History → Machine → History
  | 0, h, _ => h
  | n + 1, h, m => if m.halted then h else run n (h.extend m.opens) m.step

/-- The history after a script that was read, or rejected, is carried out. -/
def carryOut (steps : Nat) (h : History) : Except (List Diagnostic) Program × Session → History
  | (.error _, _) => h
  | (.ok program, s) => (h.accept program).run steps (.ofProgram program s)

end History

/-- The sessions that finished runs of these scripts lead to, the last script first, and their
history. -/
inductive Session.Ran : List Source → History → Session → Prop where
  | new (sink : Sink) (reading : Nat → Float) : Ran [] .start (.new sink reading)
  | run {sources : List Source} {h : History} {s : Session} (steps : Nat) (source : Source) :
      Ran sources h s → (s.run steps source).1 ≠ .unfinished →
      Ran (source :: sources) (h.carryOut steps (s.prepare source)) (s.run steps source).2

/-! ### Moments -/

structure Moment where
  history : History
  machine : Machine

namespace Moment

/-- A moment at which no script runs. -/
def idle (h : History) (s : Session) : Moment := ⟨h, ⟨.done, [], s⟩⟩

/-- What can happen next: a step of the script that runs, its end, or the start or rejection of
another one. -/
inductive Next : Moment → Moment → Prop where
  | step {h : History} {m : Machine} : m.halted = false → Next ⟨h, m⟩ ⟨h.extend m.opens, m.step⟩
  | finish {h : History} {m : Machine} : m.halted = true → Next ⟨h, m⟩ (idle h m.session)
  | start {h : History} {s s' : Session} {source : Source} {program : Program} :
      s.prepare source = (.ok program, s') →
      Next (idle h s) ⟨h.accept program, .ofProgram program s'⟩
  | reject {h : History} {s s' : Session} {source : Source} {errors : List Diagnostic} :
      s.prepare source = (.error errors, s') → Next (idle h s) (idle h s')

/-- Some or no time later. -/
inductive Later : Moment → Moment → Prop where
  | refl (a : Moment) : Later a a
  | next {a b c : Moment} : Later a b → Next b c → Later a c

theorem Later.trans {a b c : Moment} (h : Later a b) (h' : Later b c) : Later a c := by
  induction h' with
  | refl => exact h
  | next _ hn ih => exact ih.next hn

/-- What holds at first and is kept by all that can happen next always holds. -/
theorem Later.induct {P : Moment → Prop} {a b : Moment} (h : Later a b) (ha : P a)
    (hnext : ∀ b c, P b → Next b c → P c) : P b := by
  induction h with
  | refl => exact ha
  | next _ hn ih => exact hnext _ _ ih hn

/-- The moments of the runs of a session. -/
def Reached (a : Moment) : Prop := ∃ sink reading, Later (idle .start (.new sink reading)) a

/-- The moments of a run of a machine. -/
theorem later_run (n : Nat) (h : History) (m : Machine) :
    Later ⟨h, m⟩ ⟨h.run n m, Machine.run n m⟩ := by
  induction n generalizing h m with
  | zero => exact .refl _
  | succ n ih =>
      unfold History.run Machine.run
      split
      · exact .refl _
      · rename_i hhalted
        exact (Later.next (.refl _) (.step (by simpa using hhalted))).trans (ih _ _)

theorem halted_of_programEnding {m : Machine} (h : Outcome.ofEnding m.programEnding ≠ .unfinished) :
    m.halted = true := by
  obtain ⟨task, stack, s⟩ := m
  unfold Machine.programEnding at h
  split at h
  case h_5 => exact absurd rfl h
  all_goals
    rename_i htask hstack _
    obtain rfl : task = _ := htask
    obtain rfl : stack = [] := hstack
    rfl

/-- A run of a script that finishes leads from one idle moment to another. -/
theorem later_sessionRun {h : History} {s : Session} {steps : Nat} {source : Source}
    (hfinished : (s.run steps source).1 ≠ .unfinished) :
    Later (idle h s) (idle (h.carryOut steps (s.prepare source)) (s.run steps source).2) := by
  unfold Session.run at *
  rcases hprepare : s.prepare source with ⟨errors | program, s'⟩
  · exact .next (.refl _) (.reject hprepare)
  · rw [hprepare] at hfinished
    simp only [Session.carryOut, Session.interpret] at hfinished
    have hrun := later_run steps (h.accept program) (.ofProgram program s')
    exact ((Later.next (.refl _) (.start hprepare)).trans hrun).next
      (.finish (halted_of_programEnding hfinished))

theorem reached_of_ran {sources : List Source} {h : History} {s : Session}
    (hran : s.Ran sources h) : Reached (idle h s) := by
  induction hran with
  | new sink reading => exact ⟨sink, reading, .refl _⟩
  | run steps source _ hfinished ih =>
      obtain ⟨sink, reading, hlater⟩ := ih
      exact ⟨sink, reading, hlater.trans (later_sessionRun hfinished)⟩

/-- Every moment of a run that follows others is reached. -/
theorem reached_run {sources : List Source} {h : History} {s s' : Session}
    (hran : s.Ran sources h) {source : Source} {program : Program}
    (hprepare : s.prepare source = (.ok program, s')) (n : Nat) :
    Reached ⟨(h.accept program).run n (.ofProgram program s'),
      Machine.run n (.ofProgram program s')⟩ := by
  obtain ⟨sink, reading, hlater⟩ := reached_of_ran hran
  exact ⟨sink, reading, (hlater.next (.start hprepare)).trans (later_run n _ _)⟩

end Moment

end ScriptLang
