import ScriptLang.Proofs.Reach.Disciplines
import ScriptLang.Proofs.Tasks

/-! Encapsulation: what cannot be reached from the current frame or the global one when something is
begun is as it was when it is over. -/

namespace ScriptLang

/-- The objects that a session can reach from the frame it stands in and from the global frame. -/
inductive Session.Reaches (s : Session) : Ref → Prop where
  | current : Reaches s (.frame s.current)
  | globals : Reaches s (.frame s.globals)
  | points {r r' : Ref} : Reaches s r → s.heap.Points r r' → Reaches s r'

namespace Session

/-- An object that is reached, or not made yet. -/
def Open (s : Session) (r : Ref) : Prop := s.heap.Has r → s.Reaches r

/-- A later heap in which what could not be reached is still hidden and still the same. -/
structure Hides (s : Session) (h : Heap) : Prop where
  has : ∀ r, s.heap.Has r → h.Has r
  points : ∀ {r r'}, s.Open r → h.Points r r' → s.Open r'
  frames : ∀ f < s.heap.frames.size, ¬ s.Reaches (.frame f) → h.frames[f]? = s.heap.frames[f]?
  instances : ∀ i < s.heap.instances.size, ¬ s.Reaches (.instanceObj i) →
    h.instances[i]? = s.heap.instances[i]?

theorem Hides.refl (s : Session) : s.Hides s.heap where
  has _ := id
  points hr hpoints _ := .points (hr hpoints.has) hpoints
  frames _ _ _ := rfl
  instances _ _ _ := rfl

theorem Hides.edit {s : Session} {h h' : Heap} (hhides : s.Hides h) (hedit : h.Edit s.Open h') :
    s.Hides h' where
  has r hr := hedit.has (hhides.has r hr)
  points hr hpoints := (hedit.points hpoints).elim (hhides.points hr) id
  frames f hf hhidden := by
    have hclosed : ¬ s.Open (.frame f) := fun hopen => hhidden (hopen hf)
    rw [hedit.frame_eq (hhides.has (.frame f) hf) hclosed, hhides.frames f hf hhidden]
  instances i hi hhidden := by
    have hclosed : ¬ s.Open (.instanceObj i) := fun hopen => hhidden (hopen hi)
    rw [hedit.instance_eq (hhides.has (.instanceObj i) hi) hclosed, hhides.instances i hi hhidden]

/-- To hold only what was reached at first or was made since. -/
def openness (s : Session) : Discipline where
  allows _ := s.Open
  keeps := s.Hides
  points hhides hr := hhides.points hr
  edit := Hides.edit
  mono _ _ := id
  fresh hhides _ hnew _ hold := absurd (hhides.has _ hold) hnew

end Session

/-- To evaluate an expression or to carry out a statement. -/
def Task.Begins : Task → Prop
  | .eval _ | .exec _ => True
  | _ => False

theorem Task.Begins.within {task : Task} (h : task.Begins) (may : Ref → Prop) :
    task.Within may := by
  cases task with
  | eval | exec => trivial
  | _ => cases h

/-- What is begun holds nothing yet but the registers of its session. -/
theorem Machine.alone_abides {m : Machine} (hbegins : m.task.Begins) :
    m.alone.Abides m.session.openness := by
  have hreached : m.alone.session.Abides m.session.openness :=
    ⟨Session.Hides.refl m.session, fun _ => Session.Reaches.current,
      fun _ => Session.Reaches.globals⟩
  exact ⟨hreached, Task.Begins.within hbegins _, fun p hp => nomatch hp⟩

/-- From the beginning of an expression or a statement to its end, a frame or an instance that the
session could not reach when it was begun stays as it is, whatever is found, returned or failed. -/
theorem unreached_objects_stay {m : Machine} (hbegins : m.task.Begins) {n : Nat}
    (hlasts : m.Lasts n) :
    (∀ f frame, m.session.heap.frames[f]? = some frame → ¬ m.session.Reaches (.frame f) →
      (m.run n).session.heap.frames[f]? = some frame) ∧
    ∀ i inst, m.session.heap.instances[i]? = some inst → ¬ m.session.Reaches (.instanceObj i) →
      (m.run n).session.heap.instances[i]? = some inst := by
  have hhides : m.session.Hides (m.run n).session.heap := by
    rw [hlasts.session_eq]
    exact ((Machine.alone_abides hbegins).run n).session.keeps
  constructor
  · intro f frame hframe hhidden
    rw [hhides.frames f (Array.getElem?_eq_some_iff.mp hframe).1 hhidden, hframe]
  · intro i inst hinst hhidden
    rw [hhides.instances i (Array.getElem?_eq_some_iff.mp hinst).1 hhidden, hinst]

/-- Beside the global frame there is a frame, left behind by a call, in which `n` is true. Carrying
out `{var n;n=false;}` binds and assigns another `n`. -/
theorem unreached_objects_stay_shadowed :
    let clock : Frame := ⟨⟨[("clock", .native Session.clockFunction)]⟩, none⟩
    let left : Frame := ⟨⟨[("n", .bool true)]⟩, some 0⟩
    let s : Session :=
      { Session.new .unlimited fun _ => 0 with heap := ⟨#[clock, left], #[], #[], #[]⟩ }
    let n : Token := ⟨.identifier, "n", 1⟩
    let m : Machine := ⟨.exec (.block [.var n none,
      .expression (.assign 0 n (.literal (.bool false)))]), [], s.recordHop 0 0⟩
    m.Finishes 10 ∧ ¬ m.session.Reaches (.frame 1) ∧
      (m.run 10).session.heap.frames[1]? = some left ∧
      (m.run 10).session.heap.local? 2 "n" = some (.bool false) := by
  intro clock left s n m
  have hfinishes : m.Finishes 10 :=
    ⟨by decide +kernel, by decide +kernel, List.length_eq_zero_iff.mp (by decide +kernel)⟩
  have hclock : ∀ name, m.session.heap.local? 0 name =
      if "clock" = name then some (.native Session.clockFunction) else none := fun _ => rfl
  -- Only the global frame is reached: it holds the clock, which is no object.
  have hreached : ∀ r, m.session.Reaches r → r = .frame 0 := by
    intro r hr
    induction hr with
    | current | globals => rfl
    | points _ hpoints ih =>
        subst ih
        cases hpoints with
        | enclosing houter => cases houter
        | bound hlocal hv =>
            rw [hclock] at hlocal
            split at hlocal <;> cases hlocal
            cases hv
  have hhidden : ¬ m.session.Reaches (.frame 1) := fun h => nomatch hreached _ h
  have hbegins : m.task.Begins := trivial
  have hframe : m.session.heap.frames[1]? = some left := rfl
  exact ⟨hfinishes, hhidden,
    (unreached_objects_stay hbegins hfinishes.lasts).1 1 _ hframe hhidden, by decide +kernel⟩

end ScriptLang
