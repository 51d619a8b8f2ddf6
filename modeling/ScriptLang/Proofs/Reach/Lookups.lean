import Mathlib.Data.Nat.Find
import ScriptLang.Machine
import ScriptLang.Proofs.Frames.Growth

/-! Two ways to find a name. A walk goes out frame by frame up to the first one that binds the name;
a hop goes a number of links out and looks nowhere else. Where the number is that of the nearest
binder, the two read and write the same cell. -/

namespace ScriptLang

namespace Heap

/-! ### Heaps made of frames -/

/-- The heaps that come about when frames are made and names bound and assigned, in any order, on a
heap that has no frame yet. What fails makes no new heap. -/
inductive Framed : Heap → Prop where
  | start {h : Heap} : h.frames = #[] → Framed h
  | outermost {h : Heap} : Framed h → Framed (h.newFrame none).1
  | within {h : Heap} {f : FrameId} : Framed h → f < h.frames.size →
      Framed (h.newFrame (some f)).1
  | define {h : Heap} {f : FrameId} (name : String) (v : Value) : Framed h →
      f < h.frames.size → Framed (h.define f name v)
  | assign {h h' : Heap} {f : FrameId} {name : String} {v : Value} : Framed h →
      f < h.frames.size → h.assign? f name v = some h' → Framed h'
  | assignAt {h h' : Heap} {f : FrameId} {d : Nat} {name : String} {v : Value} : Framed h →
      f < h.frames.size → h.assignAt? f d name v = some h' → Framed h'

/-- Every frame lies inside an older one, or inside none. -/
def Inward (h : Heap) : Prop := ∀ f outer, h.enclosing? f = some outer → outer < f

variable {h : Heap}

theorem Inward.define (hinward : h.Inward) (f : FrameId) (name : String) (v : Value) :
    (h.define f name v).Inward := by
  intro g outer hg
  rw [enclosing?_define] at hg
  exact hinward g outer hg

theorem Inward.newFrame (hinward : h.Inward) {outer : Option FrameId}
    (houter : ∀ f, outer = some f → f < h.frames.size) : (h.newFrame outer).1.Inward := by
  intro g f hg
  rw [enclosing?_newFrame] at hg
  split at hg
  · rename_i hsize
    exact hsize ▸ houter f hg
  · exact hinward g f hg

theorem Framed.inward (hframed : h.Framed) : h.Inward := by
  induction hframed with
  | start hframes =>
      intro f outer hf
      simp [enclosing?, hframes] at hf
  | outermost _ ih => exact ih.newFrame (by simp)
  | within _ hf ih => exact ih.newFrame fun g hg => Option.some.inj hg ▸ hf
  | define name v _ _ ih => exact ih.define _ name v
  | assign _ _ hassign ih =>
      obtain ⟨target, -, rfl⟩ := Option.map_eq_some_iff.mp hassign
      exact ih.define target _ _
  | assignAt _ _ hassign ih =>
      obtain ⟨target, -, rfl⟩ := Option.map_eq_some_iff.mp hassign
      exact ih.define target _ _

/-! ### Hops -/

/-- Hops add up, and a chain that is too short for one of them is too short for both. -/
theorem ancestor?_add (h : Heap) (f : FrameId) (a b : Nat) :
    h.ancestor? f (a + b) = (h.ancestor? f a).bind (h.ancestor? · b) := by
  induction a generalizing f with
  | zero => rw [Nat.zero_add]; rfl
  | succ a ih =>
      rw [Nat.succ_add]
      simp only [ancestor?]
      cases h.enclosing? f with
      | none => rfl
      | some outer => exact ih outer

/-- Each link leads to an older frame. -/
theorem Inward.ancestor?_add_le (hinward : h.Inward) {f g : FrameId} {d : Nat}
    (hg : h.ancestor? f d = some g) : g + d ≤ f := by
  induction d generalizing f with
  | zero => exact Nat.le_of_eq (Option.some.inj hg).symm
  | succ d ih =>
      unfold ancestor? at hg
      split at hg
      · rename_i outer houter
        exact Nat.le_trans (Nat.succ_le_succ (ih hg)) (hinward f outer houter)
      · cases hg

/-- The chain is shorter than `d` links, or the frame that many links out lacks the name. -/
def Lacks (h : Heap) (f : FrameId) (d : Nat) (name : String) : Prop :=
  h.ancestor? f d = none ∨ ∃ g, h.ancestor? f d = some g ∧ h.local? g name = none

theorem binderAt?_eq_none_iff {f : FrameId} {d : Nat} {name : String} :
    h.binderAt? f d name = none ↔ h.Lacks f d name := by
  unfold binderAt? Lacks
  cases h.ancestor? f d with
  | none => simp
  | some g => cases hlocal : h.local? g name <;> simp [hlocal]

theorem assignAt?_eq_none_iff {f : FrameId} {d : Nat} {name : String} {v : Value} :
    h.assignAt? f d name v = none ↔ h.Lacks f d name := by
  rw [assignAt?, Option.map_eq_none_iff, binderAt?_eq_none_iff]

theorem getAt?_eq_none_iff {f : FrameId} {d : Nat} {name : String} :
    h.getAt? f d name = none ↔ h.Lacks f d name := by
  unfold getAt? Lacks
  cases h.ancestor? f d <;> simp

/-! ### The nearest binder -/

/-- No frame on a chain binds a name. -/
def Unbound (h : Heap) (f : FrameId) (name : String) : Prop :=
  ∀ d g, h.ancestor? f d = some g → h.local? g name = none

/-- The frame `target`, `d` links out, binds a name, and no frame on the way to it does. -/
structure Nearest (h : Heap) (f : FrameId) (name : String) (d : Nat) (target : FrameId) :
    Prop where
  reached : h.ancestor? f d = some target
  bound : (h.local? target name).isSome
  before : ∀ k < d, ∀ g, h.ancestor? f k = some g → h.local? g name = none

variable {f target : FrameId} {name : String} {d : Nat}

/-- A name that some frame on a chain binds has a nearest binder there. -/
theorem exists_nearest (hbound : ¬ h.Unbound f name) : ∃ d target, h.Nearest f name d target := by
  classical
  have hexists : ∃ d g, h.ancestor? f d = some g ∧ (h.local? g name).isSome := by
    simpa [Unbound, Option.isSome_iff_ne_none] using hbound
  obtain ⟨target, htarget, hlocal⟩ := Nat.find_spec hexists
  refine ⟨Nat.find hexists, target, htarget, hlocal, fun k hk g hg => ?_⟩
  rw [← Option.not_isSome_iff_eq_none]
  exact fun hsome => Nat.find_min hexists hk ⟨g, hg, hsome⟩

theorem Nearest.not_unbound (hnearest : h.Nearest f name d target) : ¬ h.Unbound f name := by
  intro hunbound
  have hbound := hnearest.bound
  rw [hunbound d target hnearest.reached] at hbound
  cases hbound

/-- A walk of `n` frames stops at the nearest binder, if that is one of them. -/
theorem binderWithin_eq_some_iff (n : Nat) :
    h.binderWithin name n f = some target ↔ ∃ d < n, h.Nearest f name d target := by
  induction n generalizing f with
  | zero => simp [binderWithin]
  | succ n ih =>
      unfold binderWithin
      split
      · rename_i hlocal
        constructor
        · intro htarget
          obtain rfl := Option.some.inj htarget
          exact ⟨0, Nat.succ_pos n, rfl, hlocal, fun k hk => absurd hk (Nat.not_lt_zero k)⟩
        · rintro ⟨d, -, hreached, -, hbefore⟩
          cases d with
          | zero => exact hreached
          | succ d =>
              rw [hbefore 0 (Nat.succ_pos d) f rfl] at hlocal
              cases hlocal
      · rename_i hlocal
        rw [Option.not_isSome_iff_eq_none] at hlocal
        cases houter : h.enclosing? f with
        | none =>
            refine ⟨nofun, ?_⟩
            rintro ⟨d, -, hreached, hbound, -⟩
            cases d with
            | zero =>
                obtain rfl := Option.some.inj hreached
                rw [hlocal] at hbound
                cases hbound
            | succ d => simp [ancestor?, houter] at hreached
        | some outer =>
            simp only [ih]
            constructor
            · rintro ⟨d, hd, hreached, hbound, hbefore⟩
              refine ⟨d + 1, Nat.succ_lt_succ hd, by simpa [ancestor?, houter], hbound, ?_⟩
              intro k hk g hg
              cases k with
              | zero => exact Option.some.inj hg ▸ hlocal
              | succ k =>
                  simp only [ancestor?, houter] at hg
                  exact hbefore k (Nat.lt_of_succ_lt_succ hk) g hg
            · rintro ⟨d, hd, hreached, hbound, hbefore⟩
              cases d with
              | zero =>
                  obtain rfl := Option.some.inj hreached
                  rw [hlocal] at hbound
                  cases hbound
              | succ d =>
                  refine ⟨d, Nat.lt_of_succ_lt_succ hd, by simpa [ancestor?, houter] using hreached,
                    hbound, fun k hk g hg => ?_⟩
                  exact hbefore (k + 1) (Nat.succ_lt_succ hk) g (by simpa [ancestor?, houter])

/-- No chain is too long for a walk. -/
theorem Inward.binder?_eq_some_iff (hinward : h.Inward) (hf : f < h.frames.size) :
    h.binder? f name = some target ↔ ∃ d, h.Nearest f name d target := by
  rw [binder?, binderWithin_eq_some_iff]
  constructor
  · rintro ⟨d, -, hnearest⟩
    exact ⟨d, hnearest⟩
  · rintro ⟨d, hnearest⟩
    have hle := hinward.ancestor?_add_le hnearest.reached
    exact ⟨d, Nat.lt_of_le_of_lt (Nat.le_trans (Nat.le_add_left d target) hle) hf, hnearest⟩

theorem Inward.binder?_eq_none_iff (hinward : h.Inward) (hf : f < h.frames.size) :
    h.binder? f name = none ↔ h.Unbound f name := by
  rw [Option.eq_none_iff_forall_ne_some]
  constructor
  · intro hnone
    by_contra hbound
    obtain ⟨d, target, hnearest⟩ := exists_nearest hbound
    exact hnone target ((hinward.binder?_eq_some_iff hf).mpr ⟨d, hnearest⟩)
  · intro hunbound target htarget
    obtain ⟨d, hnearest⟩ := (hinward.binder?_eq_some_iff hf).mp htarget
    exact hnearest.not_unbound hunbound

theorem Nearest.binderAt? (hnearest : h.Nearest f name d target) :
    h.binderAt? f d name = some target := by
  simp [Heap.binderAt?, hnearest.reached, hnearest.bound]

theorem Nearest.getAt? (hnearest : h.Nearest f name d target) :
    h.getAt? f d name = h.local? target name := by
  simp [Heap.getAt?, hnearest.reached]

theorem Inward.get?_of_nearest (hinward : h.Inward) (hf : f < h.frames.size)
    (hnearest : h.Nearest f name d target) : h.get? f name = h.local? target name := by
  rw [get?, (hinward.binder?_eq_some_iff hf).mpr ⟨d, hnearest⟩, Option.bind_some]

theorem Inward.get?_of_unbound (hinward : h.Inward) (hf : f < h.frames.size)
    (hunbound : h.Unbound f name) : h.get? f name = none := by
  rw [get?, (hinward.binder?_eq_none_iff hf).mpr hunbound, Option.bind_none]

/-! ### Writes -/

/-- `h'` is `h` with what a name stands for in one frame replaced; no other name, no link and no
other object differs. -/
structure Replaced (h h' : Heap) (f : FrameId) (name : String) (v : Value) : Prop where
  size : h'.frames.size = h.frames.size
  bindings : ∀ g other,
    h'.local? g other = if g = f ∧ other = name then some v else h.local? g other
  enclosing : ∀ g, h'.enclosing? g = h.enclosing? g
  ancestors : ∀ g k, h'.ancestor? g k = h.ancestor? g k
  functions : h'.functions = h.functions
  classes : h'.classes = h.classes
  instances : h'.instances = h.instances

theorem replaced_define (hf : f < h.frames.size) (name : String) (v : Value) :
    h.Replaced (h.define f name v) f name v where
  size := define_size h f name v
  bindings g other := local?_define h hf g name other v
  enclosing g := enclosing?_define h f g name v
  ancestors g k := ancestor?_define h f g name v k
  functions := rfl
  classes := rfl
  instances := rfl

variable {h' : Heap} {v : Value}

/-- A frame that binds a name binds no more and no fewer names when that name is bound anew. -/
theorem Replaced.isSome_local? (hreplaced : h.Replaced h' f name v)
    (hbound : (h.local? f name).isSome) (g : FrameId) (other : String) :
    (h'.local? g other).isSome = (h.local? g other).isSome := by
  rw [hreplaced.bindings]
  split
  · rename_i hcell
    rw [hcell.1, hcell.2, hbound]
    rfl
  · rfl

/-- The nearest binders of all names stay what they are. -/
theorem Replaced.nearest_iff (hreplaced : h.Replaced h' f name v)
    (hbound : (h.local? f name).isSome) {g : FrameId} {other : String} :
    h'.Nearest g other d target ↔ h.Nearest g other d target := by
  have hlocal := hreplaced.isSome_local? hbound
  have hnone (k : FrameId) : h'.local? k other = none ↔ h.local? k other = none := by
    rw [← Option.not_isSome_iff_eq_none, ← Option.not_isSome_iff_eq_none, hlocal]
  constructor <;> rintro ⟨hreached, hsome, hbefore⟩
  · rw [hreplaced.ancestors] at hreached
    rw [hlocal] at hsome
    refine ⟨hreached, hsome, fun k hk t ht => (hnone t).mp (hbefore k hk t ?_)⟩
    rwa [hreplaced.ancestors]
  · refine ⟨by rwa [hreplaced.ancestors], by rwa [hlocal], fun k hk t ht => ?_⟩
    rw [hreplaced.ancestors] at ht
    exact (hnone t).mpr (hbefore k hk t ht)

theorem Replaced.inward (hreplaced : h.Replaced h' f name v) (hinward : h.Inward) : h'.Inward := by
  intro g outer hg
  rw [hreplaced.enclosing] at hg
  exact hinward g outer hg

/-- A frame sees a write if its nearest binder of the name was written. -/
theorem Replaced.get?_of_nearest (hreplaced : h.Replaced h' f name v)
    (hbound : (h.local? f name).isSome) (hinward : h.Inward) {g : FrameId}
    (hg : g < h.frames.size) (hnearest : h.Nearest g name d f) : h'.get? g name = some v := by
  have hg' : g < h'.frames.size := hreplaced.size ▸ hg
  rw [(hreplaced.inward hinward).get?_of_nearest hg' ((hreplaced.nearest_iff hbound).mpr hnearest),
    hreplaced.bindings, if_pos ⟨rfl, rfl⟩]

/-- No other frame sees the write, and no frame sees it under another name. -/
theorem Replaced.get?_eq (hreplaced : h.Replaced h' f name v) (hbound : (h.local? f name).isSome)
    (hinward : h.Inward) {g : FrameId} (hg : g < h.frames.size) {other : String}
    (hother : other = name → ∀ k, ¬ h.Nearest g name k f) : h'.get? g other = h.get? g other := by
  have hg' : g < h'.frames.size := hreplaced.size ▸ hg
  have hinward' := hreplaced.inward hinward
  by_cases hunbound : h.Unbound g other
  · have hunbound' : h'.Unbound g other := by
      by_contra hbinds
      obtain ⟨k, t, hnearest⟩ := exists_nearest hbinds
      exact ((hreplaced.nearest_iff hbound).mp hnearest).not_unbound hunbound
    rw [hinward.get?_of_unbound hg hunbound, hinward'.get?_of_unbound hg' hunbound']
  · obtain ⟨k, t, hnearest⟩ := exists_nearest hunbound
    rw [hinward.get?_of_nearest hg hnearest,
      hinward'.get?_of_nearest hg' ((hreplaced.nearest_iff hbound).mpr hnearest),
      hreplaced.bindings, if_neg]
    rintro ⟨rfl, rfl⟩
    exact hother rfl k hnearest

end Heap

/-! ### Failures -/

/-- Reading a name and assigning to it fail, with a message that says which name is undefined, and
leave the session as it was. -/
def Session.Misses (s : Session) (id : ExprId) (name : Token) : Prop :=
  ∃ fault : Fault,
    fault.message =
      "Undefined variable '" ++ name.lexeme ++ "'." ++ "\n[line " ++ name.line.repr ++ "]" ∧
    ∀ stack, Machine.step ⟨.eval (.variable id name), stack, s⟩ = ⟨.failing fault, stack, s⟩ ∧
      ∀ v, Machine.step ⟨.value v, .assign id name :: stack, s⟩ = ⟨.failing fault, stack, s⟩

theorem Session.misses_of_none {s : Session} {id : ExprId} {name : Token}
    (hread : s.read? id name.lexeme = none) (hbinder : s.binder? id name.lexeme = none) :
    s.Misses id name :=
  ⟨Session.undefined name, rfl, fun stack =>
    ⟨by simp [Machine.step, Machine.evaluate, Machine.readName, hread],
      fun v => by simp [Machine.step, Machine.receive, hbinder]⟩⟩

/-- Walks and hops in a heap of frames. A walk reads and writes the cell that a hop to the nearest
binder reads and writes; the write changes nothing else, and those frames see it whose nearest
binder of the name is the frame written. Where no frame of the chain binds the name, walks fail; a
hop fails where the chain is too short or the frame it leads to lacks the name; and what fails
changes nothing. Hops add up. -/
theorem walks_and_hops_agree {h : Heap} (hframed : h.Framed) {e : FrameId}
    (he : e < h.frames.size) (name : Token) :
    (∀ d target, h.Nearest e name.lexeme d target →
      (∃ u, h.get? e name.lexeme = some u ∧ h.getAt? e d name.lexeme = some u) ∧
      ∀ v, ∃ h', h.assign? e name.lexeme v = some h' ∧ h.assignAt? e d name.lexeme v = some h' ∧
        h.Replaced h' target name.lexeme v ∧
        (∀ g < h.frames.size, ∀ k, h.Nearest g name.lexeme k target →
          h'.get? g name.lexeme = some v) ∧
        ∀ g < h.frames.size, ∀ other,
          (other = name.lexeme → ∀ k, ¬ h.Nearest g name.lexeme k target) →
            h'.get? g other = h.get? g other) ∧
    (¬ h.Unbound e name.lexeme → ∃ d target, h.Nearest e name.lexeme d target) ∧
    (h.Unbound e name.lexeme →
      h.get? e name.lexeme = none ∧ (∀ v, h.assign? e name.lexeme v = none) ∧
      ∀ (s : Session) id, s.heap = h → s.globals = e → s.hop? id = none → s.Misses id name) ∧
    (∀ d, (h.getAt? e d name.lexeme = none ↔ h.Lacks e d name.lexeme) ∧
      (∀ v, h.assignAt? e d name.lexeme v = none ↔ h.Lacks e d name.lexeme) ∧
      (h.Lacks e d name.lexeme → ∀ (s : Session) id, s.heap = h → s.current = e →
        s.hop? id = some d → s.Misses id name)) ∧
    ∀ a b, h.ancestor? e (a + b) = (h.ancestor? e a).bind (h.ancestor? · b) := by
  have hinward := hframed.inward
  refine ⟨fun d target hnearest => ⟨?_, fun v => ?_⟩, Heap.exists_nearest, fun hunbound => ?_,
    fun d => ⟨Heap.getAt?_eq_none_iff, fun v => Heap.assignAt?_eq_none_iff, ?_⟩,
    Heap.ancestor?_add h e⟩
  · obtain ⟨u, hu⟩ := Option.isSome_iff_exists.mp hnearest.bound
    exact ⟨u, by rw [hinward.get?_of_nearest he hnearest, hu], by rw [hnearest.getAt?, hu]⟩
  · obtain ⟨u, hu⟩ := Option.isSome_iff_exists.mp hnearest.bound
    have hreplaced := Heap.replaced_define (Heap.lt_size_of_local? hu) name.lexeme v
    have hbinder := (hinward.binder?_eq_some_iff he).mpr ⟨d, hnearest⟩
    exact ⟨h.define target name.lexeme v, by rw [Heap.assign?, hbinder, Option.map_some],
      by rw [Heap.assignAt?, hnearest.binderAt?, Option.map_some], hreplaced,
      fun g hg k hk => hreplaced.get?_of_nearest hnearest.bound hinward hg hk,
      fun g hg other hother => hreplaced.get?_eq hnearest.bound hinward hg hother⟩
  · have hbinder := (hinward.binder?_eq_none_iff he).mpr hunbound
    have hget := hinward.get?_of_unbound he hunbound
    refine ⟨hget, fun v => by rw [Heap.assign?, hbinder, Option.map_none], ?_⟩
    rintro s id rfl rfl hhop
    exact Session.misses_of_none (by rw [Session.read?, hhop, hget])
      (by rw [Session.binder?, hhop, hbinder])
  · rintro hlacks s id rfl rfl hhop
    have hget := Heap.getAt?_eq_none_iff.mpr hlacks
    have hbinder := Heap.binderAt?_eq_none_iff.mpr hlacks
    exact Session.misses_of_none (by simpa only [Session.read?, hhop] using hget)
      (by simpa only [Session.binder?, hhop] using hbinder)

/-- Frame 0 binds `a`, frame 1 inside it binds `a` too, frame 2 lies inside frame 1 and frame 3
inside frame 0. From frame 2 a walk and a hop of one link write in frame 1, which frame 3 does not
see; no frame binds `b`. -/
theorem walks_and_hops_agree_shadowed :
    let outer := (Heap.empty.newFrame none).1.define 0 "a" (.bool true)
    let inner := (outer.newFrame (some 0)).1.define 1 "a" (.bool false)
    let h := ((inner.newFrame (some 1)).1.newFrame (some 0)).1
    h.Framed ∧ h.Nearest 2 "a" 1 1 ∧ h.getAt? 2 1 "a" = some (.bool false) ∧
      (∃ h', h.assign? 2 "a" .nil = some h' ∧ h.assignAt? 2 1 "a" .nil = some h' ∧
        h'.get? 2 "a" = some .nil ∧ h'.get? 3 "a" = h.get? 3 "a") ∧
      h.get? 3 "a" = some (.bool true) ∧ h.get? 2 "b" = none ∧ h.Lacks 2 0 "a" := by
  intro outer inner h
  have hframed : h.Framed :=
    .within (.within (.define "a" _ (.within (.define "a" _ (.outermost (.start rfl)) (by decide))
      (by decide)) (by decide)) (by decide)) (by decide)
  have hnearest : h.Nearest 2 "a" 1 1 := by
    refine ⟨by decide, by decide, fun k hk g hg => ?_⟩
    obtain rfl : k = 0 := by omega
    obtain rfl : 2 = g := Option.some.inj hg
    decide
  have hseen : ∀ k, ¬ h.Nearest 3 "a" k 1 := by
    intro k hk
    have htarget := (hframed.inward.binder?_eq_some_iff (by decide)).mpr ⟨k, hk⟩
    exact absurd htarget (by decide)
  have hunbound : h.Unbound 2 "b" :=
    (hframed.inward.binder?_eq_none_iff (by decide)).mp (by decide)
  obtain ⟨hbound, -, -, hhops, -⟩ :=
    walks_and_hops_agree hframed (by decide : 2 < h.frames.size) ⟨.identifier, "a", 1⟩
  obtain ⟨-, -, hundefined, -, -⟩ :=
    walks_and_hops_agree hframed (by decide : 2 < h.frames.size) ⟨.identifier, "b", 1⟩
  obtain ⟨-, hwrites⟩ := hbound 1 1 hnearest
  obtain ⟨h', hassign, hassignAt, -, hsees, hother⟩ := hwrites .nil
  exact ⟨hframed, hnearest, by decide,
    ⟨h', hassign, hassignAt, hsees 2 (by decide) 1 hnearest,
      hother 3 (by decide) "a" fun _ => hseen⟩,
    by decide, (hundefined hunbound).1, (hhops 0).1.mp (by decide)⟩

end ScriptLang
