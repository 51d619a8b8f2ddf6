import ScriptLang.Proofs.Frames.Growth
import ScriptLang.Proofs.Frames.History
import ScriptLang.Proofs.Scoping.Shape

/-! Frames and scopes. A frame agrees with the scopes around a point if its chain has one frame
for each of them, opened for that scope and binding the names that are complete in it. Values are
sound if every function that can be called closes over a frame that agrees with the scopes around
its declaration. -/

namespace ScriptLang

/-- The heap of a session with its history. -/
structure World where
  history : History
  heap : Heap
  globals : FrameId

namespace World

/-- A point of an accepted program. -/
def Visited (w : World) (p : Point) : Prop := ∃ program ∈ w.history.programs, Visits program p

/-- What the frame `f` was opened for. -/
def openedFor (w : World) (f : FrameId) (opening : Opening) : Prop :=
  w.history.openings[f]? = some (some opening)

/-- The chain of a frame matches scopes that are opened for these sites. -/
inductive Agrees (w : World) : FrameId → List Scope → List Site → Prop where
  | globals : Agrees w w.globals [] []
  | inside {f outer : FrameId} {scope : Scope} {opening : Opening} {scopes : List Scope}
      {sites : List Site} : w.heap.enclosing? f = some outer → w.openedFor f opening →
      (∀ name, scope.get? name = some true → (w.heap.local? f name).isSome) →
      Agrees w outer scopes sites → Agrees w f (scope :: scopes) (opening.site :: sites)

/-- A function that may be called. An initializer closes over the frame that it is bound in. -/
structure Callable (w : World) (f : Function) : Prop where
  closes : ∃ setting scopes sites, w.Visited ⟨.decl f.decl, setting, scopes, sites⟩ ∧
    w.Agrees f.closure scopes sites
  bound : f.isInitializer = true → ∃ i, w.openedFor f.closure (.this f.decl i)

/-- A method that is not bound yet: it closes over the frame around that of `this`. -/
def Unbound (w : World) (f : Function) : Prop :=
  ∃ setting scopes sites,
    w.Visited ⟨.decl f.decl, setting, wordScope "this" :: scopes, .this f.decl :: sites⟩ ∧
    w.Agrees f.closure scopes sites

/-- A value that is no function, or one that may be called. -/
def Sound (w : World) (v : Value) : Prop :=
  ∀ id, v = .function id → ∃ f, w.heap.functions[id]? = some f ∧ w.Callable f

/-- What a frame holds because of what it was opened for. -/
def Holds (w : World) (f : FrameId) : Opening → Prop
  | .this _ i => w.heap.local? f "this" = some (.instanceObj i)
  | .super _ _ c => w.heap.local? f "super" = some (.classObj c)
  | _ => True

/-- All programs are accepted ones, all values in the heap are sound, and its frames hold what they
must. -/
structure Ok (w : World) : Prop where
  accepted : ∀ program ∈ w.history.programs,
    (Point.root program).Accepted
  size : w.history.openings.length = w.heap.frames.size
  globals : w.history.openings[w.globals]? = some none
  values : ∀ f name v, w.heap.local? f name = some v → w.Sound v
  fields : ∀ i name v, w.heap.field? i name = some v → w.Sound v
  methods : ∀ (c : ClassId) cls name id, w.heap.classes[c]? = some cls →
    cls.methods.get? name = some id → ∃ f, w.heap.functions[id]? = some f ∧ w.Unbound f
  holds : ∀ f opening, w.openedFor f opening → w.Holds f opening

/-! ### Worlds that grow -/

/-- `w'` is what a script may have made of `w`. -/
structure Grows (w w' : World) : Prop where
  programs : ∀ program ∈ w.history.programs, program ∈ w'.history.programs
  openings : ∀ (f : FrameId) opening, w.history.openings[f]? = some opening →
    w'.history.openings[f]? = some opening
  heap : w.heap.Grows w'.heap
  globals : w'.globals = w.globals

theorem Grows.refl (w : World) : w.Grows w := ⟨fun _ => id, fun _ _ => id, .refl _, rfl⟩

theorem Grows.trans {w₁ w₂ w₃ : World} (h : w₁.Grows w₂) (h' : w₂.Grows w₃) : w₁.Grows w₃ where
  programs program hp := h'.programs program (h.programs program hp)
  openings f opening hf := h'.openings f opening (h.openings f opening hf)
  heap := h.heap.trans h'.heap
  globals := h'.globals.trans h.globals

section Mono

variable {w w' : World} (hle : w.Grows w')

include hle

theorem Visited.mono {p : Point} (h : w.Visited p) : w'.Visited p := by
  obtain ⟨program, hprogram, hvisits⟩ := h
  exact ⟨program, hle.programs program hprogram, hvisits⟩

theorem Agrees.mono {f : FrameId} {scopes : List Scope} {sites : List Site}
    (h : w.Agrees f scopes sites) : w'.Agrees f scopes sites := by
  induction h with
  | globals =>
      rw [← hle.globals]
      exact .globals
  | inside hlink hopened hbinds _ ih =>
      exact .inside (hle.heap.enclosing _ _ hlink) (hle.openings _ _ hopened)
        (fun name hname => hle.heap.binds _ _ (hbinds name hname)) ih

theorem Callable.mono {f : Function} (h : w.Callable f) : w'.Callable f := by
  obtain ⟨⟨setting, scopes, sites, hvisited, hagrees⟩, hbound⟩ := h
  refine ⟨⟨setting, scopes, sites, hvisited.mono hle, hagrees.mono hle⟩, fun hinit => ?_⟩
  obtain ⟨i, hopened⟩ := hbound hinit
  exact ⟨i, hle.openings _ _ hopened⟩

theorem Unbound.mono {f : Function} (h : w.Unbound f) : w'.Unbound f := by
  obtain ⟨setting, scopes, sites, hvisited, hagrees⟩ := h
  exact ⟨setting, scopes, sites, hvisited.mono hle, hagrees.mono hle⟩

theorem Sound.mono {v : Value} (h : w.Sound v) : w'.Sound v := by
  intro id hv
  obtain ⟨f, hf, hcallable⟩ := h id hv
  exact ⟨f, hle.heap.functions id f hf, hcallable.mono hle⟩

theorem Holds.mono {f : FrameId} {opening : Opening} (h : w.Holds f opening) :
    w'.Holds f opening := by
  cases opening with
  | this => exact hle.heap.words _ _ _ (.inl rfl) h
  | super => exact hle.heap.words _ _ _ (.inr rfl) h
  | block | body => trivial

/-- A world that grows stays sound if what is new in it is sound. -/
theorem Ok.mono (h : w.Ok) (hprograms : ∀ program ∈ w'.history.programs,
      program ∈ w.history.programs ∨ (Point.root program).Accepted)
    (hsize : w'.history.openings.length = w'.heap.frames.size)
    (hvalues : ∀ f name v, w'.heap.local? f name = some v →
      w.heap.local? f name = some v ∨ w'.Sound v)
    (hfields : ∀ i name v, w'.heap.field? i name = some v →
      w.heap.field? i name = some v ∨ w'.Sound v)
    (hmethods : ∀ (c : ClassId) cls, w'.heap.classes[c]? = some cls →
      w.heap.classes[c]? = some cls ∨ ∀ name id, cls.methods.get? name = some id →
        ∃ f, w'.heap.functions[id]? = some f ∧ w'.Unbound f)
    (hholds : ∀ f opening, w'.openedFor f opening → w.openedFor f opening ∨ w'.Holds f opening) :
    w'.Ok where
  accepted program hprogram := (hprograms program hprogram).elim (h.accepted program) id
  size := hsize
  globals := by
    rw [hle.globals]
    exact hle.openings _ _ h.globals
  values f name v hv := (hvalues f name v hv).elim (fun hv => (h.values f name v hv).mono hle) id
  fields i name v hv := (hfields i name v hv).elim (fun hv => (h.fields i name v hv).mono hle) id
  methods c cls name id hc hid := by
    rcases hmethods c cls hc with hc | hnew
    · obtain ⟨f, hf, hunbound⟩ := h.methods c cls name id hc hid
      exact ⟨f, hle.heap.functions id f hf, hunbound.mono hle⟩
    · exact hnew name id hid
  holds f opening hf :=
    (hholds f opening hf).elim (fun hf => (h.holds f opening hf).mono hle) id

end Mono

/-! ### Values that are no functions -/

theorem sound_of_ne {w : World} {v : Value} (h : ∀ id, v ≠ .function id) : w.Sound v :=
  fun id hv => absurd hv (h id)

@[simp]
theorem sound_nil (w : World) : w.Sound .nil := sound_of_ne nofun

@[simp]
theorem sound_bool (w : World) (b : Bool) : w.Sound (.bool b) := sound_of_ne nofun

@[simp]
theorem sound_number (w : World) (x : Float) : w.Sound (.number x) := sound_of_ne nofun

@[simp]
theorem sound_string (w : World) (s : String) : w.Sound (.string s) := sound_of_ne nofun

@[simp]
theorem sound_native (w : World) (f : Native) : w.Sound (.native f) := sound_of_ne nofun

@[simp]
theorem sound_classObj (w : World) (c : ClassId) : w.Sound (.classObj c) := sound_of_ne nofun

@[simp]
theorem sound_instanceObj (w : World) (i : InstanceId) : w.Sound (.instanceObj i) :=
  sound_of_ne nofun

/-! ### Points of accepted programs -/

theorem Visited.part {w : World} {p q : Point} (h : w.Visited p) (hq : q ∈ p.parts) :
    w.Visited q := by
  obtain ⟨program, hprogram, hvisits⟩ := h
  exact ⟨program, hprogram, hvisits.part hq⟩

theorem Visited.expr {w : World} {e e' : Expr} {setting : Setting} {scopes : List Scope}
    {sites : List Site} (h : w.Visited ⟨.expr e, setting, scopes, sites⟩) (he : e' ∈ e.parts) :
    w.Visited ⟨.expr e', setting, scopes, sites⟩ :=
  h.part (List.mem_map.mpr ⟨e', he, rfl⟩)

theorem Ok.visited {w : World} (h : w.Ok) {p : Point} (hp : w.Visited p) :
    p.Accepted ∧ p.Placed := by
  obtain ⟨program, hprogram, hvisits⟩ := hp
  exact hvisits.placed (h.accepted program hprogram)

/-! ### What scripts do to a world -/

theorem Ok.lt_size {w : World} (h : w.Ok) {f : FrameId} {scopes : List Scope} {sites : List Site}
    (hf : w.Agrees f scopes sites) : f < w.heap.frames.size := by
  rw [← h.size]
  cases hf with
  | globals => exact (List.getElem?_eq_some_iff.mp h.globals).1
  | inside _ hopened => exact (List.getElem?_eq_some_iff.mp hopened).1

section Operations

variable {w : World}

/-- Accepting a program adds its points to a world. -/
theorem Ok.accept (h : w.Ok) {program : Program}
    (haccepted : (Point.root program).Accepted) :
    w.Grows { w with history := w.history.accept program } ∧
      Ok { w with history := w.history.accept program } := by
  have hle : w.Grows { w with history := w.history.accept program } :=
    ⟨fun _ hp => List.mem_cons_of_mem _ hp, fun _ _ => id, .refl _, rfl⟩
  refine ⟨hle, h.mono hle ?_ h.size (fun _ _ _ => .inl) (fun _ _ _ => .inl) (fun _ _ => .inl)
    (fun _ _ => .inl)⟩
  intro other hother
  rcases List.mem_cons.mp hother with rfl | hother
  · exact .inr haccepted
  · exact .inl hother

/-- Binding a name. The value may be a function that closes over the frame. -/
theorem Ok.define (h : w.Ok) {f : FrameId} (hf : f < w.heap.frames.size) {name : String}
    (hname : Heap.IsWord name → w.heap.local? f name = none) {v : Value}
    (hv : ∀ {w'}, w.Grows w' → (w'.heap.local? f name).isSome → w'.Sound v) :
    w.Grows { w with heap := w.heap.define f name v } ∧
      Ok { w with heap := w.heap.define f name v } := by
  have hle : w.Grows { w with heap := w.heap.define f name v } :=
    ⟨fun _ => id, fun _ _ => id, .define hf hname v, rfl⟩
  have hsound := hv hle (by rw [Heap.local?_define _ hf, if_pos ⟨rfl, rfl⟩]; rfl)
  refine ⟨hle, h.mono hle (fun _ => .inl) (by simpa using h.size) ?_ (fun _ _ _ => .inl)
    (fun _ _ => .inl) (fun _ _ => .inl)⟩
  intro g other u hu
  simp only [Heap.local?_define _ hf] at hu
  split at hu
  · exact .inr (Option.some.inj hu ▸ hsound)
  · exact .inl hu

theorem Ok.newFunction (h : w.Ok) (f : Function) :
    w.Grows { w with heap := (w.heap.newFunction f).1 } ∧
      Ok { w with heap := (w.heap.newFunction f).1 } := by
  have hle : w.Grows { w with heap := (w.heap.newFunction f).1 } :=
    ⟨fun _ => id, fun _ _ => id, .newFunction _ f, rfl⟩
  exact ⟨hle, h.mono hle (fun _ => .inl) h.size (fun _ _ _ => .inl) (fun _ _ _ => .inl)
    (fun _ _ => .inl) (fun _ _ => .inl)⟩

theorem Ok.newInstance (h : w.Ok) (c : ClassId) :
    w.Grows { w with heap := (w.heap.newInstance c).1 } ∧
      Ok { w with heap := (w.heap.newInstance c).1 } := by
  have hle : w.Grows { w with heap := (w.heap.newInstance c).1 } :=
    ⟨fun _ => id, fun _ _ => id, .newInstance _ c, rfl⟩
  refine ⟨hle, h.mono hle (fun _ => .inl) h.size (fun _ _ _ => .inl) ?_ (fun _ _ => .inl)
    (fun _ _ => .inl)⟩
  intro i name v hv
  exact .inl (by rwa [Heap.field?_newInstance] at hv)

theorem Ok.setField (h : w.Ok) (i : InstanceId) (name : String) {v : Value} (hv : w.Sound v) :
    w.Grows { w with heap := w.heap.setField i name v } ∧
      Ok { w with heap := w.heap.setField i name v } := by
  have hle : w.Grows { w with heap := w.heap.setField i name v } :=
    ⟨fun _ => id, fun _ _ => id, .setField _ i name v, rfl⟩
  refine ⟨hle, h.mono hle (fun _ => .inl) h.size (fun _ _ _ => .inl) ?_ (fun _ _ => .inl)
    (fun _ _ => .inl)⟩
  intro j other u hu
  rcases Heap.field?_setField hu with hu | rfl
  · exact .inl hu
  · exact .inr (hv.mono hle)

theorem Ok.newClass (h : w.Ok) (cls : Class) (hcls : ∀ name id, cls.methods.get? name = some id →
    ∃ f, w.heap.functions[id]? = some f ∧ w.Unbound f) :
    w.Grows { w with heap := (w.heap.newClass cls).1 } ∧
      Ok { w with heap := (w.heap.newClass cls).1 } := by
  have hle : w.Grows { w with heap := (w.heap.newClass cls).1 } :=
    ⟨fun _ => id, fun _ _ => id, .newClass _ cls, rfl⟩
  refine ⟨hle, h.mono hle (fun _ => .inl) h.size (fun _ _ _ => .inl) (fun _ _ _ => .inl) ?_
    (fun _ _ => .inl)⟩
  intro c cls' hc
  simp only [Heap.newClass, Array.getElem?_push] at hc
  split at hc
  · obtain rfl := Option.some.inj hc
    refine .inr fun name id hid => ?_
    obtain ⟨f, hf, hunbound⟩ := hcls name id hid
    exact ⟨f, hf, hunbound.mono hle⟩
  · exact .inl hc

/-- The methods of a class are new functions that are not bound yet. -/
theorem Ok.newMethods (h : w.Ok) {closure : FrameId} {decls : List FunctionDecl}
    (methods : Bindings FunctionId) (hdecls : ∀ d ∈ decls, w.Unbound ⟨d, closure, d.isInit⟩)
    (hmethods : ∀ name id, methods.get? name = some id →
      ∃ f, w.heap.functions[id]? = some f ∧ w.Unbound f) :
    w.Grows { w with heap := (w.heap.newMethods closure decls methods).1 } ∧
      Ok { w with heap := (w.heap.newMethods closure decls methods).1 } ∧
      ∀ name id, (w.heap.newMethods closure decls methods).2.get? name = some id →
        ∃ f, (w.heap.newMethods closure decls methods).1.functions[id]? = some f ∧
          Unbound { w with heap := (w.heap.newMethods closure decls methods).1 } f := by
  induction decls generalizing w methods with
  | nil => exact ⟨.refl w, h, hmethods⟩
  | cons d decls ih =>
      obtain ⟨hle, hok⟩ := h.newFunction ⟨d, closure, d.isInit⟩
      have hinsert : ∀ name id,
          (methods.insert d.name.lexeme w.heap.functions.size).get? name = some id →
          ∃ f, (w.heap.newFunction ⟨d, closure, d.isInit⟩).1.functions[id]? = some f ∧
            Unbound { w with heap := (w.heap.newFunction ⟨d, closure, d.isInit⟩).1 } f := by
        intro name id hid
        rw [Bindings.get?_insert] at hid
        split at hid
        · obtain rfl := Option.some.inj hid
          exact ⟨_, Heap.newFunction_getElem? _ _, (hdecls d (by simp)).mono hle⟩
        · obtain ⟨f, hf, hunbound⟩ := hmethods name id hid
          exact ⟨f, hle.heap.functions id f hf, hunbound.mono hle⟩
      obtain ⟨hle', hrest⟩ := ih hok _ (fun d hd => (hdecls d (by simp [hd])).mono hle) hinsert
      exact ⟨hle.trans hle', hrest⟩

end Operations

/-! ### Opening a frame -/

/-- The world in which a frame is opened inside `outer`. -/
def opened (w : World) (outer : FrameId) (opening : Opening) : World :=
  ⟨w.history.extend [opening], (w.heap.newFrame (some outer)).1, w.globals⟩

/-- The world in which a frame that binds a word is opened inside `outer`. -/
def openedWith (w : World) (outer : FrameId) (opening : Opening) (word : String) (v : Value) :
    World :=
  { w.opened outer opening with
    heap := (w.heap.newFrame (some outer)).1.define w.heap.frames.size word v }

section Open

variable {w : World} (outer : FrameId) {opening : Opening}

theorem Ok.openings_opened (h : w.Ok) (opening : Opening) (f : FrameId) :
    (w.history.extend [opening]).openings[f]? =
      if f = w.heap.frames.size then some (some opening) else w.history.openings[f]? := by
  simp only [History.extend, List.map_cons, List.map_nil]
  rcases Nat.lt_trichotomy f w.history.openings.length with hlt | heq | hgt
  · rw [List.getElem?_append_left hlt, if_neg (by rw [← h.size]; exact Nat.ne_of_lt hlt)]
  · rw [if_pos (heq.trans h.size), heq]
    simp
  · rw [if_neg (by rw [← h.size]; exact Nat.ne_of_gt hgt), List.getElem?_eq_none,
      List.getElem?_eq_none (Nat.le_of_lt hgt)]
    simpa using Nat.succ_le_of_lt hgt

theorem Ok.grows_opened (h : w.Ok) (opening : Opening) : w.Grows (w.opened outer opening) where
  programs _ := id
  openings f o hf := by
    have hlt : f < w.heap.frames.size := h.size ▸ (List.getElem?_eq_some_iff.mp hf).1
    simp only [opened]
    rw [h.openings_opened, if_neg (Nat.ne_of_lt hlt), hf]
  heap := .newFrame _ _
  globals := rfl

theorem Ok.openedFor_opened (h : w.Ok) :
    (w.opened outer opening).openedFor w.heap.frames.size opening := by
  simp only [openedFor, opened]
  rw [h.openings_opened, if_pos rfl]

theorem Ok.openedFor_cases (h : w.Ok) {f : FrameId} {o : Opening}
    (hf : (w.opened outer opening).openedFor f o) :
    w.openedFor f o ∨ f = w.heap.frames.size ∧ o = opening := by
  simp only [openedFor, opened] at hf
  rw [h.openings_opened] at hf
  split at hf
  · exact .inr ⟨‹_›, by simpa using hf.symm⟩
  · exact .inl hf

theorem Ok.opened (h : w.Ok) (opening : Opening) (hopening : ∀ w' f, Holds w' f opening) :
    (w.opened outer opening).Ok := by
  refine h.mono (h.grows_opened outer opening) (fun _ => .inl) ?_ ?_ (fun _ _ _ => .inl)
    (fun _ _ => .inl) (fun f o hf => (h.openedFor_cases outer hf).imp id fun ⟨_, ho⟩ => by
      rw [ho]
      exact hopening _ _)
  · simp [World.opened, History.extend, h.size]
  · intro f name v hv
    exact .inl (by rwa [World.opened, Heap.local?_newFrame] at hv)

theorem local?_size (h : Heap) (name : String) : h.local? h.frames.size name = none := by
  cases hget : h.local? h.frames.size name with
  | none => rfl
  | some v => exact absurd (Heap.lt_size_of_local? hget) (Nat.lt_irrefl _)

variable {outer}

theorem Agrees.opened (h : w.Ok) {scopes : List Scope} {sites : List Site}
    (hagrees : w.Agrees outer scopes sites) :
    (w.opened outer opening).Agrees w.heap.frames.size (.empty :: scopes)
      (opening.site :: sites) := by
  refine .inside ?_ (h.openedFor_opened outer) (by simp)
    (hagrees.mono (h.grows_opened outer opening))
  rw [World.opened, Heap.enclosing?_newFrame, if_pos rfl]

variable {word : String} {v : Value}

theorem Ok.grows_openedWith (h : w.Ok) (outer : FrameId) :
    w.Grows (w.openedWith outer opening word v) where
  programs _ := id
  openings f o hf := (h.grows_opened outer opening).openings f o hf
  heap := (Heap.Grows.newFrame _ _).trans (.define (by simp)
    (fun _ => by rw [Heap.local?_newFrame, local?_size]) v)
  globals := rfl

theorem local?_openedWith (w : World) (outer : FrameId) (opening : Opening) (word : String)
    (v : Value) (f : FrameId) (name : String) :
    (w.openedWith outer opening word v).heap.local? f name =
      if f = w.heap.frames.size ∧ name = word then some v else w.heap.local? f name := by
  rw [openedWith, Heap.local?_define _ (by simp), Heap.local?_newFrame]

theorem Ok.openedWith (h : w.Ok) (hv : w.Sound v)
    (hholds : (w.openedWith outer opening word v).Holds w.heap.frames.size opening) :
    (w.openedWith outer opening word v).Ok := by
  refine h.mono (h.grows_openedWith outer) (fun _ => .inl) ?_ ?_ (fun _ _ _ => .inl)
    (fun _ _ => .inl) ?_
  · simp [World.openedWith, World.opened, History.extend, h.size]
  · intro f name u hu
    rw [local?_openedWith] at hu
    split at hu
    · exact .inr (Option.some.inj hu ▸ hv.mono (h.grows_openedWith outer))
    · exact .inl hu
  · intro f o hf
    refine (h.openedFor_cases outer hf).imp id ?_
    rintro ⟨rfl, rfl⟩
    exact hholds

theorem Agrees.openedWith (h : w.Ok) {scopes : List Scope} {sites : List Site}
    (hagrees : w.Agrees outer scopes sites) :
    (w.openedWith outer opening word v).Agrees w.heap.frames.size (wordScope word :: scopes)
      (opening.site :: sites) := by
  refine .inside ?_ (h.openedFor_opened outer) (fun name hname => ?_)
    (hagrees.mono (h.grows_openedWith outer))
  · rw [World.openedWith, Heap.enclosing?_define, Heap.enclosing?_newFrame, if_pos rfl]
  · rw [local?_openedWith, if_pos ⟨rfl, (get?_wordScope hname).1⟩]
    rfl

end Open

/-! ### Declaring names in a frame -/

theorem Agrees.declareIn {w : World} {f : FrameId} {scopes : List Scope} {sites : List Site}
    (h : w.Agrees f scopes sites) (name : String) :
    w.Agrees f (declareIn name scopes) sites := by
  cases h with
  | globals => exact .globals
  | inside hlink hopened hbinds houter =>
      refine .inside hlink hopened (fun other hother => hbinds other ?_) houter
      rename_i scope _ _ _
      by_cases hne : other = name
      · subst hne
        unfold declaring at hother
        split at hother
        · exact hother
        · simp at hother
      · rwa [get?_declaring hne] at hother

theorem Agrees.completeIn {w : World} {f : FrameId} {scopes : List Scope} {sites : List Site}
    (h : w.Agrees f scopes sites) {name : String} (hname : (w.heap.local? f name).isSome) :
    w.Agrees f (completeIn name scopes) sites := by
  cases h with
  | globals => exact .globals
  | inside hlink hopened hbinds houter =>
      refine .inside hlink hopened (fun other hother => ?_) houter
      rw [Bindings.get?_insert] at hother
      split at hother
      · rename_i heq
        exact heq ▸ hname
      · exact hbinds other hother

end World

end ScriptLang
