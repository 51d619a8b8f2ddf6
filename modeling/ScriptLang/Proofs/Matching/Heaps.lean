import ScriptLang.Proofs.Frames.Growth
import ScriptLang.Proofs.Matching.Trees

/-! Heaps that match: their frames hold the same values, in some frames one name for another, and
their functions have declarations that match. What is done to both keeps them so. -/

namespace ScriptLang

/-! ### Names in frames -/

namespace Bindings

variable {α : Type} {ρ : String → String}

/-- The same entries under other names. -/
def rename (ρ : String → String) (b : Bindings α) : Bindings α :=
  ⟨b.entries.map fun entry => (ρ entry.1, entry.2)⟩

theorem get?_rename (hρ : Function.Injective ρ) (b : Bindings α) (n : String) :
    (b.rename ρ).get? (ρ n) = b.get? n := by
  obtain ⟨entries⟩ := b
  induction entries with
  | nil => rfl
  | cons entry entries ih =>
      simp only [rename, get?, List.map_cons, findEntry, hρ.eq_iff] at ih ⊢
      rw [ih]

theorem insert_rename (hρ : Function.Injective ρ) (b : Bindings α) (n : String) (a : α) :
    (b.rename ρ).insert (ρ n) a = (b.insert n a).rename ρ := by
  obtain ⟨entries⟩ := b
  induction entries with
  | nil => rfl
  | cons entry entries ih =>
      simp only [rename, insert, List.map_cons, insertEntry, hρ.eq_iff, mk.injEq] at ih ⊢
      split
      · rfl
      · rw [ih, List.map_cons]

end Bindings

/-- What a name is called in a frame at this place. -/
def Matching.nameIn (μ : Matching) (k : Place) (n : String) : String :=
  if k = some 0 then μ.name n else n

namespace Matching

variable {μ : Matching} {k : Place}

theorem nameIn_injective (μ : Matching) (k : Place) : Function.Injective (μ.nameIn k) := by
  unfold nameIn
  intro n m h
  split at h
  · exact μ.name_injective h
  · exact h

theorem nameIn_eq {n : String} (h : k = some 0 → μ.Fixes n) : μ.nameIn k n = n := by
  unfold nameIn
  split
  · rename_i hk
    exact (h hk).name_eq
  · rfl

theorem Fixes.nameIn_eq {n : String} (h : μ.Fixes n) : μ.nameIn k n = n :=
  Matching.nameIn_eq fun _ => h

theorem Names.lexeme {here : Prop} {t t' : Token} (h : μ.Names here t t')
    (hhere : here ↔ k = some 0) : t'.lexeme = μ.nameIn k t.lexeme := by
  by_cases hk : k = some 0
  · rw [nameIn, if_pos hk]
    exact h.lexeme_of_here (hhere.mpr hk)
  · rw [nameIn, if_neg hk, h.eq_of_not_here (mt hhere.mp hk)]

end Matching

/-! ### What matches -/

/-- What is known of the frames and functions of two heaps that match: where each frame sees
the other name, and which functions are values. Other functions are methods still to be bound. -/
structure Layout where
  place : FrameId → Place → Prop
  bound : FunctionId → Prop

/-- A layout that knows more. -/
structure Layout.Extends (L' L : Layout) : Prop where
  place {f : FrameId} {k : Place} : L.place f k → L'.place f k
  bound {id : FunctionId} : L.bound id → L'.bound id

/-- A value that is no method still to be bound. -/
def Value.Proper (L : Layout) (v : Value) : Prop := ∀ id, v = .function id → L.bound id

section Relations

variable (μ : Matching) (L : Layout)

structure Frame.Matches (k : Place) (fr fr' : Frame) : Prop where
  bindings : fr'.bindings = fr.bindings.rename (μ.nameIn k)
  enclosing : fr'.enclosing = fr.enclosing
  opens : ∀ outer, fr.enclosing = some outer → ∃ j : Place, L.place outer j ∧ j.Opens k
  values : ∀ n v, fr.bindings.get? n = some v → v.Proper L

/-- Functions with declarations that match in a frame at `k` or, for methods that are not bound
yet, in a frame inside that one. -/
structure Function.MatchesAt (inside : Place → Place) (f f' : Function) : Prop where
  closure : f'.closure = f.closure
  isInitializer : f'.isInitializer = f.isInitializer
  decl : ∃ k, L.place f.closure k ∧ f.decl.Matches μ (inside k) f'.decl

/-- Functions that match and may be called. -/
def Function.Matches : Function → Function → Prop := Function.MatchesAt μ L id

/-- Methods that match and are still to be bound. -/
def Function.Awaits : Function → Function → Prop := Function.MatchesAt μ L Place.inner

structure Heap.Matches (h h' : Heap) : Prop where
  frames_size : h'.frames.size = h.frames.size
  frame {f : FrameId} {k : Place} : L.place f k →
    ∃ fr fr', h.frames[f]? = some fr ∧ h'.frames[f]? = some fr' ∧ fr.Matches μ L k fr'
  unique {f : FrameId} {j k : Place} : L.place f j → L.place f k → j = k
  functions_size : h'.functions.size = h.functions.size
  function {id : FunctionId} : L.bound id →
    ∃ f f', h.functions[id]? = some f ∧ h'.functions[id]? = some f' ∧ f.Matches μ L f'
  classes : h'.classes = h.classes
  method {c : ClassId} {cls : Class} {n : String} {id : FunctionId} :
    h.classes[c]? = some cls → cls.methods.get? n = some id →
    ∃ f f', h.functions[id]? = some f ∧ h'.functions[id]? = some f' ∧ f.Awaits μ L f'
  instances : h'.instances = h.instances
  field {i : InstanceId} {n : String} {v : Value} : h.field? i n = some v → v.Proper L

/-- Names of methods that match and are still to be bound. -/
def Bindings.AwaitEach (h h' : Heap) (methods : Bindings FunctionId) : Prop :=
  ∀ n id, methods.get? n = some id →
    ∃ f f', h.functions[id]? = some f ∧ h'.functions[id]? = some f' ∧ f.Awaits μ L f'

end Relations

/-! ### More is known -/

section Extends

variable {μ μ' : Matching} {L L' : Layout}

theorem Layout.Extends.refl (L : Layout) : L.Extends L := ⟨id, id⟩

theorem Layout.Extends.trans {L'' : Layout} (h' : L''.Extends L') (h : L'.Extends L) :
    L''.Extends L :=
  ⟨h'.place ∘ h.place, h'.bound ∘ h.bound⟩

theorem Value.Proper.mono (hL : L'.Extends L) {v : Value} (h : v.Proper L) : v.Proper L' :=
  fun id hid => hL.bound (h id hid)

theorem Frame.Matches.mono (hL : L'.Extends L) {k : Place} {fr fr' : Frame}
    (h : fr.Matches μ L k fr') : fr.Matches μ L' k fr' where
  bindings := h.bindings
  enclosing := h.enclosing
  opens outer houter := by
    obtain ⟨j, hj, hopens⟩ := h.opens outer houter
    exact ⟨j, hL.place hj, hopens⟩
  values n v hv := (h.values n v hv).mono hL

theorem Function.MatchesAt.mono (hμ : μ'.Extends μ) (hL : L'.Extends L) {inside : Place → Place}
    {f f' : Function} (h : f.MatchesAt μ L inside f') : f.MatchesAt μ' L' inside f' := by
  obtain ⟨k, hk, hdecl⟩ := h.decl
  exact { h with decl := ⟨k, hL.place hk, hdecl.mono hμ⟩ }

theorem Matching.Extends.refl (μ : Matching) : μ.Extends μ := ⟨rfl, rfl, id⟩

end Extends

/-! ### Looking into the heap -/

namespace Heap.Matches

variable {μ : Matching} {L : Layout} {h h' : Heap} (hh : h.Matches μ L h')
include hh

theorem lt_size {f : FrameId} {k : Place} (hf : L.place f k) : f < h.frames.size := by
  obtain ⟨fr, -, hfr, -⟩ := hh.frame hf
  exact (Array.getElem?_eq_some_iff.mp hfr).1

theorem enclosing? {f : FrameId} {k : Place} (hf : L.place f k) :
    h'.enclosing? f = h.enclosing? f := by
  obtain ⟨fr, fr', hfr, hfr', hframe⟩ := hh.frame hf
  simp [Heap.enclosing?, hfr, hfr', hframe.enclosing]

theorem place_enclosing? {f outer : FrameId} {k : Place} (hf : L.place f k)
    (houter : h.enclosing? f = some outer) : ∃ j : Place, L.place outer j ∧ j.Opens k := by
  obtain ⟨fr, fr', hfr, -, hframe⟩ := hh.frame hf
  apply hframe.opens
  simpa [Heap.enclosing?, hfr] using houter

theorem local? {f : FrameId} {k : Place} (hf : L.place f k) (n : String) :
    h'.local? f (μ.nameIn k n) = h.local? f n := by
  obtain ⟨fr, fr', hfr, hfr', hframe⟩ := hh.frame hf
  simp [Heap.local?, hfr, hfr', hframe.bindings, Bindings.get?_rename (μ.nameIn_injective k)]

theorem proper_local? {f : FrameId} {k : Place} (hf : L.place f k) {n : String} {v : Value}
    (hv : h.local? f n = some v) : v.Proper L := by
  obtain ⟨fr, fr', hfr, -, hframe⟩ := hh.frame hf
  apply hframe.values n
  simpa [Heap.local?, hfr] using hv

/-- The frame that a hop count leads to has the other name if that is the hop count to it. -/
theorem ancestor? {f : FrameId} {k : Place} (hf : L.place f k) (d : Nat) :
    h'.ancestor? f d = h.ancestor? f d ∧ ∀ g, h.ancestor? f d = some g →
      ∃ j : Place, L.place g j ∧ (k = some d ↔ j = some 0) := by
  induction d generalizing f k with
  | zero =>
      refine ⟨rfl, ?_⟩
      rintro g ⟨⟩
      exact ⟨k, hf, Iff.rfl⟩
  | succ d ih =>
      simp only [Heap.ancestor?, hh.enclosing? hf]
      cases houter : h.enclosing? f with
      | none => simp
      | some outer =>
          obtain ⟨i, hi, hopens⟩ := hh.place_enclosing? hf houter
          obtain ⟨hsame, hplace⟩ := ih hi
          refine ⟨hsame, fun g hg => ?_⟩
          obtain ⟨j, hj, hiff⟩ := hplace g hg
          refine ⟨j, hj, Iff.trans ?_ hiff⟩
          cases hopens with
          | plain => cases i <;> simp [Place.inner]
          | renamed => simp

/-- Where a name is looked up: in the frame that a hop count leads to. -/
theorem getAt? {f : FrameId} {k : Place} (hf : L.place f k) {d : Nat} {t t' : Token}
    (ht : μ.Names (k.At (some d)) t t') :
    h'.getAt? f d t'.lexeme = h.getAt? f d t.lexeme ∧
      ∀ v, h.getAt? f d t.lexeme = some v → v.Proper L := by
  obtain ⟨hsame, hplace⟩ := hh.ancestor? hf d
  simp only [Heap.getAt?, hsame]
  cases hg : h.ancestor? f d with
  | none => exact ⟨rfl, nofun⟩
  | some g =>
      obtain ⟨j, hj, hiff⟩ := hplace g hg
      rw [ht.lexeme (Place.at_some.trans hiff)]
      exact ⟨hh.local? hj t.lexeme, fun v hv => hh.proper_local? hj hv⟩

theorem getAt?_fixed {f : FrameId} {k : Place} (hf : L.place f k) (d : Nat) {n : String}
    (hn : μ.Fixes n) : h'.getAt? f d n = h.getAt? f d n := by
  have hname : μ.Names (k.At (some d)) ⟨.identifier, n, 0⟩ ⟨.identifier, n, 0⟩ := .same fun _ => hn
  exact (hh.getAt? hf hname).1

theorem binderAt? {f : FrameId} {k : Place} (hf : L.place f k) {d : Nat} {t t' : Token}
    (ht : μ.Names (k.At (some d)) t t') :
    h'.binderAt? f d t'.lexeme = h.binderAt? f d t.lexeme ∧
      ∀ g, h.binderAt? f d t.lexeme = some g →
        ∃ j : Place, L.place g j ∧ t'.lexeme = μ.nameIn j t.lexeme := by
  obtain ⟨hsame, hplace⟩ := hh.ancestor? hf d
  simp only [Heap.binderAt?, hsame]
  cases hg : h.ancestor? f d with
  | none => exact ⟨rfl, nofun⟩
  | some g =>
      obtain ⟨j, hj, hiff⟩ := hplace g hg
      have hname := ht.lexeme (Place.at_some.trans hiff)
      constructor
      · simp only [hname, hh.local? hj]
      · intro g' hg'
        refine ⟨j, ?_, hname⟩
        dsimp only at hg'
        split at hg'
        · cases hg'
          exact hj
        · cases hg'

/-- On a chain without the other name all names are looked up alike. -/
theorem binderWithin {f : FrameId} (hf : L.place f none) (n : String) (m : Nat) :
    h'.binderWithin n m f = h.binderWithin n m f ∧
      ∀ g, h.binderWithin n m f = some g → L.place g none := by
  induction m generalizing f with
  | zero => exact ⟨rfl, nofun⟩
  | succ m ih =>
      have hlocal : h'.local? f n = h.local? f n := hh.local? hf n
      simp only [Heap.binderWithin, hlocal, hh.enclosing? hf]
      by_cases hbound : (h.local? f n).isSome
      · rw [if_pos hbound, if_pos hbound]
        refine ⟨rfl, ?_⟩
        rintro g ⟨⟩
        exact hf
      · rw [if_neg hbound, if_neg hbound]
        cases houter : h.enclosing? f with
        | none => exact ⟨rfl, nofun⟩
        | some outer =>
            obtain ⟨j, hj, hopens⟩ := hh.place_enclosing? hf houter
            obtain rfl := hopens.eq_none rfl
            exact ih hj

theorem binder? {f : FrameId} (hf : L.place f none) (n : String) :
    h'.binder? f n = h.binder? f n ∧ ∀ g, h.binder? f n = some g → L.place g none := by
  simp only [Heap.binder?, hh.frames_size]
  exact hh.binderWithin hf n _

theorem get? {f : FrameId} (hf : L.place f none) (n : String) :
    h'.get? f n = h.get? f n ∧ ∀ v, h.get? f n = some v → v.Proper L := by
  obtain ⟨hsame, hplace⟩ := hh.binder? hf n
  simp only [Heap.get?, hsame]
  cases hg : h.binder? f n with
  | none => exact ⟨rfl, nofun⟩
  | some g =>
      have hlocal : h'.local? g n = h.local? g n := hh.local? (hplace g hg) n
      exact ⟨hlocal, fun v hv => hh.proper_local? (hplace g hg) hv⟩

theorem field? (i : InstanceId) (n : String) : h'.field? i n = h.field? i n := by
  simp only [Heap.field?, hh.instances]

theorem method? (c : ClassId) (n : String) :
    Option.Rel (Function.Awaits μ L) (h.method? c n) (h'.method? c n) := by
  have hfound (m : Nat) : ∀ c id, h.methodWithin n m c = some id →
      ∃ f f', h.functions[id]? = some f ∧ h'.functions[id]? = some f' ∧ f.Awaits μ L f' := by
    induction m with
    | zero => exact fun _ _ => nofun
    | succ m ih =>
        intro c id hid
        unfold methodWithin at hid
        split at hid
        · cases hid
        · rename_i cls hcls
          split at hid
          · rename_i f hf
            cases hid
            exact hh.method hcls hf
          · split at hid
            · exact ih _ id hid
            · cases hid
  simp only [Heap.method?, Heap.findMethod?, methodWithin_congr hh.classes, hh.classes]
  cases hid : h.methodWithin n h.classes.size c with
  | none => exact .none
  | some id =>
      obtain ⟨f, f', hf, hf', hawaits⟩ := hfound _ c id hid
      simp only [Option.bind_some, hf, hf']
      exact .some hawaits

theorem classArity (c : ClassId) : h'.classArity c = h.classArity c := by
  have hmethod := hh.method? c initName
  unfold Heap.classArity
  generalize h.method? c initName = f at hmethod ⊢
  generalize h'.method? c initName = f' at hmethod ⊢
  cases hmethod with
  | none => rfl
  | some hf =>
      obtain ⟨k, -, hdecl⟩ := hf.decl
      exact hdecl.arity

theorem display {v : Value} (hv : v.Proper L) : h'.display v = h.display v := by
  cases v with
  | function id =>
      obtain ⟨f, f', hf, hf', hmatch⟩ := hh.function (hv id rfl)
      obtain ⟨k, -, hdecl⟩ := hmatch.decl
      simp only [Heap.display, hf, hf', Option.map_some, hdecl.name]
  | classObj c => simp only [Heap.display, Heap.className, hh.classes]
  | instanceObj i => simp only [Heap.display, Heap.className, hh.classes, hh.instances]
  | _ => rfl

/-! ### Changing the heap -/

theorem define {f : FrameId} {k : Place} (hf : L.place f k) (n : String) {v : Value}
    (hv : v.Proper L) : (h.define f n v).Matches μ L (h'.define f (μ.nameIn k n) v) where
  frames_size := by simp [hh.frames_size]
  frame {g j} hg := by
    obtain ⟨fr, fr', hfr, hfr', hframe⟩ := hh.frame hg
    by_cases hgf : f = g
    · subst hgf
      obtain rfl := hh.unique hf hg
      refine ⟨{ fr with bindings := fr.bindings.insert n v },
        { fr' with bindings := fr'.bindings.insert (μ.nameIn k n) v }, ?_, ?_, ?_⟩
      · simp [Heap.define, Array.getElem?_modify, hfr]
      · simp [Heap.define, Array.getElem?_modify, hfr']
      · refine ⟨?_, hframe.enclosing, hframe.opens, fun m u hu => ?_⟩
        · simp only [hframe.bindings, Bindings.insert_rename (μ.nameIn_injective k)]
        · rw [Bindings.get?_insert] at hu
          split at hu
          · cases hu
            exact hv
          · exact hframe.values m u hu
    · refine ⟨fr, fr', ?_, ?_, hframe⟩
      · simp [Heap.define, Array.getElem?_modify, hfr, hgf]
      · simp [Heap.define, Array.getElem?_modify, hfr', hgf]
  unique := hh.unique
  functions_size := hh.functions_size
  function := hh.function
  classes := hh.classes
  method := hh.method
  instances := hh.instances
  field := hh.field

theorem function_mono {L' : Layout} (hL : L'.Extends L) {id : FunctionId} (hid : L.bound id) :
    ∃ f f', h.functions[id]? = some f ∧ h'.functions[id]? = some f' ∧ f.Matches μ L' f' := by
  obtain ⟨f, f', hf, hf', hmatch⟩ := hh.function hid
  exact ⟨f, f', hf, hf', hmatch.mono (.refl μ) hL⟩

theorem method_mono {L' : Layout} (hL : L'.Extends L) {c : ClassId} {cls : Class} {n : String}
    {id : FunctionId} (hcls : h.classes[c]? = some cls) (hid : cls.methods.get? n = some id) :
    ∃ f f', h.functions[id]? = some f ∧ h'.functions[id]? = some f' ∧ f.Awaits μ L' f' := by
  obtain ⟨f, f', hf, hf', hmatch⟩ := hh.method hcls hid
  exact ⟨f, f', hf, hf', hmatch.mono (.refl μ) hL⟩

theorem newFrame {outer : FrameId} {j k : Place} (houter : L.place outer j) (hopens : j.Opens k) :
    ∃ L' : Layout, L'.Extends L ∧ L'.place h.frames.size k ∧
      (h.newFrame (some outer)).1.Matches μ L' (h'.newFrame (some outer)).1 := by
  let L' : Layout :=
    { L with place := fun f i => L.place f i ∨ f = h.frames.size ∧ i = k }
  have hL : L'.Extends L := ⟨.inl, id⟩
  have hfresh {f : FrameId} {i : Place} (hf : L.place f i) : f ≠ h.frames.size :=
    Nat.ne_of_lt (hh.lt_size hf)
  refine ⟨L', hL, .inr ⟨rfl, rfl⟩, ?_⟩
  exact
    { frames_size := by simp [hh.frames_size]
      frame := by
        rintro f i (hf | ⟨rfl, rfl⟩)
        · obtain ⟨fr, fr', hfr, hfr', hframe⟩ := hh.frame hf
          refine ⟨fr, fr', ?_, ?_, hframe.mono hL⟩
          · simpa [Heap.newFrame, Array.getElem?_push, hfresh hf] using hfr
          · simpa [Heap.newFrame, Array.getElem?_push, hh.frames_size, hfresh hf] using hfr'
        · refine ⟨⟨.empty, some outer⟩, ⟨.empty, some outer⟩, ?_, ?_, rfl, rfl, ?_, ?_⟩
          · simp [Heap.newFrame]
          · simp [Heap.newFrame, ← hh.frames_size]
          · rintro _ ⟨⟩
            exact ⟨j, .inl houter, hopens⟩
          · simp [Bindings.get?_empty]
      unique := by
        rintro f i i' (hi | ⟨rfl, rfl⟩) (hi' | ⟨hf, rfl⟩)
        · exact hh.unique hi hi'
        · exact absurd hf (hfresh hi)
        · exact absurd rfl (hfresh hi')
        · rfl
      functions_size := hh.functions_size
      function := hh.function_mono hL
      classes := hh.classes
      method := hh.method_mono hL
      instances := hh.instances
      field := fun hv => (hh.field hv).mono hL }

theorem functions_push {f f' g g' : Function} {id : FunctionId} (hg : h.functions[id]? = some g)
    (hg' : h'.functions[id]? = some g') :
    (h.newFunction f).1.functions[id]? = some g ∧
      (h'.newFunction f').1.functions[id]? = some g' := by
  have hlt := (Array.getElem?_eq_some_iff.mp hg).1
  simp [Heap.newFunction, Array.getElem?_push, hh.functions_size, Nat.ne_of_lt hlt, hg, hg']

/-- A method that is not bound yet is no value. -/
theorem newMethod {f f' : Function} : (h.newFunction f).1.Matches μ L (h'.newFunction f').1 where
  frames_size := hh.frames_size
  frame := hh.frame
  unique := hh.unique
  functions_size := by simp [Heap.newFunction, hh.functions_size]
  function hid := by
    obtain ⟨g, g', hg, hg', hmatch⟩ := hh.function hid
    obtain ⟨hpush, hpush'⟩ := hh.functions_push hg hg'
    exact ⟨g, g', hpush, hpush', hmatch⟩
  classes := hh.classes
  method hcls hid := by
    obtain ⟨g, g', hg, hg', hmatch⟩ := hh.method hcls hid
    obtain ⟨hpush, hpush'⟩ := hh.functions_push hg hg'
    exact ⟨g, g', hpush, hpush', hmatch⟩
  instances := hh.instances
  field := hh.field

theorem newFunction {f f' : Function} (hf : f.Matches μ L f') :
    ∃ L' : Layout, L'.Extends L ∧ L'.bound h.functions.size ∧
      (h.newFunction f).1.Matches μ L' (h'.newFunction f').1 := by
  let L' : Layout := { L with bound := fun id => L.bound id ∨ id = h.functions.size }
  have hL : L'.Extends L := ⟨id, .inl⟩
  have hmethod : (h.newFunction f).1.Matches μ L (h'.newFunction f').1 := hh.newMethod
  refine ⟨L', hL, .inr rfl, ?_⟩
  exact
    { hmethod with
      frame := fun hg => by
        obtain ⟨fr, fr', hfr, hfr', hframe⟩ := hh.frame hg
        exact ⟨fr, fr', hfr, hfr', hframe.mono hL⟩
      function := by
        rintro id (hid | rfl)
        · exact hmethod.function_mono hL hid
        · refine ⟨f, f', ?_, ?_, hf.mono (.refl μ) hL⟩
          · simp [Heap.newFunction]
          · simp [Heap.newFunction, ← hh.functions_size]
      method := hmethod.method_mono hL
      field := fun hv => (hh.field hv).mono hL }

theorem newClass {cls : Class} (hmethods : cls.methods.AwaitEach μ L h h') :
    (h.newClass cls).1.Matches μ L (h'.newClass cls).1 where
  frames_size := hh.frames_size
  frame := hh.frame
  unique := hh.unique
  functions_size := hh.functions_size
  function := hh.function
  classes := by simp [Heap.newClass, hh.classes]
  method {c _ n id} hcls hid := by
    simp only [Heap.newClass, Array.getElem?_push] at hcls
    split at hcls
    · cases hcls
      exact hmethods n id hid
    · exact hh.method hcls hid
  instances := hh.instances
  field := hh.field

theorem newInstance (c : ClassId) : (h.newInstance c).1.Matches μ L (h'.newInstance c).1 :=
  { hh with
    instances := by simp [Heap.newInstance, hh.instances]
    field := fun hv => hh.field (by rwa [field?_newInstance] at hv) }

theorem setField (i : InstanceId) (n : String) {v : Value} (hv : v.Proper L) :
    (h.setField i n v).Matches μ L (h'.setField i n v) :=
  { hh with
    instances := by simp [Heap.setField, hh.instances]
    field := fun hu => by
      rcases field?_setField hu with hu | rfl
      · exact hh.field hu
      · exact hv }

theorem bindMethod {f f' : Function} (hf : f.Awaits μ L f') (i : InstanceId) :
    ∃ L' : Layout, L'.Extends L ∧ (h.bindMethod f i).1.Matches μ L' (h'.bindMethod f' i).1 ∧
      (h.bindMethod f i).2.Matches μ L' (h'.bindMethod f' i).2 := by
  obtain ⟨k, hk, hdecl⟩ := hf.decl
  obtain ⟨L', hL, hframe, hheap⟩ := hh.newFrame hk (.plain k)
  have hthis := hheap.define hframe "this" (v := .instanceObj i) nofun
  rw [Matching.fixes_this.nameIn_eq] at hthis
  refine ⟨L', hL, ?_, ?_⟩
  · simpa [Heap.bindMethod, hf.closure, hh.frames_size] using hthis
  · exact ⟨by simp [Heap.bindMethod, hh.frames_size], hf.isInitializer, _, hframe, hdecl⟩

omit hh in
theorem newMethods {closure : FrameId} {k : Place} (hclosure : L.place closure k)
    {ds ds' : List FunctionDecl} (hds : FunctionDecl.MatchesEach μ k.inner ds ds') {h h' : Heap}
    (hh : h.Matches μ L h') {methods : Bindings FunctionId}
    (hmethods : methods.AwaitEach μ L h h') :
    let made := h.newMethods closure ds methods
    let made' := h'.newMethods closure ds' methods
    made.1.Matches μ L made'.1 ∧ made'.2 = made.2 ∧ made.2.AwaitEach μ L made.1 made'.1 := by
  induction ds generalizing ds' h h' methods with
  | nil =>
      cases hds
      exact ⟨hh, rfl, hmethods⟩
  | cons d ds ih =>
      cases hds with
      | @cons _ _ d' _ ds' hd hds =>
          let f : Function := ⟨d, closure, d.isInit⟩
          let f' : Function := ⟨d', closure, d'.isInit⟩
          have hf : f.Awaits μ L f' := ⟨rfl, hd.isInit, k, hclosure, hd⟩
          have hheap : (h.newFunction f).1.Matches μ L (h'.newFunction f').1 := hh.newMethod
          have hnew : (methods.insert d.name.lexeme h.functions.size).AwaitEach μ L
              (h.newFunction f).1 (h'.newFunction f').1 := by
            intro n id hid
            rw [Bindings.get?_insert] at hid
            split at hid
            · cases hid
              refine ⟨f, f', ?_, ?_, hf⟩
              · simp [Heap.newFunction]
              · simp [Heap.newFunction, ← hh.functions_size]
            · obtain ⟨g, g', hg, hg', hawaits⟩ := hmethods n id hid
              obtain ⟨hpush, hpush'⟩ := hh.functions_push hg hg'
              exact ⟨g, g', hpush, hpush', hawaits⟩
          have hmade := ih hds hheap hnew
          have hmade' : h'.newMethods closure (d' :: ds') methods =
              (h'.newFunction f').1.newMethods closure ds'
                (methods.insert d.name.lexeme h.functions.size) := by
            rw [← hh.functions_size, ← hd.name]
            rfl
          simp only [hmade']
          exact hmade

theorem makeClass {f closure : FrameId} {j k : Place} (hf : L.place f j)
    (hclosure : L.place closure k) {name : String} (hname : j = some 0 → μ.Fixes name)
    (superclass : Option ClassId) {ds ds' : List FunctionDecl}
    (hds : FunctionDecl.MatchesEach μ k.inner ds ds') :
    let made := h.newMethods closure ds .empty
    let made' := h'.newMethods closure ds' .empty
    let cls := made.1.newClass ⟨name, superclass, made.2⟩
    let cls' := made'.1.newClass ⟨name, superclass, made'.2⟩
    (cls.1.define f name (.classObj cls.2)).Matches μ L
      (cls'.1.define f name (.classObj cls'.2)) := by
  intro made made' cls cls'
  have hempty : Bindings.AwaitEach μ L h h' .empty := nofun
  obtain ⟨hmethods, heq, hawait⟩ := newMethods hclosure hds hh hempty
  let new : Class := ⟨name, superclass, made.2⟩
  have hnew : new.methods.AwaitEach μ L made.1 made'.1 := hawait
  have hheap := hmethods.newClass hnew
  have hcls : cls' = made'.1.newClass ⟨name, superclass, made.2⟩ := by
    simp only [cls', made', made, heq]
  have hid : cls'.2 = cls.2 := congrArg Array.size hmethods.classes
  have hdefine := hheap.define hf name (v := .classObj cls.2) nofun
  rw [Matching.nameIn_eq hname] at hdefine
  rw [hcls] at hid ⊢
  rw [hid]
  exact hdefine

end Heap.Matches

end ScriptLang
