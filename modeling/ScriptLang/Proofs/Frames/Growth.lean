import ScriptLang.Heap

/-! A heap only grows. What is made stays, links between frames stay, and a name that is bound
stays bound; what `this` and `super` stand for in a frame stays too, as long as no script binds
these words. -/

namespace ScriptLang

namespace Heap

/-- A word that only methods and classes bind. -/
def IsWord (name : String) : Prop := name = "this" ∨ name = "super"

/-- `h'` is what a script may have made of `h`. -/
structure Grows (h h' : Heap) : Prop where
  enclosing : ∀ f outer, h.enclosing? f = some outer → h'.enclosing? f = some outer
  binds : ∀ f name, (h.local? f name).isSome → (h'.local? f name).isSome
  words : ∀ f name v, IsWord name → h.local? f name = some v → h'.local? f name = some v
  functions : ∀ (id : FunctionId) f, h.functions[id]? = some f → h'.functions[id]? = some f
  classes : ∀ (c : ClassId) cls, h.classes[c]? = some cls → h'.classes[c]? = some cls

namespace Grows

theorem refl (h : Heap) : h.Grows h :=
  ⟨fun _ _ => id, fun _ _ => id, fun _ _ _ _ => id, fun _ _ => id, fun _ _ => id⟩

theorem trans {h₁ h₂ h₃ : Heap} (h : h₁.Grows h₂) (h' : h₂.Grows h₃) : h₁.Grows h₃ where
  enclosing f outer hf := h'.enclosing f outer (h.enclosing f outer hf)
  binds f name hf := h'.binds f name (h.binds f name hf)
  words f name v hname hf := h'.words f name v hname (h.words f name v hname hf)
  functions id f hf := h'.functions id f (h.functions id f hf)
  classes c cls hc := h'.classes c cls (h.classes c cls hc)

end Grows

/-! ### Frames -/

@[simp]
theorem newFrame_snd (h : Heap) (outer : Option FrameId) :
    (h.newFrame outer).2 = h.frames.size := rfl

@[simp]
theorem newFrame_size (h : Heap) (outer : Option FrameId) :
    (h.newFrame outer).1.frames.size = h.frames.size + 1 := by
  simp [newFrame]

@[simp]
theorem define_size (h : Heap) (f : FrameId) (name : String) (v : Value) :
    (h.define f name v).frames.size = h.frames.size := by
  simp [define]

theorem lt_size_of_local? {h : Heap} {f : FrameId} {name : String} {v : Value}
    (hf : h.local? f name = some v) : f < h.frames.size := by
  unfold local? at hf
  cases hframe : h.frames[f]? with
  | none => simp [hframe] at hf
  | some frame => exact (Array.getElem?_eq_some_iff.mp hframe).1

@[simp]
theorem local?_newFrame (h : Heap) (outer : Option FrameId) (f : FrameId) (name : String) :
    (h.newFrame outer).1.local? f name = h.local? f name := by
  simp only [local?, newFrame, Array.getElem?_push]
  split
  · rename_i hf
    subst hf
    simp
  · rfl

theorem enclosing?_newFrame (h : Heap) (outer : Option FrameId) (f : FrameId) :
    (h.newFrame outer).1.enclosing? f = if f = h.frames.size then outer else h.enclosing? f := by
  simp only [enclosing?, newFrame, Array.getElem?_push]
  split <;> rfl

theorem lt_size_of_enclosing? {h : Heap} {f outer : FrameId} (hf : h.enclosing? f = some outer) :
    f < h.frames.size := by
  unfold enclosing? at hf
  cases hframe : h.frames[f]? with
  | none => simp [hframe] at hf
  | some frame => exact (Array.getElem?_eq_some_iff.mp hframe).1

theorem Grows.newFrame (h : Heap) (outer : Option FrameId) : h.Grows (h.newFrame outer).1 where
  enclosing f outer' hf := by
    have hlt := lt_size_of_enclosing? hf
    rw [enclosing?_newFrame, if_neg (Nat.ne_of_lt hlt), hf]
  binds f name hf := by rwa [local?_newFrame]
  words f name v _ hf := by rwa [local?_newFrame]
  functions _ _ := id
  classes _ _ := id

theorem Grows.define {h : Heap} {f : FrameId} (hf : f < h.frames.size) {name : String}
    (hname : IsWord name → h.local? f name = none) (v : Value) : h.Grows (h.define f name v) where
  enclosing g outer hg := by rwa [enclosing?_define]
  binds g other hg := by
    rw [local?_define h hf]
    split
    · rfl
    · exact hg
  words g other u hother hg := by
    rw [local?_define h hf, if_neg, hg]
    rintro ⟨rfl, rfl⟩
    rw [hname hother] at hg
    cases hg
  functions _ _ := id
  classes _ _ := id

/-! ### Other objects -/

theorem Grows.newFunction (h : Heap) (f : Function) : h.Grows (h.newFunction f).1 where
  enclosing _ _ := id
  binds _ _ := id
  words _ _ _ _ := id
  functions id g hg := by
    have hlt := (Array.getElem?_eq_some_iff.mp hg).1
    simpa [Heap.newFunction, Array.getElem?_push, Nat.ne_of_lt hlt] using hg
  classes _ _ := id

theorem Grows.newClass (h : Heap) (cls : Class) : h.Grows (h.newClass cls).1 where
  enclosing _ _ := id
  binds _ _ := id
  words _ _ _ _ := id
  functions _ _ := id
  classes c d hd := by
    have hlt := (Array.getElem?_eq_some_iff.mp hd).1
    simpa [Heap.newClass, Array.getElem?_push, Nat.ne_of_lt hlt] using hd

theorem Grows.newInstance (h : Heap) (c : ClassId) : h.Grows (h.newInstance c).1 :=
  ⟨fun _ _ => id, fun _ _ => id, fun _ _ _ _ => id, fun _ _ => id, fun _ _ => id⟩

theorem Grows.setField (h : Heap) (i : InstanceId) (name : String) (v : Value) :
    h.Grows (h.setField i name v) :=
  ⟨fun _ _ => id, fun _ _ => id, fun _ _ _ _ => id, fun _ _ => id, fun _ _ => id⟩

theorem newFunction_getElem? (h : Heap) (f : Function) :
    (h.newFunction f).1.functions[(h.newFunction f).2]? = some f := by
  simp [newFunction]

theorem field?_newInstance (h : Heap) (c : ClassId) (i : InstanceId) (name : String) :
    (h.newInstance c).1.field? i name = h.field? i name := by
  simp only [field?, newInstance, Array.getElem?_push]
  split
  · rename_i hi
    subst hi
    simp
  · rfl

theorem field?_setField {h : Heap} {i j : InstanceId} {name other : String} {v u : Value}
    (hfield : (h.setField i name v).field? j other = some u) :
    h.field? j other = some u ∨ u = v := by
  simp only [field?, setField, Array.getElem?_modify] at hfield ⊢
  by_cases hij : i = j
  · subst hij
    cases hinst : h.instances[i]? with
    | none => simp [hinst] at hfield
    | some inst =>
        simp only [hinst, if_true, Option.map_some, Option.bind_some,
          Bindings.get?_insert] at hfield ⊢
        split at hfield
        · exact .inr (Option.some.inj hfield).symm
        · exact .inl hfield
  · simp only [hij, if_false] at hfield
    exact .inl hfield

theorem methodWithin_congr {h h' : Heap} (hclasses : h'.classes = h.classes) (name : String)
    (n : Nat) (c : ClassId) : h'.methodWithin name n c = h.methodWithin name n c := by
  induction n generalizing c with
  | zero => rfl
  | succ n ih => simp only [methodWithin, hclasses, ih]

@[simp]
theorem method?_newInstance (h : Heap) (c d : ClassId) (name : String) :
    (h.newInstance c).1.method? d name = h.method? d name := by
  have hclasses : (h.newInstance c).1.classes = h.classes := rfl
  have hfunctions : (h.newInstance c).1.functions = h.functions := rfl
  simp only [method?, findMethod?, methodWithin_congr hclasses, hclasses, hfunctions]

end Heap

end ScriptLang
