import ScriptLang.Proofs.Frames.Growth

/-! Objects of a heap, how they refer to each other, and the ways in which scripts change a heap.
Every change is a sequence of edits, each of which binds one name, sets one field or makes one
object. -/

namespace ScriptLang

/-- An object of a heap. -/
inductive Ref where
  | frame (f : FrameId)
  | function (id : FunctionId)
  | classObj (c : ClassId)
  | instanceObj (i : InstanceId)

namespace Value

/-- The object that a value is. -/
def ref? : Value → Option Ref
  | .function id => some (.function id)
  | .classObj c => some (.classObj c)
  | .instanceObj i => some (.instanceObj i)
  | _ => none

/-- A value that is no object, or one of these. -/
def Within (may : Ref → Prop) (v : Value) : Prop := ∀ r, v.ref? = some r → may r

variable {may : Ref → Prop}

theorem Within.mono {may' : Ref → Prop} (h : ∀ r, may r → may' r) {v : Value} (hv : v.Within may) :
    v.Within may' := fun r hr => h r (hv r hr)

@[simp]
theorem within_nil : nil.Within may := nofun

@[simp]
theorem within_bool (b : Bool) : (bool b).Within may := nofun

@[simp]
theorem within_number (x : Float) : (number x).Within may := nofun

@[simp]
theorem within_string (s : String) : (string s).Within may := nofun

@[simp]
theorem within_function {id : FunctionId} : (function id).Within may ↔ may (.function id) :=
  ⟨fun h => h _ rfl, fun h _ hr => Option.some.inj hr ▸ h⟩

@[simp]
theorem within_classObj {c : ClassId} : (classObj c).Within may ↔ may (.classObj c) :=
  ⟨fun h => h _ rfl, fun h _ hr => Option.some.inj hr ▸ h⟩

@[simp]
theorem within_instanceObj {i : InstanceId} : (instanceObj i).Within may ↔ may (.instanceObj i) :=
  ⟨fun h => h _ rfl, fun h _ hr => Option.some.inj hr ▸ h⟩

end Value

namespace Heap

/-- Whether an object has been made. -/
def Has (h : Heap) : Ref → Prop
  | .frame f => f < h.frames.size
  | .function id => id < h.functions.size
  | .classObj c => c < h.classes.size
  | .instanceObj i => i < h.instances.size

/-- One object refers to another: a frame to the one around it and to what its names stand for, a
function to its closure, an instance to its class and to what its fields hold, a class to its
superclass and to its methods. -/
inductive Points (h : Heap) : Ref → Ref → Prop where
  | enclosing {f outer : FrameId} : h.enclosing? f = some outer → Points h (.frame f) (.frame outer)
  | bound {f : FrameId} {name : String} {v : Value} {r : Ref} :
      h.local? f name = some v → v.ref? = some r → Points h (.frame f) r
  | closure {id : FunctionId} {f : Function} :
      h.functions[id]? = some f → Points h (.function id) (.frame f.closure)
  | ofClass {i : InstanceId} {inst : Instance} :
      h.instances[i]? = some inst → Points h (.instanceObj i) (.classObj inst.cls)
  | field {i : InstanceId} {name : String} {v : Value} {r : Ref} :
      h.field? i name = some v → v.ref? = some r → Points h (.instanceObj i) r
  | superclass {c parent : ClassId} {cls : Class} :
      h.classes[c]? = some cls → cls.superclass = some parent →
        Points h (.classObj c) (.classObj parent)
  | method {c : ClassId} {cls : Class} {name : String} {id : FunctionId} :
      h.classes[c]? = some cls → cls.methods.get? name = some id →
        Points h (.classObj c) (.function id)

theorem Points.has {h : Heap} {r r' : Ref} (hpoints : h.Points r r') : h.Has r := by
  cases hpoints with
  | enclosing hf => exact lt_size_of_enclosing? hf
  | bound hf => exact lt_size_of_local? hf
  | closure hf => exact (Array.getElem?_eq_some_iff.mp hf).1
  | field hi =>
      obtain ⟨inst, hinst, -⟩ := Option.bind_eq_some_iff.mp hi
      exact (Array.getElem?_eq_some_iff.mp hinst).1
  | ofClass hi => exact (Array.getElem?_eq_some_iff.mp hi).1
  | superclass hc | method hc => exact (Array.getElem?_eq_some_iff.mp hc).1

/-! ### Edits -/

/-- A change of a heap that uses only the given objects. -/
inductive Edit (may : Ref → Prop) (h : Heap) : Heap → Prop where
  | define {f : FrameId} (name : String) {v : Value} :
      may (.frame f) → v.Within may → Edit may h (h.define f name v)
  | setField {i : InstanceId} (name : String) {v : Value} :
      may (.instanceObj i) → v.Within may → Edit may h (h.setField i name v)
  | newFrame {outer : FrameId} : may (.frame outer) → Edit may h (h.newFrame (some outer)).1
  | newFunction {f : Function} : may (.frame f.closure) → Edit may h (h.newFunction f).1
  | newClass {cls : Class} :
      (∀ parent, cls.superclass = some parent → may (.classObj parent)) →
      (∀ name id, cls.methods.get? name = some id → may (.function id)) →
        Edit may h (h.newClass cls).1
  | newInstance {c : ClassId} : may (.classObj c) → Edit may h (h.newInstance c).1

/-- A name that is bound in a frame that does not exist is bound nowhere. -/
theorem define_of_size_le {h : Heap} {f : FrameId} (hf : h.frames.size ≤ f) (name : String)
    (v : Value) : h.define f name v = h := by
  have hframes : h.frames.modify f
      (fun frame => { frame with bindings := frame.bindings.insert name v }) = h.frames := by
    apply Array.ext_getElem?
    intro g
    rw [Array.getElem?_modify]
    split
    · rename_i hg
      subst hg
      rw [Array.getElem?_eq_none hf]
      rfl
    · rfl
  rw [define, hframes]

theorem local?_define_cases {h : Heap} {f g : FrameId} {name other : String} {v u : Value}
    (hlocal : (h.define f name v).local? g other = some u) :
    h.local? g other = some u ∨ u = v := by
  by_cases hf : f < h.frames.size
  · rw [local?_define h hf] at hlocal
    split at hlocal
    · exact .inr (Option.some.inj hlocal).symm
    · exact .inl hlocal
  · rw [define_of_size_le (Nat.le_of_not_lt hf)] at hlocal
    exact .inl hlocal

theorem cls_setField {h : Heap} {i j : InstanceId} {name : String} {v : Value} {inst : Instance}
    (hinst : (h.setField i name v).instances[j]? = some inst) :
    ∃ before, h.instances[j]? = some before ∧ inst.cls = before.cls := by
  simp only [setField, Array.getElem?_modify] at hinst
  split at hinst
  · obtain ⟨before, hbefore, rfl⟩ := Option.map_eq_some_iff.mp hinst
    exact ⟨before, hbefore, rfl⟩
  · exact ⟨inst, hinst, rfl⟩

/-- What is found in an array with one more element was there, or is that element. -/
theorem getElem?_push_cases {α : Type} {xs : Array α} {x y : α} {k : Nat}
    (hy : (xs.push x)[k]? = some y) : xs[k]? = some y ∨ k = xs.size ∧ x = y := by
  rw [Array.getElem?_push] at hy
  split at hy
  · rename_i hk
    exact .inr ⟨hk, Option.some.inj hy⟩
  · exact .inl hy

variable {may : Ref → Prop} {h h' : Heap}

theorem Edit.has (hedit : h.Edit may h') {r : Ref} (hr : h.Has r) : h'.Has r := by
  cases hedit with
  | define => cases r <;> simpa [Has, Heap.define] using hr
  | setField => cases r <;> simpa [Has, Heap.setField] using hr
  | newFrame =>
      cases r with
      | frame f => exact Nat.lt_of_lt_of_le hr (by simp)
      | _ => exact hr
  | newFunction =>
      cases r with
      | function f => exact Nat.lt_of_lt_of_le hr (by simp [Heap.newFunction])
      | _ => exact hr
  | newClass =>
      cases r with
      | classObj c => exact Nat.lt_of_lt_of_le hr (by simp [Heap.newClass])
      | _ => exact hr
  | newInstance =>
      cases r with
      | instanceObj i => exact Nat.lt_of_lt_of_le hr (by simp [Heap.newInstance])
      | _ => exact hr

/-- An edit makes objects refer only to what it uses. -/
theorem Edit.points (hedit : h.Edit may h') {r r' : Ref} (hpoints : h'.Points r r') :
    h.Points r r' ∨ may r' := by
  cases hedit with
  | define name hf hv =>
      cases hpoints with
      | enclosing hg =>
          rw [enclosing?_define] at hg
          exact .inl (.enclosing hg)
      | bound hg hr =>
          rcases local?_define_cases hg with hg | rfl
          · exact .inl (.bound hg hr)
          · exact .inr (hv _ hr)
      | _ => exact .inl (by constructor <;> assumption)
  | setField name hi hv =>
      cases hpoints with
      | field hj hr =>
          rcases field?_setField hj with hj | rfl
          · exact .inl (.field hj hr)
          · exact .inr (hv _ hr)
      | ofClass hj =>
          obtain ⟨inst, hinst, hcls⟩ := cls_setField hj
          rw [hcls]
          exact .inl (.ofClass hinst)
      | _ => exact .inl (by constructor <;> assumption)
  | newFrame houter =>
      cases hpoints with
      | enclosing hg =>
          rw [enclosing?_newFrame] at hg
          split at hg
          · exact .inr (Option.some.inj hg ▸ houter)
          · exact .inl (.enclosing hg)
      | bound hg hr =>
          rw [local?_newFrame] at hg
          exact .inl (.bound hg hr)
      | _ => exact .inl (by constructor <;> assumption)
  | newFunction hclosure =>
      cases hpoints with
      | closure hg =>
          rcases getElem?_push_cases hg with hg | ⟨-, rfl⟩
          · exact .inl (.closure hg)
          · exact .inr hclosure
      | _ => exact .inl (by constructor <;> assumption)
  | newClass hsuper hmethods =>
      cases hpoints with
      | superclass hc hparent =>
          rcases getElem?_push_cases hc with hc | ⟨-, rfl⟩
          · exact .inl (.superclass hc hparent)
          · exact .inr (hsuper _ hparent)
      | method hc hget =>
          rcases getElem?_push_cases hc with hc | ⟨-, rfl⟩
          · exact .inl (.method hc hget)
          · exact .inr (hmethods _ _ hget)
      | _ => exact .inl (by constructor <;> assumption)
  | newInstance hc =>
      cases hpoints with
      | field hi hr =>
          rw [field?_newInstance] at hi
          exact .inl (.field hi hr)
      | ofClass hi =>
          rcases getElem?_push_cases hi with hi | ⟨-, rfl⟩
          · exact .inl (.ofClass hi)
          · exact .inr hc
      | _ => exact .inl (by constructor <;> assumption)

/-- An edit changes only the frames it uses. -/
theorem Edit.frame_eq (hedit : h.Edit may h') {f : FrameId} (hf : f < h.frames.size)
    (hmay : ¬ may (.frame f)) : h'.frames[f]? = h.frames[f]? := by
  cases hedit with
  | define name hg hv =>
      have hne : _ ≠ f := fun heq => hmay (heq ▸ hg)
      simp only [Heap.define, Array.getElem?_modify, if_neg hne]
  | newFrame => simp [Heap.newFrame, Array.getElem?_push, Nat.ne_of_lt hf]
  | _ => rfl

/-- An edit changes only the instances it uses. -/
theorem Edit.instance_eq (hedit : h.Edit may h') {i : InstanceId} (hi : i < h.instances.size)
    (hmay : ¬ may (.instanceObj i)) : h'.instances[i]? = h.instances[i]? := by
  cases hedit with
  | setField name hj hv =>
      have hne : _ ≠ i := fun heq => hmay (heq ▸ hj)
      simp only [Heap.setField, Array.getElem?_modify, if_neg hne]
  | newInstance => simp [Heap.newInstance, Array.getElem?_push, Nat.ne_of_lt hi]
  | _ => rfl

end Heap

end ScriptLang
