import ScriptLang.Proofs.Frames.Steps
import ScriptLang.Proofs.Reach.Edits

/-! Disciplines: which objects a machine may hold, and what holds of its heap as long as it makes
only edits that use such objects. A machine comes by an object in three ways: it makes it, it holds
it already, or it follows a reference of one that it holds; so a discipline that is closed under
these is kept by every step of every machine. -/

namespace ScriptLang

structure Discipline where
  /-- The objects that may be held. -/
  allows : Heap → Ref → Prop
  /-- What holds of the heap. -/
  keeps : Heap → Prop
  points {h : Heap} {r r' : Ref} : keeps h → allows h r → h.Points r r' → allows h r'
  edit {h h' : Heap} : keeps h → h.Edit (allows h) h' → keeps h'
  mono {h h' : Heap} {r : Ref} : keeps h → h.Edit (allows h) h' → allows h r → allows h' r
  fresh {h h' : Heap} {r : Ref} : keeps h → h.Edit (allows h) h' → ¬ h.Has r → h'.Has r →
    allows h' r

namespace Discipline

variable {D : Discipline} {h h' h'' : Heap}

/-- A heap to which allowed edits lead. -/
structure Leads (D : Discipline) (h h' : Heap) : Prop where
  keeps : D.keeps h'
  mono : ∀ r, D.allows h r → D.allows h' r

theorem Leads.trans (hfirst : D.Leads h h') (hsecond : D.Leads h' h'') : D.Leads h h'' :=
  ⟨hsecond.keeps, fun r hr => hsecond.mono r (hfirst.mono r hr)⟩

theorem leads (hkeeps : D.keeps h) (hedit : h.Edit (D.allows h) h') : D.Leads h h' :=
  ⟨D.edit hkeeps hedit, fun _ => D.mono hkeeps hedit⟩

/-! ### Reading a heap -/

theorem within_local? (hkeeps : D.keeps h) {f : FrameId} (hf : D.allows h (.frame f))
    {name : String} {v : Value} (hlocal : h.local? f name = some v) : v.Within (D.allows h) :=
  fun _ hr => D.points hkeeps hf (.bound hlocal hr)

theorem allows_ancestor? (hkeeps : D.keeps h) {f target : FrameId} (hf : D.allows h (.frame f))
    {d : Nat} (htarget : h.ancestor? f d = some target) : D.allows h (.frame target) := by
  induction d generalizing f with
  | zero => exact Option.some.inj htarget ▸ hf
  | succ d ih =>
      unfold Heap.ancestor? at htarget
      split at htarget
      · rename_i houter
        exact ih (D.points hkeeps hf (.enclosing houter)) htarget
      · cases htarget

theorem within_getAt? (hkeeps : D.keeps h) {f : FrameId} (hf : D.allows h (.frame f)) {d : Nat}
    {name : String} {v : Value} (hget : h.getAt? f d name = some v) : v.Within (D.allows h) := by
  obtain ⟨target, htarget, hlocal⟩ := Option.bind_eq_some_iff.mp hget
  exact within_local? hkeeps (allows_ancestor? hkeeps hf htarget) hlocal

theorem allows_binderAt? (hkeeps : D.keeps h) {f target : FrameId} (hf : D.allows h (.frame f))
    {d : Nat} {name : String} (hbinder : h.binderAt? f d name = some target) :
    D.allows h (.frame target) := by
  unfold Heap.binderAt? at hbinder
  split at hbinder
  · rename_i htarget
    split at hbinder
    · exact Option.some.inj hbinder ▸ allows_ancestor? hkeeps hf htarget
    · cases hbinder
  · cases hbinder

theorem allows_binderWithin (hkeeps : D.keeps h) {f target : FrameId} (hf : D.allows h (.frame f))
    {n : Nat} {name : String} (hbinder : h.binderWithin name n f = some target) :
    D.allows h (.frame target) := by
  induction n generalizing f with
  | zero => cases hbinder
  | succ n ih =>
      unfold Heap.binderWithin at hbinder
      split at hbinder
      · exact Option.some.inj hbinder ▸ hf
      · split at hbinder
        · rename_i houter
          exact ih (D.points hkeeps hf (.enclosing houter)) hbinder
        · cases hbinder

theorem allows_methodWithin (hkeeps : D.keeps h) {c : ClassId} (hc : D.allows h (.classObj c))
    {n : Nat} {name : String} {id : FunctionId} (hmethod : h.methodWithin name n c = some id) :
    D.allows h (.function id) := by
  induction n generalizing c with
  | zero => cases hmethod
  | succ n ih =>
      unfold Heap.methodWithin at hmethod
      split at hmethod
      · cases hmethod
      · rename_i cls hcls
        split at hmethod
        · rename_i hget
          exact D.points hkeeps hc (.method hcls (Option.some.inj hmethod ▸ hget))
        · split at hmethod
          · rename_i hparent
            exact ih (D.points hkeeps hc (.superclass hcls hparent)) hmethod
          · cases hmethod

theorem allows_method? (hkeeps : D.keeps h) {c : ClassId} (hc : D.allows h (.classObj c))
    {name : String} {f : Function} (hmethod : h.method? c name = some f) :
    D.allows h (.frame f.closure) := by
  obtain ⟨id, hid, hf⟩ := Option.bind_eq_some_iff.mp hmethod
  exact D.points hkeeps (allows_methodWithin hkeeps hc hid) (.closure hf)

/-! ### Changing a heap -/

theorem leads_newFrame (hkeeps : D.keeps h) {outer : FrameId} (houter : D.allows h (.frame outer)) :
    D.Leads h (h.newFrame (some outer)).1 ∧
      D.allows (h.newFrame (some outer)).1 (.frame h.frames.size) :=
  ⟨leads hkeeps (.newFrame houter), D.fresh hkeeps (.newFrame houter) (Nat.lt_irrefl _)
    (by simp [Heap.Has])⟩

theorem leads_newFunction (hkeeps : D.keeps h) {f : Function}
    (hf : D.allows h (.frame f.closure)) :
    D.Leads h (h.newFunction f).1 ∧ D.allows (h.newFunction f).1 (.function h.functions.size) :=
  ⟨leads hkeeps (.newFunction hf), D.fresh hkeeps (.newFunction hf) (Nat.lt_irrefl _)
    (by simp [Heap.Has, Heap.newFunction])⟩

theorem leads_newInstance (hkeeps : D.keeps h) {c : ClassId} (hc : D.allows h (.classObj c)) :
    D.Leads h (h.newInstance c).1 ∧
      D.allows (h.newInstance c).1 (.instanceObj h.instances.size) :=
  ⟨leads hkeeps (.newInstance hc), D.fresh hkeeps (.newInstance hc) (Nat.lt_irrefl _)
    (by simp [Heap.Has, Heap.newInstance])⟩

theorem leads_newClass (hkeeps : D.keeps h) {cls : Class}
    (hsuper : ∀ parent, cls.superclass = some parent → D.allows h (.classObj parent))
    (hmethods : ∀ name id, cls.methods.get? name = some id → D.allows h (.function id)) :
    D.Leads h (h.newClass cls).1 ∧ D.allows (h.newClass cls).1 (.classObj h.classes.size) :=
  ⟨leads hkeeps (.newClass hsuper hmethods), D.fresh hkeeps (.newClass hsuper hmethods)
    (Nat.lt_irrefl _) (by simp [Heap.Has, Heap.newClass])⟩

/-- A new frame in which one name stands for a value. -/
theorem leads_newFrame_define (hkeeps : D.keeps h) {outer : FrameId}
    (houter : D.allows h (.frame outer)) (name : String) {v : Value} (hv : v.Within (D.allows h)) :
    let made := h.newFrame (some outer)
    D.Leads h (made.1.define made.2 name v) ∧
      D.allows (made.1.define made.2 name v) (.frame made.2) := by
  obtain ⟨hleads, hframe⟩ := leads_newFrame hkeeps houter
  have hdefine := leads hleads.keeps (.define name hframe (hv.mono hleads.mono))
  exact ⟨hleads.trans hdefine, hdefine.mono _ hframe⟩

theorem leads_bindMethod (hkeeps : D.keeps h) {f : Function} (hf : D.allows h (.frame f.closure))
    {i : InstanceId} (hi : D.allows h (.instanceObj i)) :
    D.Leads h (h.bindMethod f i).1 ∧
      D.allows (h.bindMethod f i).1 (.frame (h.bindMethod f i).2.closure) :=
  leads_newFrame_define hkeeps hf "this" (Value.within_instanceObj.mpr hi)

/-- The methods that a class declares are new, and close over a frame that may be held. -/
theorem leads_newMethods (hkeeps : D.keeps h) {closure : FrameId}
    (hclosure : D.allows h (.frame closure)) (decls : List FunctionDecl)
    {methods : Bindings FunctionId}
    (hmethods : ∀ name id, methods.get? name = some id → D.allows h (.function id)) :
    let made := h.newMethods closure decls methods
    D.Leads h made.1 ∧
      ∀ name id, made.2.get? name = some id → D.allows made.1 (.function id) := by
  induction decls generalizing h methods with
  | nil => exact ⟨⟨hkeeps, fun _ => id⟩, hmethods⟩
  | cons decl decls ih =>
      obtain ⟨hleads, hfunction⟩ :=
        leads_newFunction (f := ⟨decl, closure, decl.isInit⟩) hkeeps hclosure
      have hnext : ∀ name id,
          (methods.insert decl.name.lexeme h.functions.size).get? name = some id →
            D.allows (h.newFunction ⟨decl, closure, decl.isInit⟩).1 (.function id) := by
        intro name id hget
        rw [Bindings.get?_insert] at hget
        split at hget
        · exact Option.some.inj hget ▸ hfunction
        · exact hleads.mono _ (hmethods name id hget)
      obtain ⟨hrest, hmade⟩ := ih hleads.keeps (hleads.mono _ hclosure) hnext
      exact ⟨hleads.trans hrest, hmade⟩

end Discipline

/-! ### Sessions -/

/-- A session that holds only what is allowed. -/
structure Session.Abides (D : Discipline) (s : Session) : Prop where
  keeps : D.keeps s.heap
  current : D.allows s.heap (.frame s.current)
  globals : D.allows s.heap (.frame s.globals)

namespace Session

open Discipline

variable {D : Discipline} {s : Session}

/-- The session with another heap. -/
theorem Abides.withHeap (hs : s.Abides D) {heap : Heap} (hleads : D.Leads s.heap heap) :
    Abides D { s with heap } :=
  ⟨hleads.keeps, hleads.mono _ hs.current, hleads.mono _ hs.globals⟩

theorem Abides.within_read? (hs : s.Abides D) {id : ExprId} {name : String} {v : Value}
    (hread : s.read? id name = some v) : v.Within (D.allows s.heap) := by
  unfold read? at hread
  split at hread
  · exact within_getAt? hs.keeps hs.current hread
  · obtain ⟨f, hf, hlocal⟩ := Option.bind_eq_some_iff.mp hread
    exact within_local? hs.keeps (allows_binderWithin hs.keeps hs.globals hf) hlocal

theorem Abides.allows_binder? (hs : s.Abides D) {id : ExprId} {name : String} {f : FrameId}
    (hbinder : s.binder? id name = some f) : D.allows s.heap (.frame f) := by
  unfold binder? at hbinder
  split at hbinder
  · exact allows_binderAt? hs.keeps hs.current hbinder
  · exact allows_binderWithin hs.keeps hs.globals hbinder

/-- A property that holds only what is allowed. -/
def Property.Within (may : Ref → Prop) : Property → Prop
  | .value v => v.Within may
  | .method f i => may (.frame f.closure) ∧ may (.instanceObj i)

theorem Abides.within_property (hs : s.Abides D) {object : Value}
    (hobject : object.Within (D.allows s.heap)) {name : Token} {p : Property}
    (hp : s.property object name = .ok p) : p.Within (D.allows s.heap) := by
  unfold property at hp
  split at hp
  · rename_i i
    have hi : D.allows s.heap (.instanceObj i) := Value.within_instanceObj.mp hobject
    split at hp
    · rename_i hfield
      cases hp
      exact fun _ hr => D.points hs.keeps hi (.field hfield hr)
    · split at hp
      · rename_i hmethod
        cases hp
        obtain ⟨inst, hinst, hf⟩ := Option.bind_eq_some_iff.mp hmethod
        exact ⟨allows_method? hs.keeps (D.points hs.keeps hi (.ofClass hinst)) hf, hi⟩
      · cases hp
  · cases hp

theorem Abides.within_superMethod (hs : s.Abides D) {id : ExprId} {keyword method : Token}
    {p : Property} (hp : s.superMethod id keyword method = .ok p) :
    p.Within (D.allows s.heap) := by
  unfold superMethod at hp
  split at hp
  · cases hp
  · split at hp
    · cases hp
    · rename_i hsuper
      split at hp
      · cases hp
      · split at hp
        · cases hp
        · rename_i hthis
          split at hp
          · rename_i hmethod
            cases hp
            have hc := Value.within_classObj.mp (within_getAt? hs.keeps hs.current hsuper)
            have hi := Value.within_instanceObj.mp (within_getAt? hs.keeps hs.current hthis)
            exact ⟨allows_method? hs.keeps hc hmethod, hi⟩
          · cases hp
        · cases hp
    · cases hp

/-! ### Changing a session -/

theorem Abides.define (hs : s.Abides D) (name : String) {v : Value}
    (hv : v.Within (D.allows s.heap)) : D.Leads s.heap (s.define name v).heap :=
  leads hs.keeps (.define name hs.current hv)

/-- A class of methods that close over a frame that may be held, and its name. -/
theorem leads_makeClass {h : Heap} (hkeeps : D.keeps h) {f closure : FrameId}
    (hf : D.allows h (.frame f)) (hclosure : D.allows h (.frame closure)) (name : String)
    {superclass : Option ClassId}
    (hsuper : ∀ c, superclass = some c → D.allows h (.classObj c)) (decls : List FunctionDecl) :
    let made := h.newMethods closure decls .empty
    let cls := made.1.newClass ⟨name, superclass, made.2⟩
    D.Leads h (cls.1.define f name (.classObj cls.2)) := by
  intro made cls
  have hempty : ∀ name id, (.empty : Bindings FunctionId).get? name = some id →
      D.allows h (.function id) := by simp
  obtain ⟨hmade, hmethods⟩ := leads_newMethods hkeeps hclosure decls hempty
  obtain ⟨hcls, hclass⟩ : D.Leads made.1 cls.1 ∧ D.allows cls.1 (.classObj cls.2) :=
    leads_newClass hmade.keeps (fun c hc => hmade.mono _ (hsuper c hc)) hmethods
  have hdefine := leads hcls.keeps (.define name (hcls.mono _ (hmade.mono _ hf))
    (Value.within_classObj.mpr hclass))
  exact (hmade.trans hcls).trans hdefine

theorem Abides.declareClass (hs : s.Abides D) (name : String) (superclass : Option ClassId)
    (hsuper : ∀ c, superclass = some c → D.allows s.heap (.classObj c))
    (methods : List FunctionDecl) :
    D.Leads s.heap (s.declareClass name superclass methods).heap := by
  have hname := hs.define name Value.within_nil
  cases superclass with
  | none =>
      exact hname.trans (leads_makeClass hname.keeps (hname.mono _ hs.current)
        (hname.mono _ hs.current) name (fun c hc => hname.mono _ (hsuper c hc)) methods)
  | some c =>
      obtain ⟨hframe, hnew⟩ := leads_newFrame_define hname.keeps (hname.mono _ hs.current) "super"
        (Value.within_classObj.mpr (hname.mono _ (hsuper c rfl)))
      have hboth := hname.trans hframe
      exact hboth.trans (leads_makeClass hboth.keeps (hboth.mono _ hs.current) hnew name
        (fun d hd => hboth.mono _ (hsuper d hd)) methods)

/-- Entering a new frame inside `outer`. -/
theorem Abides.enterFrame (hs : s.Abides D) {outer : FrameId}
    (houter : D.allows s.heap (.frame outer)) :
    (s.enterFrame outer).Abides D ∧ D.Leads s.heap (s.enterFrame outer).heap := by
  obtain ⟨hleads, hframe⟩ := leads_newFrame hs.keeps houter
  exact ⟨⟨hleads.keeps, hframe, hleads.mono _ hs.globals⟩, hleads⟩

theorem Abides.defineEach (hs : s.Abides D) {params : List (Token × Value)}
    (hparams : ∀ p ∈ params, p.2.Within (D.allows s.heap)) :
    D.Leads s.heap (params.foldl (fun heap (p, v) => heap.define s.current p.lexeme v) s.heap) := by
  induction params generalizing s with
  | nil => exact ⟨hs.keeps, fun _ => id⟩
  | cons p params ih =>
      have hdefine := hs.define p.1.lexeme (hparams p List.mem_cons_self)
      refine hdefine.trans (ih (hs.withHeap hdefine) fun q hq => ?_)
      exact (hparams q (List.mem_cons_of_mem _ hq)).mono hdefine.mono

/-- A method bound to an instance, as a value. -/
theorem Abides.bindMethod (hs : s.Abides D) {f : Function}
    (hf : D.allows s.heap (.frame f.closure)) {i : InstanceId}
    (hi : D.allows s.heap (.instanceObj i)) :
    D.Leads s.heap (s.bindMethod f i).1.heap ∧
      (s.bindMethod f i).2.Within (D.allows (s.bindMethod f i).1.heap) := by
  obtain ⟨hbind, hclosure⟩ := leads_bindMethod hs.keeps hf hi
  obtain ⟨hnew, hfunction⟩ := leads_newFunction hbind.keeps hclosure
  exact ⟨hbind.trans hnew, Value.within_function.mpr hfunction⟩

end Session

/-! ### Machines -/

/-- A task that holds only these objects. -/
def Task.Within (may : Ref → Prop) : Task → Prop
  | .call callee arguments _ => callee.Within may ∧ ∀ v ∈ arguments, v.Within may
  | .value v | .returning v => v.Within may
  | _ => True

/-- Waiting work that holds only these objects. -/
def Pending.Within (may : Ref → Prop) : Pending → Prop
  | .binaryRight left _ => left.Within may
  | .argument called _ front _ => called.Within may ∧ ∀ v ∈ front, v.Within may
  | .setValue i _ | .initializer i => may (.instanceObj i)
  | .block _ outer => may (.frame outer)
  | .body f => may (.frame f.closure)
  | _ => True

theorem Pending.Within.mono {may may' : Ref → Prop} (h : ∀ r, may r → may' r) {p : Pending}
    (hp : p.Within may) : p.Within may' := by
  cases p with
  | binaryRight left operator => exact Value.Within.mono h hp
  | argument callee paren front rest => exact ⟨hp.1.mono h, fun v hv => (hp.2 v hv).mono h⟩
  | setValue | initializer | block | body => exact h _ hp
  | _ => trivial

section All

variable {may : Ref → Prop} (hmay : ∀ r, may r)
include hmay

theorem Task.within_of_forall {task : Task} : task.Within may := by
  cases task with
  | call => exact ⟨fun r _ => hmay r, fun v _ r _ => hmay r⟩
  | value | returning => exact fun r _ => hmay r
  | _ => trivial

theorem Pending.within_of_forall {p : Pending} : p.Within may := by
  cases p with
  | binaryRight => exact fun r _ => hmay r
  | argument => exact ⟨fun r _ => hmay r, fun v _ r _ => hmay r⟩
  | setValue | initializer | block | body => exact hmay _
  | _ => trivial

end All

/-- A machine that holds only what is allowed. -/
structure Machine.Abides (D : Discipline) (m : Machine) : Prop where
  session : m.session.Abides D
  task : m.task.Within (D.allows m.session.heap)
  stack : ∀ p ∈ m.stack, p.Within (D.allows m.session.heap)

namespace Machine

open Discipline

variable {D : Discipline} {s : Session} {stack : List Pending}

/-- A machine whose heap was changed. -/
theorem Abides.after (task : Task) (hs : s.Abides D)
    (hstack : ∀ p ∈ stack, p.Within (D.allows s.heap)) {heap : Heap}
    (hleads : D.Leads s.heap heap) (htask : task.Within (D.allows heap)) :
    Abides D ⟨task, stack, { s with heap }⟩ :=
  ⟨hs.withHeap hleads, htask, fun p hp => (hstack p hp).mono hleads.mono⟩

/-! ### Values -/

theorem within_applyUnary {may : Ref → Prop} {operator : Kind} {v u : Value}
    (hu : v.applyUnary operator = .ok u) : u.Within may := by
  unfold Value.applyUnary at hu
  split at hu <;> cases hu <;> simp

theorem within_arithmetic {may : Ref → Prop} {operator : Kind} {a b : Float} {u : Value}
    (hu : Value.arithmetic operator a b = .ok u) : u.Within may := by
  unfold Value.arithmetic at hu
  split at hu <;> cases hu <;> simp

theorem within_applyBinary {may : Ref → Prop} {operator : Kind} {a b u : Value}
    (hu : a.applyBinary operator b = .ok u) : u.Within may := by
  unfold Value.applyBinary at hu
  split at hu
  · split at hu <;> cases hu <;> simp
  · cases hu
    simp
  · cases hu
    simp
  · split at hu
    · exact within_arithmetic hu
    · cases hu

/-! ### Starting a task -/

section Start

variable (hs : s.Abides D) (hstack : ∀ p ∈ stack, p.Within (D.allows s.heap))
include hs hstack

theorem readName_abides (id : ExprId) (name : Token) : Abides D (readName id name stack s) := by
  unfold readName
  split
  · rename_i hread
    exact ⟨hs, hs.within_read? hread, hstack⟩
  · exact ⟨hs, trivial, hstack⟩

theorem found_abides {property : Except Fault Session.Property}
    (hproperty : ∀ p, property = .ok p → p.Within (D.allows s.heap)) :
    Abides D (found stack s property) := by
  unfold found
  split
  · exact ⟨hs, hproperty _ rfl, hstack⟩
  · obtain ⟨hf, hi⟩ := hproperty _ rfl
    obtain ⟨hleads, hv⟩ := hs.bindMethod hf hi
    exact .after (.value _) hs hstack hleads hv
  · exact ⟨hs, trivial, hstack⟩

theorem evaluate_abides (e : Expr) : Abides D (evaluate e stack s) := by
  cases e with
  | literal l => exact ⟨hs, by cases l <;> nofun, hstack⟩
  | grouping inner => exact ⟨hs, trivial, hstack⟩
  | «variable» id name | this id name => exact readName_abides hs hstack id name
  | super id keyword method => exact found_abides hs hstack fun _ => hs.within_superMethod
  | _ => exact ⟨hs, trivial, List.forall_mem_cons.mpr ⟨trivial, hstack⟩⟩

theorem enterBlock_abides (body : List Stmt) {outer : FrameId}
    (houter : D.allows s.heap (.frame outer)) : Abides D (enterBlock body outer stack s) := by
  obtain ⟨hentered, hleads⟩ := hs.enterFrame houter
  exact ⟨hentered, trivial, List.forall_mem_cons.mpr
    ⟨hleads.mono _ hs.current, fun p hp => (hstack p hp).mono hleads.mono⟩⟩

theorem execute_abides (st : Stmt) : Abides D (execute st stack s) := by
  cases st with
  | var name value =>
      cases value with
      | none => exact .after .done hs hstack (hs.define name.lexeme Value.within_nil) trivial
      | some e => exact ⟨hs, trivial, List.forall_mem_cons.mpr ⟨trivial, hstack⟩⟩
  | block body => exact enterBlock_abides hs hstack body hs.current
  | function decl =>
      obtain ⟨hnew, hfunction⟩ :
          D.Leads s.heap (s.newFunction ⟨decl, s.current, false⟩).1.heap ∧ _ :=
        leads_newFunction hs.keeps hs.current
      have hdefine := (hs.withHeap hnew).define decl.name.lexeme
        (Value.within_function.mpr hfunction)
      exact .after .done hs hstack (hnew.trans hdefine) trivial
  | ret keyword value =>
      cases value with
      | none => exact ⟨hs, Value.within_nil, hstack⟩
      | some e => exact ⟨hs, trivial, List.forall_mem_cons.mpr ⟨trivial, hstack⟩⟩
  | classDecl name superclass methods =>
      cases superclass with
      | none =>
          exact .after .done hs hstack (hs.declareClass name.lexeme none nofun methods) trivial
      | some e => exact ⟨hs, trivial, List.forall_mem_cons.mpr ⟨trivial, hstack⟩⟩
  | _ => exact ⟨hs, trivial, List.forall_mem_cons.mpr ⟨trivial, hstack⟩⟩

/-! ### Calls -/

/-- The frame of a call lies inside the closure of the function. -/
theorem enter_abides {f : Function} (hf : D.allows s.heap (.frame f.closure))
    {arguments : List Value} (harguments : ∀ v ∈ arguments, v.Within (D.allows s.heap))
    (paren : Token) : Abides D (enter f arguments paren stack s) := by
  unfold enter
  split
  · exact ⟨hs, trivial, hstack⟩
  · have hbody : ∀ p ∈ .body f :: stack, p.Within (D.allows s.heap) :=
      List.forall_mem_cons.mpr ⟨hf, hstack⟩
    obtain ⟨hentered, hleads⟩ := hs.enterFrame hf
    have hblock := enterBlock_abides hs hbody f.decl.body hf
    have hparams : ∀ p ∈ f.decl.params.zip arguments,
        p.2.Within (D.allows (s.enterFrame f.closure).heap) :=
      fun p hp => (harguments p.2 (List.of_mem_zip hp).2).mono hleads.mono
    have hdefined := hentered.defineEach hparams
    simp only [foldl_define]
    have hdone := Abides.after .done hentered hblock.stack hdefined trivial
    exact ⟨⟨hdone.session.keeps, hdone.session.current, hdone.session.globals⟩, trivial,
      hdone.stack⟩

theorem construct_abides {c : ClassId} (hc : D.allows s.heap (.classObj c)) {arguments : List Value}
    (harguments : ∀ v ∈ arguments, v.Within (D.allows s.heap)) (paren : Token) :
    Abides D (construct c arguments paren stack s) := by
  obtain ⟨hleads, hi⟩ := leads_newInstance hs.keeps hc
  unfold construct
  simp only
  split
  · exact .after (.value _) hs hstack hleads (Value.within_instanceObj.mpr hi)
  · rename_i f hmethod
    have hf := allows_method? hleads.keeps (hleads.mono _ hc) hmethod
    obtain ⟨hbind, hclosure⟩ := leads_bindMethod hleads.keeps hf hi
    have hboth := hleads.trans hbind
    have hwaits : ∀ p ∈ .initializer s.heap.instances.size :: stack, p.Within (D.allows _) :=
      List.forall_mem_cons.mpr ⟨hbind.mono _ hi, fun p hp => (hstack p hp).mono hboth.mono⟩
    exact enter_abides (hs.withHeap hboth) hwaits hclosure
      (fun v hv => (harguments v hv).mono hboth.mono) paren

theorem invoke_abides {callee : Value} (hcallee : callee.Within (D.allows s.heap))
    {arguments : List Value} (harguments : ∀ v ∈ arguments, v.Within (D.allows s.heap))
    (paren : Token) : Abides D (invoke callee arguments paren stack s) := by
  unfold invoke
  split
  · split
    · exact ⟨⟨hs.keeps, hs.current, hs.globals⟩, Value.within_number _, hstack⟩
    · exact ⟨hs, trivial, hstack⟩
  · split
    · rename_i hfunction
      split
      · have hclosure := D.points hs.keeps (Value.within_function.mp hcallee) (.closure hfunction)
        exact enter_abides hs hstack hclosure harguments paren
      · exact ⟨hs, trivial, hstack⟩
    · exact ⟨hs, trivial, hstack⟩
  · simp only
    split
    · exact construct_abides hs hstack (Value.within_classObj.mp hcallee) harguments paren
    · exact ⟨hs, trivial, hstack⟩
  · exact ⟨hs, trivial, hstack⟩

theorem leave_abides {f : Function} (hf : D.allows s.heap (.frame f.closure)) {v : Value}
    (hv : v.Within (D.allows s.heap)) : Abides D (leave f v stack s) := by
  have hs' : Session.Abides D { s with depth := s.depth - 1 } := ⟨hs.keeps, hs.current, hs.globals⟩
  unfold leave
  simp only
  split
  · split
    · rename_i hthis
      exact ⟨hs', within_getAt? hs.keeps hf hthis, hstack⟩
    · exact ⟨hs', trivial, hstack⟩
  · exact ⟨hs', hv, hstack⟩

/-! ### Going on after a task -/

theorem applied_abides (operator : Token) {result : Except FaultCause Value}
    (hresult : ∀ v, result = .ok v → v.Within (D.allows s.heap)) :
    Abides D (applied operator stack s result) := by
  cases result with
  | ok v => exact ⟨hs, hresult v rfl, hstack⟩
  | error cause => exact ⟨hs, trivial, hstack⟩

theorem print_abides (v : Value) : Abides D (receive v .print stack s) := by
  simp only [receive, Session.print]
  rcases s.sink.write (s.heap.display v ++ "\n").toUTF8 with ⟨sink, result⟩
  cases result <;> exact ⟨⟨hs.keeps, hs.current, hs.globals⟩, trivial, hstack⟩

theorem receive_abides {v : Value} (hv : v.Within (D.allows s.heap)) {p : Pending}
    (hp : p.Within (D.allows s.heap)) : Abides D (receive v p stack s) := by
  cases p with
  | unary operator => exact applied_abides hs hstack operator fun _ => within_applyUnary
  | binaryLeft operator right => exact ⟨hs, trivial, List.forall_mem_cons.mpr ⟨hv, hstack⟩⟩
  | binaryRight left operator => exact applied_abides hs hstack operator fun _ => within_applyBinary
  | logical operator right =>
      simp only [receive]
      generalize (if operator.kind = .kwOr then v.truthy else !v.truthy) = decided
      cases decided
      · exact ⟨hs, trivial, hstack⟩
      · exact ⟨hs, hv, hstack⟩
  | assign id name =>
      simp only [receive]
      split
      · rename_i hbinder
        have hdefine := leads hs.keeps (.define name.lexeme (hs.allows_binder? hbinder) hv)
        exact .after (.value v) hs hstack hdefine (hv.mono hdefine.mono)
      · exact ⟨hs, trivial, hstack⟩
  | callee paren arguments =>
      cases arguments with
      | nil => exact ⟨hs, ⟨hv, List.forall_mem_nil _⟩, hstack⟩
      | cons e rest =>
          have hnone := List.forall_mem_nil (Value.Within (D.allows s.heap))
          exact ⟨hs, trivial, List.forall_mem_cons.mpr ⟨⟨hv, hnone⟩, hstack⟩⟩
  | argument callee paren front rest =>
      have hfront : ∀ u ∈ v :: front, u.Within (D.allows s.heap) :=
        List.forall_mem_cons.mpr ⟨hv, hp.2⟩
      cases rest with
      | nil => exact ⟨hs, ⟨hp.1, fun u hu => hfront u (List.mem_reverse.mp hu)⟩, hstack⟩
      | cons e rest => exact ⟨hs, trivial, List.forall_mem_cons.mpr ⟨⟨hp.1, hfront⟩, hstack⟩⟩
  | get name => exact found_abides hs hstack fun _ => hs.within_property hv
  | setObject name value =>
      cases v with
      | instanceObj i =>
          have hi := Value.within_instanceObj.mp hv
          exact ⟨hs, trivial, List.forall_mem_cons.mpr ⟨hi, hstack⟩⟩
      | _ => exact ⟨hs, trivial, hstack⟩
  | setValue i name =>
      have hset := leads hs.keeps (.setField name.lexeme hp hv)
      exact .after (.value v) hs hstack hset (hv.mono hset.mono)
  | expression => exact ⟨hs, trivial, hstack⟩
  | print => exact print_abides hs hstack v
  | var name => exact .after .done hs hstack (hs.define name.lexeme hv) trivial
  | branch thenBranch elseBranch =>
      simp only [receive]
      split
      · exact ⟨hs, trivial, hstack⟩
      · cases elseBranch <;> exact ⟨hs, trivial, hstack⟩
  | loopTest condition body =>
      simp only [receive]
      split
      · exact ⟨hs, trivial, List.forall_mem_cons.mpr ⟨trivial, hstack⟩⟩
      · exact ⟨hs, trivial, hstack⟩
  | ret => exact ⟨hs, hv, hstack⟩
  | superclass name superclass methods =>
      cases v with
      | classObj c =>
          have hsuper : ∀ d, some c = some d → D.allows s.heap (.classObj d) :=
            fun d hd => Option.some.inj hd ▸ Value.within_classObj.mp hv
          exact .after .done hs hstack (hs.declareClass name.lexeme (some c) hsuper methods) trivial
      | _ => exact ⟨hs, trivial, hstack⟩
  | initializer i => exact ⟨hs, Value.within_instanceObj.mpr hp, hstack⟩
  | loopBody | block | body | program => exact ⟨hs, hv, List.forall_mem_cons.mpr ⟨hp, hstack⟩⟩

theorem proceed_abides {p : Pending} (hp : p.Within (D.allows s.heap)) :
    Abides D (proceed p stack s) := by
  cases p with
  | loopBody condition body => exact ⟨hs, trivial, List.forall_mem_cons.mpr ⟨trivial, hstack⟩⟩
  | block rest outer =>
      cases rest with
      | nil => exact ⟨⟨hs.keeps, hp, hs.globals⟩, trivial, hstack⟩
      | cons st rest => exact ⟨hs, trivial, List.forall_mem_cons.mpr ⟨hp, hstack⟩⟩
  | body f => exact leave_abides hs hstack hp Value.within_nil
  | program rest =>
      cases rest with
      | nil => exact ⟨hs, trivial, hstack⟩
      | cons st rest => exact ⟨hs, trivial, List.forall_mem_cons.mpr ⟨trivial, hstack⟩⟩
  | _ => exact ⟨hs, trivial, List.forall_mem_cons.mpr ⟨hp, hstack⟩⟩

theorem unwind_abides {v : Value} (hv : v.Within (D.allows s.heap)) {p : Pending}
    (hp : p.Within (D.allows s.heap)) : Abides D (unwind v p stack s) := by
  cases p with
  | loopBody condition body => exact ⟨hs, hv, hstack⟩
  | block rest outer => exact ⟨⟨hs.keeps, hp, hs.globals⟩, hv, hstack⟩
  | body f => exact leave_abides hs hstack hp hv
  | program rest => exact ⟨hs, trivial, List.forall_mem_cons.mpr ⟨trivial, hstack⟩⟩
  | _ => exact ⟨hs, hv, List.forall_mem_cons.mpr ⟨hp, hstack⟩⟩

theorem abandon_abides (f : Fault) {p : Pending} (hp : p.Within (D.allows s.heap)) :
    Abides D (abandon f p stack s) := by
  cases p with
  | block rest outer => exact ⟨⟨hs.keeps, hp, hs.globals⟩, trivial, hstack⟩
  | body f => exact ⟨⟨hs.keeps, hs.current, hs.globals⟩, trivial, hstack⟩
  | _ => exact ⟨hs, trivial, hstack⟩

end Start

/-! ### Runs -/

theorem Abides.step {m : Machine} (h : m.Abides D) : m.step.Abides D := by
  obtain ⟨task, stack, s⟩ := m
  obtain ⟨hs, htask, hstack⟩ := h
  cases task with
  | eval e => exact evaluate_abides hs hstack e
  | exec st => exact execute_abides hs hstack st
  | call callee arguments paren => exact invoke_abides hs hstack htask.1 htask.2 paren
  | value v =>
      cases stack with
      | nil => exact ⟨hs, htask, hstack⟩
      | cons p stack =>
          obtain ⟨hp, hstack⟩ := List.forall_mem_cons.mp hstack
          exact receive_abides hs hstack htask hp
  | done =>
      cases stack with
      | nil => exact ⟨hs, htask, hstack⟩
      | cons p stack =>
          obtain ⟨hp, hstack⟩ := List.forall_mem_cons.mp hstack
          exact proceed_abides hs hstack hp
  | returning v =>
      cases stack with
      | nil => exact ⟨hs, htask, hstack⟩
      | cons p stack =>
          obtain ⟨hp, hstack⟩ := List.forall_mem_cons.mp hstack
          exact unwind_abides hs hstack htask hp
  | failing f =>
      cases stack with
      | nil => exact ⟨hs, htask, hstack⟩
      | cons p stack =>
          obtain ⟨hp, hstack⟩ := List.forall_mem_cons.mp hstack
          exact abandon_abides hs hstack f hp

theorem Abides.run {m : Machine} (h : m.Abides D) (n : Nat) : (m.run n).Abides D :=
  run_induct (Machine.Abides D) (fun _ => Abides.step) h n

end Machine

end ScriptLang
