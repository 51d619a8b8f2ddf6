import ScriptLang.Proofs.Frames.Coherence
import ScriptLang.Proofs.Scoping.Declarations

/-! Names that are still to be bound. A statement that runs or waits promises the name it declares
to the frame it stands in. No frame but the global one binds a name that is promised to it, so a
variable is bound no earlier than its declaration is over. -/

namespace ScriptLang

/-- A name that a frame is going to bind. -/
structure Promise where
  frame : FrameId
  name : String

/-- The names that waiting work declares in the frame it stands in. -/
def Pending.names : Pending → List String
  | .block rest _ => Stmt.names rest
  | .var name => [name.lexeme]
  | .superclass name _ _ => [name.lexeme]
  | _ => []

/-- The frame that the work below stands in. -/
def Pending.leadsTo (f : FrameId) : Pending → FrameId
  | .block _ outer => outer
  | _ => f

/-- What the work of a stack promises when its top stands in the frame `f`. -/
def promises (f : FrameId) : List Pending → List Promise
  | [] => []
  | p :: stack => p.names.map (Promise.mk f) ++ promises (p.leadsTo f) stack

def Task.names : Task → List String
  | .exec s => Stmt.names [s]
  | _ => []

def Machine.promises (m : Machine) : List Promise :=
  m.task.names.map (Promise.mk m.session.current) ++
    ScriptLang.promises m.session.current m.stack

namespace Heap

/-! ### Frames that bind no further names -/

/-- The frames of `h` bind no further names in `h'`. -/
structure Spares (h h' : Heap) : Prop where
  size : h.frames.size ≤ h'.frames.size
  unbound : ∀ f name, f < h.frames.size → h.local? f name = none → h'.local? f name = none

theorem newMethods_frames (h : Heap) (closure : FrameId) (decls : List FunctionDecl)
    (methods : Bindings FunctionId) : (h.newMethods closure decls methods).1.frames = h.frames := by
  induction decls generalizing h methods with
  | nil => rfl
  | cons d decls ih => exact ih (h.newFunction ⟨d, closure, d.isInit⟩).1 _

namespace Spares

theorem refl (h : Heap) : h.Spares h := ⟨Nat.le_refl _, fun _ _ _ => id⟩

theorem trans {h₁ h₂ h₃ : Heap} (h : h₁.Spares h₂) (h' : h₂.Spares h₃) : h₁.Spares h₃ where
  size := Nat.le_trans h.size h'.size
  unbound f name hf hnone :=
    h'.unbound f name (Nat.lt_of_lt_of_le hf h.size) (h.unbound f name hf hnone)

theorem of_frames {h h' : Heap} (hframes : h'.frames = h.frames) : h.Spares h' :=
  ⟨Nat.le_of_eq (congrArg Array.size hframes).symm,
    fun _ _ _ hnone => by rwa [local?, hframes]⟩

theorem newFrame (h : Heap) (outer : Option FrameId) : h.Spares (h.newFrame outer).1 :=
  ⟨by simp, fun f name _ hnone => by rwa [local?_newFrame]⟩

/-- What is bound in a new frame is bound in no older one. -/
theorem define_new {h h' : Heap} (hspares : h.Spares h') (hnew : h.frames.size < h'.frames.size)
    (name : String) (v : Value) : h.Spares (h'.define h.frames.size name v) where
  size := by simpa using hspares.size
  unbound f other hf hnone := by
    rw [local?_define h' hnew, if_neg fun heq => Nat.ne_of_lt hf heq.1]
    exact hspares.unbound f other hf hnone

/-- A name that was bound already may be bound anew. -/
theorem redefine {h h' : Heap} (hspares : h.Spares h') {f : FrameId} {name : String}
    (hbound : (h.local? f name).isSome) (v : Value) : h.Spares (h'.define f name v) where
  size := by simpa using hspares.size
  unbound g other hg hnone := by
    obtain ⟨u, hu⟩ := Option.isSome_iff_exists.mp hbound
    have hlt := Nat.lt_of_lt_of_le (lt_size_of_local? hu) hspares.size
    rw [local?_define h' hlt, if_neg]
    · exact hspares.unbound g other hg hnone
    · rintro ⟨rfl, rfl⟩
      rw [hu] at hnone
      cases hnone

theorem bindMethod (h : Heap) (f : Function) (i : InstanceId) :
    h.Spares (h.bindMethod f i).1 :=
  define_new (.newFrame h _) (by simp) _ _

end Spares

/-! ### Promises that are kept -/

/-- No frame but the global one binds a name that is promised to it, and none is promised twice. -/
structure Owes (h : Heap) (g : FrameId) (ps : List Promise) : Prop where
  once : ps.Pairwise fun p q => p.frame ≠ g → p ≠ q
  made : ∀ p ∈ ps, p.frame < h.frames.size
  unbound : ∀ p ∈ ps, p.frame ≠ g → h.local? p.frame p.name = none

namespace Owes

variable {h h' : Heap} {g f : FrameId} {ps : List Promise}

theorem nil (h : Heap) (g : FrameId) : h.Owes g [] := ⟨.nil, nofun, nofun⟩

theorem sublist (howes : h.Owes g ps) {qs : List Promise} (hsub : qs.Sublist ps) : h.Owes g qs :=
  ⟨howes.once.sublist hsub, fun p hp => howes.made p (hsub.subset hp),
    fun p hp => howes.unbound p (hsub.subset hp)⟩

theorem spares (howes : h.Owes g ps) (hspares : h.Spares h') : h'.Owes g ps :=
  ⟨howes.once, fun p hp => Nat.lt_of_lt_of_le (howes.made p hp) hspares.size,
    fun p hp hlocal => hspares.unbound _ _ (howes.made p hp) (howes.unbound p hp hlocal)⟩

/-- A promise is kept. -/
theorem define {name : String} (howes : h.Owes g (⟨f, name⟩ :: ps)) (v : Value) :
    (h.define f name v).Owes g ps := by
  obtain ⟨hhead, honce⟩ := List.pairwise_cons.mp howes.once
  refine ⟨honce, fun p hp => ?_, fun p hp hlocal => ?_⟩
  · rw [define_size]
    exact howes.made p (List.mem_cons_of_mem _ hp)
  · rw [local?_define h (howes.made ⟨f, name⟩ List.mem_cons_self), if_neg]
    · exact howes.unbound p (List.mem_cons_of_mem _ hp) hlocal
    · rintro ⟨hframe, hname⟩
      obtain ⟨frame, other⟩ := p
      subst hframe hname
      exact hhead _ hp hlocal rfl

theorem append {qs : List Promise} (hfront : h.Owes g qs) (howes : h.Owes g ps)
    (hdiffer : ∀ q ∈ qs, ∀ p ∈ ps, q.frame ≠ g → q ≠ p) : h.Owes g (qs ++ ps) where
  once := List.pairwise_append.mpr ⟨hfront.once, howes.once, hdiffer⟩
  made := List.forall_mem_append.mpr ⟨hfront.made, howes.made⟩
  unbound := List.forall_mem_append.mpr ⟨hfront.unbound, howes.unbound⟩

/-- A frame may be promised names that differ and that it does not bind yet. -/
theorem of_names {names : List String} (hf : f < h.frames.size) (hnodup : names.Nodup)
    (hnone : ∀ n ∈ names, h.local? f n = none) : h.Owes g (names.map (Promise.mk f)) where
  once := List.pairwise_map.mpr (hnodup.imp fun hne _ heq => hne (congrArg Promise.name heq))
  made := List.forall_mem_map.mpr fun _ _ => hf
  unbound := List.forall_mem_map.mpr fun n hn _ => hnone n hn

/-- The global frame may be promised anything. -/
theorem of_globals (hg : g < h.frames.size) (names : List String) :
    h.Owes g (names.map (Promise.mk g)) where
  once := List.pairwise_map.mpr (List.pairwise_of_forall fun _ _ hne => absurd rfl hne)
  made := List.forall_mem_map.mpr fun _ _ => hg
  unbound := List.forall_mem_map.mpr fun _ _ hne => absurd rfl hne

/-- Promises to a new frame differ from those to older ones. -/
theorem promise {names : List String} (howes : h.Owes g ps) (hspares : h.Spares h')
    (hnew : h.frames.size < h'.frames.size) (hnodup : names.Nodup)
    (hnone : ∀ n ∈ names, h'.local? h.frames.size n = none) :
    h'.Owes g (names.map (Promise.mk h.frames.size) ++ ps) := by
  refine (of_names hnew hnodup hnone).append (howes.spares hspares) ?_
  rintro q hq p hp - rfl
  obtain ⟨n, -, rfl⟩ := List.mem_map.mp hq
  exact Nat.lt_irrefl _ (howes.made _ hp)

end Owes

end Heap

namespace Machine

/-- The promises of a machine are kept. -/
def Owes (m : Machine) : Prop := m.session.heap.Owes m.session.globals m.promises

/-! ### Functions and classes -/

section

variable {h : History} {s : Session} {stack : List Pending} {ps : List Promise}

theorem found_owes (howes : s.heap.Owes s.globals (ScriptLang.promises s.current stack))
    (property : Except Fault Session.Property) : (found stack s property).Owes := by
  unfold found
  split
  · exact howes
  · exact howes.spares ((Heap.Spares.bindMethod _ _ _).trans (.of_frames rfl))
  · exact howes

/-- Declaring a class keeps the promise of its name. -/
theorem declareClass_owes {name : String} (howes : s.heap.Owes s.globals (⟨s.current, name⟩ :: ps))
    (superclass : Option ClassId) (methods : List FunctionDecl) :
    (s.declareClass name superclass methods).heap.Owes s.globals ps := by
  have hlt : s.current < s.heap.frames.size := howes.made _ List.mem_cons_self
  -- The name is bound to nothing at first, and bound anew once the class is made.
  refine (howes.define .nil).spares ?_
  have hbound : ((s.heap.define s.current name .nil).local? s.current name).isSome := by
    rw [Heap.local?_define _ hlt, if_pos ⟨rfl, rfl⟩]
    rfl
  have hmade (heap : Heap) (closure : FrameId) : heap.Spares
      ((heap.newMethods closure methods .empty).1.newClass
        ⟨name, superclass, (heap.newMethods closure methods .empty).2⟩).1 :=
    .of_frames (Heap.newMethods_frames ..)
  cases superclass with
  | none => exact (hmade _ s.current).redefine hbound _
  | some c =>
      have hopened := (Heap.Spares.newFrame (s.heap.define s.current name .nil)
        (some s.current)).define_new (by simp) "super" (.classObj c)
      exact (hopened.trans (hmade _ _)).redefine hbound _

/-! ### Starting a task -/

theorem evaluate_owes {e : Expr} (howes : Owes ⟨.eval e, stack, s⟩) :
    (evaluate e stack s).Owes := by
  cases e with
  | «variable» id name | this id name =>
      simp only [evaluate, readName]
      split <;> exact howes
  | super id keyword method => exact found_owes howes _
  | _ => exact howes

/-- Entering a block promises what its statements declare. -/
theorem enterBlock_owes (howes : s.heap.Owes s.globals (ScriptLang.promises s.current stack))
    (outer : FrameId) {body : List Stmt} (hnodup : (Stmt.names body).Nodup) :
    (enterBlock body outer stack s).Owes := by
  have hnone (n : String) :
      (s.heap.newFrame (some outer)).1.local? s.heap.frames.size n = none := by
    rw [Heap.local?_newFrame, World.local?_size]
  have hnew : s.heap.frames.size < (s.heap.newFrame (some outer)).1.frames.size := by simp
  exact howes.promise (.newFrame _ _) hnew hnodup fun n _ => hnone n

theorem execute_owes (hok : (s.world h).Ok) {st : Stmt}
    (hworks : (s.world h).Works s.current (.exec st) stack) (howes : Owes ⟨.exec st, stack, s⟩) :
    (execute st stack s).Owes := by
  obtain ⟨setting, scopes, sites, hvisited, -⟩ := hworks
  cases st with
  | var name initializer =>
      cases initializer with
      | none => exact Heap.Owes.define howes .nil
      | some e => exact howes
  | block body =>
      have hbody := (hok.visited (hvisited.part (List.mem_singleton.mpr rfl))).1
      exact enterBlock_owes howes s.current (Point.accepted_nodup hbody)
  | function decl =>
      have hspares : s.heap.Spares (s.heap.newFunction ⟨decl, s.current, false⟩).1 :=
        .of_frames rfl
      exact (Heap.Owes.spares howes hspares).define _
  | ret keyword value => cases value <;> exact howes
  | classDecl name superclass methods =>
      cases superclass with
      | none => exact declareClass_owes howes none methods
      | some superclass => exact howes
  | _ => exact howes

/-! ### Calls -/

/-- Binding parameters in a new frame leaves older frames and other names alone. -/
theorem defineParams_spares {heap heap' : Heap} (hspares : heap.Spares heap')
    (hnew : heap.frames.size < heap'.frames.size) (params : List (Token × Value)) :
    let bound := params.foldl (fun h (p, v) => h.define heap.frames.size p.lexeme v) heap'
    heap.Spares bound ∧ heap.frames.size < bound.frames.size ∧
      ∀ n, (∀ p ∈ params, p.1.lexeme ≠ n) →
        bound.local? heap.frames.size n = heap'.local? heap.frames.size n := by
  induction params generalizing heap' with
  | nil => exact ⟨hspares, hnew, fun _ _ => rfl⟩
  | cons p params ih =>
      obtain ⟨hspares', hnew', hlocal⟩ :=
        ih (hspares.define_new hnew p.1.lexeme p.2) (by simpa using hnew)
      refine ⟨hspares', hnew', fun n hn => ?_⟩
      obtain ⟨hp, hparams⟩ := List.forall_mem_cons.mp hn
      refine (hlocal n hparams).trans ?_
      rw [Heap.local?_define _ hnew, if_neg fun heq => hp heq.2.symm]

theorem enter_owes (hok : (s.world h).Ok) {f : Function} (hf : (s.world h).Callable f)
    (arguments : List Value) (paren : Token)
    (howes : s.heap.Owes s.globals (ScriptLang.promises s.current stack)) :
    (enter f arguments paren stack s).Owes := by
  unfold enter
  split
  · exact howes
  · obtain ⟨setting, scopes, sites, hvisited, -⟩ := hf.closes
    obtain ⟨hnodup, hparams⟩ := Point.accepted_body (hok.visited hvisited).1
    obtain ⟨hspares, hnew, hlocal⟩ := defineParams_spares
      (.newFrame s.heap (some f.closure)) (by simp) (f.decl.params.zip arguments)
    have howes' := howes.promise hspares hnew hnodup fun n hn => by
      rw [hlocal n fun p hp => hparams n hn p.1 (List.of_mem_zip hp).1, Heap.local?_newFrame,
        World.local?_size]
    simp only [foldl_define]
    exact howes'

theorem construct_owes (hok : (s.world h).Ok) (c : ClassId) (arguments : List Value) (paren : Token)
    (howes : s.heap.Owes s.globals (ScriptLang.promises s.current stack)) :
    (construct c arguments paren stack s).Owes := by
  have hspares : s.heap.Spares (s.heap.newInstance c).1 := .of_frames rfl
  obtain ⟨hle, hok₁⟩ := hok.newInstance c
  unfold construct
  simp only [Heap.method?_newInstance]
  cases hmethod : s.heap.method? c initName with
  | none => exact howes.spares hspares
  | some f =>
      have hunbound := (hok.unbound_of_method? hmethod).mono hle
      obtain ⟨-, hok₂, hcallable⟩ := hok₁.bindMethod hunbound s.heap.instances.size
      exact enter_owes (s := { s with heap := _ }) hok₂ hcallable arguments paren
        (howes.spares (hspares.trans (.bindMethod _ _ _)))

theorem invoke_owes (hok : (s.world h).Ok) {callee : Value} {arguments : List Value}
    {paren : Token} (hworks : (s.world h).Works s.current (.call callee arguments paren) stack)
    (howes : Owes ⟨.call callee arguments paren, stack, s⟩) :
    (invoke callee arguments paren stack s).Owes := by
  obtain ⟨hcallee, -⟩ := hworks
  cases callee with
  | native f =>
      simp only [invoke]
      split <;> exact howes
  | function id =>
      obtain ⟨f, hf, hcallable⟩ := hcallee id rfl
      replace hf : s.heap.functions[id]? = some f := hf
      simp only [invoke, hf]
      split
      · exact enter_owes hok hcallable arguments paren howes
      · exact howes
  | classObj c =>
      simp only [invoke]
      split
      · exact construct_owes hok c arguments paren howes
      · exact howes
  | _ => exact howes

theorem leave_owes (howes : s.heap.Owes s.globals (ScriptLang.promises s.current stack))
    (f : Function) (v : Value) : (leave f v stack s).Owes := by
  simp only [leave]
  split
  · split <;> exact howes
  · exact howes

/-! ### Going on after a task -/

theorem receive_owes (hok : (s.world h).Ok) {v : Value} {p : Pending}
    (hworks : (s.world h).Works s.current (.value v) (p :: stack))
    (howes : Owes ⟨.value v, p :: stack, s⟩) : (receive v p stack s).Owes := by
  obtain ⟨-, scopes, sites, -, hwaits⟩ := hworks
  have hexec {st : Stmt} {stack' : List Pending} (hst : st.declares = none)
      (howes : s.heap.Owes s.globals (ScriptLang.promises s.current stack')) :
      Owes ⟨.exec st, stack', s⟩ := by
    rw [Owes, promises, Task.names, Stmt.names_of_declares hst]
    exact howes
  cases p with
  | unary operator | binaryRight left operator =>
      simp only [receive, applied]
      split <;> exact howes
  | logical operator right =>
      simp only [receive]
      generalize (if operator.kind = .kwOr then v.truthy else !v.truthy) = decided
      cases decided <;> exact howes
  | assign id name =>
      simp only [receive]
      split
      · rename_i f hbinder
        have hspares := (Heap.Spares.refl s.heap).redefine (Session.binder?_isSome hbinder) v
        exact Heap.Owes.spares howes hspares
      · exact howes
  | callee paren arguments => cases arguments <;> exact howes
  | argument callee paren front rest => cases rest <;> exact howes
  | get name =>
      have hbelow : s.heap.Owes s.globals (ScriptLang.promises s.current stack) := howes
      exact found_owes hbelow _
  | setObject name value => cases v <;> exact howes
  | setValue i name => exact Heap.Owes.spares howes (.of_frames rfl)
  | print =>
      simp only [receive, Session.print]
      rcases s.sink.write (s.heap.display v ++ "\n").toUTF8 with ⟨sink, result⟩
      cases result <;> exact howes
  | var name => exact Heap.Owes.define howes v
  | branch thenBranch elseBranch =>
      cases hwaits with
      | branch hbranches =>
          simp only [receive]
          split
          · exact hexec (hbranches thenBranch (by simp)).2 howes
          · split
            · exact hexec (hbranches _ (by simp)).2 howes
            · exact howes
  | loopTest condition body =>
      cases hwaits with
      | loopTest hloop =>
          have hwf : body.declares = none := (hok.visited hloop).1.wellFormed.2.2
          simp only [receive]
          split
          · exact hexec hwf howes
          · exact howes
  | superclass name superclass methods =>
      cases v with
      | classObj c => exact declareClass_owes howes (some c) methods
      | _ => exact Heap.Owes.sublist howes (List.sublist_cons_self _ _)
  | _ => exact howes

theorem proceed_owes (hok : (s.world h).Ok) {p : Pending}
    (hworks : (s.world h).Works s.current .done (p :: stack))
    (howes : Owes ⟨.done, p :: stack, s⟩) : (proceed p stack s).Owes := by
  obtain ⟨scopes, sites, hagrees, hwaits⟩ := hworks
  cases p with
  | block rest outer =>
      cases rest with
      | nil => exact howes
      | cons st rest =>
          show s.heap.Owes s.globals
            ((Stmt.names [st]).map (Promise.mk s.current) ++
              ((Stmt.names rest).map (Promise.mk s.current) ++ ScriptLang.promises outer stack))
          rw [← List.append_assoc, ← List.map_append, ← Stmt.names_cons]
          exact howes
  | body f =>
      have hbelow : s.heap.Owes s.globals (ScriptLang.promises s.current stack) := howes
      exact leave_owes hbelow f .nil
  | program rest =>
      cases hwaits with
      | program hglobals =>
          have hlt : s.current < s.heap.frames.size := hok.lt_size hagrees
          replace hglobals : s.current = s.globals := hglobals
          cases rest with
          | nil => exact howes
          | cons st rest =>
              show s.heap.Owes s.globals ((Stmt.names [st]).map (Promise.mk s.current) ++ [])
              rw [hglobals] at hlt ⊢
              rw [List.append_nil]
              exact .of_globals hlt _
  | _ => exact howes

theorem unwind_owes {v : Value} {p : Pending} (howes : Owes ⟨.returning v, p :: stack, s⟩) :
    (unwind v p stack s).Owes := by
  cases p with
  | block rest outer => exact Heap.Owes.sublist howes (List.sublist_append_right _ _)
  | body f =>
      have hbelow : s.heap.Owes s.globals (ScriptLang.promises s.current stack) := howes
      exact leave_owes hbelow f v
  | _ => exact howes

theorem abandon_owes {f : Fault} {p : Pending} (howes : Owes ⟨.failing f, p :: stack, s⟩) :
    (abandon f p stack s).Owes := by
  cases p with
  | block | var | superclass => exact Heap.Owes.sublist howes (List.sublist_append_right _ _)
  | _ => exact howes

/-- A step keeps the promises that it does not pass on. -/
theorem step_owes {m : Machine} (hok : (m.session.world h).Ok)
    (hworks : (m.session.world h).Works m.session.current m.task m.stack) (howes : m.Owes) :
    m.step.Owes := by
  obtain ⟨task, stack, s⟩ := m
  cases task with
  | eval e => exact evaluate_owes howes
  | exec st => exact execute_owes hok hworks howes
  | call callee arguments paren => exact invoke_owes hok hworks howes
  | value v =>
      cases stack with
      | nil => exact howes
      | cons p stack => exact receive_owes hok hworks howes
  | done =>
      cases stack with
      | nil => exact howes
      | cons p stack => exact proceed_owes hok hworks howes
  | returning v =>
      cases stack with
      | nil => exact howes
      | cons p stack => exact unwind_owes howes
  | failing f =>
      cases stack with
      | nil => exact howes
      | cons p stack => exact abandon_owes howes

end

end Machine

namespace Moment

/-- At every moment of a session the names that are promised are unbound. -/
theorem Reached.owes {a : Moment} (h : Reached a) : a.machine.Owes := by
  obtain ⟨sink, reading, hlater⟩ := h
  refine (hlater.induct (P := fun a => a.Coherent ∧ a.machine.Owes)
    ⟨.new sink reading, .nil _ _⟩ fun a b ⟨hcoherent, howes⟩ hnext => ?_).2
  refine ⟨hcoherent.next hnext, ?_⟩
  cases hnext with
  | step => exact Machine.step_owes hcoherent.ok hcoherent.works howes
  | finish | start | reject => exact .nil _ _

end Moment

/-! ### Names that are being declared -/

namespace World

variable {w : World} {expects : Expects} {f : FrameId} {scopes : List Scope} {sites : List Site}
  {stack : List Pending}

/-- A name that is being declared where work waits is promised by that work. -/
theorem Waits.promised (hwaits : w.Waits expects f scopes sites stack) (hok : w.Ok) {name : String}
    (h : Declaring name scopes) : ⟨f, name⟩ ∈ promises f stack := by
  induction hwaits with
  | idle | program =>
      obtain ⟨scope, outer, hscopes, -⟩ := h
      cases hscopes
  | var hname hwaits ih =>
      rename_i declared
      by_cases heq : name = declared.lexeme
      · subst heq
        exact List.mem_cons_self
      · exact List.mem_cons_of_mem _ (ih (h.of_completeIn heq))
  | superclass hclass =>
      have hsettled : Settled _ _ _ := (hok.visited hclass).2
      exact absurd h (hsettled.not_declaring name)
  | block hrest =>
      have hsettled : Settled _ _ _ := (hok.visited hrest).2
      exact absurd h (hsettled.not_declaring name)
  | _ => exact ‹Declaring name _ → _› h

end World

end ScriptLang
