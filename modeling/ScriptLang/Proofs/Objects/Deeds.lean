import ScriptLang.Proofs.Frames.Methods
import ScriptLang.Proofs.Frames.Promises
import ScriptLang.Proofs.Reach.Chains

/-! What scripts do to objects. Each step of a machine declares a class, sets a field or does
neither, and the classes of a heap and the fields of its instances change by these deeds only. So
they can be told from the deeds: a field is what was written last, a class is what its declaration
says. -/

namespace ScriptLang

/-- A class declaration at the moment it is carried out, when it is known which class it extends. -/
structure Declaration where
  name : String
  superclass : Option ClassId
  methods : List FunctionDecl

/-- The method that a class body has under a name: the last one of that name. -/
def Declaration.method? (d : Declaration) (name : String) : Option FunctionDecl :=
  d.methods.reverse.find? fun decl => decl.name.lexeme = name

/-- What a step does to objects. -/
inductive Deed where
  | declared (d : Declaration)
  | wrote (i : InstanceId) (name : String) (v : Value)

namespace Deed

def declaration? : Deed → Option Declaration
  | .declared d => some d
  | .wrote _ _ _ => none

/-- The value that is written to a field. -/
def writes? (i : InstanceId) (name : String) : Deed → Option Value
  | .declared _ => none
  | .wrote j other v => if j = i ∧ other = name then some v else none

end Deed

/-- What waiting work does to objects when it is given a value. A class that extends another is
declared when the superclass is known, and a field is set when its value is known. -/
def Pending.deeds (v : Value) : Pending → List Deed
  | .superclass name _ methods =>
    match v with
    | .classObj c => [.declared ⟨name.lexeme, some c, methods⟩]
    | _ => []
  | .setValue i name => [.wrote i name.lexeme v]
  | _ => []

/-- What the next step does to objects. -/
def Machine.deeds (m : Machine) : List Deed :=
  match m.task, m.stack with
  | .exec (.classDecl name none methods), _ => [.declared ⟨name.lexeme, none, methods⟩]
  | .value v, p :: _ => p.deeds v
  | _, _ => []

/-! ### What deeds tell -/

/-- Deeds, one after the other. Classes are numbered as they are declared. -/
abbrev Chronicle := List Deed

namespace Chronicle

def declarations (ds : Chronicle) : List Declaration := ds.filterMap Deed.declaration?

/-- What was last written to a field. -/
def written? (ds : Chronicle) (i : InstanceId) (name : String) : Option Value :=
  ds.reverse.findSome? (Deed.writes? i name)

def superclass? (ds : Chronicle) (c : ClassId) : Option ClassId :=
  ds.declarations[c]?.bind Declaration.superclass

/-- The method of the first of some classes whose declaration has it. -/
def method? (ds : Chronicle) (classes : List ClassId) (name : String) : Option FunctionDecl :=
  classes.findSome? fun c => ds.declarations[c]?.bind (·.method? name)

/-- How many parameters the initializer has, if there is one. -/
def arity (ds : Chronicle) (classes : List ClassId) : Nat :=
  match ds.method? classes initName with
  | some decl => decl.arity
  | none => 0

variable (ds later : Chronicle)

theorem declarations_append :
    declarations (ds ++ later) = declarations ds ++ declarations later :=
  List.filterMap_append

theorem written?_append (i : InstanceId) (name : String) :
    written? (ds ++ later) i name = (written? later i name).or (written? ds i name) := by
  simp only [written?, List.reverse_append, List.findSome?_append]

variable {ds}

theorem superclass?_append {c : ClassId} (hc : c < ds.declarations.length) :
    superclass? (ds ++ later) c = superclass? ds c := by
  rw [superclass?, declarations_append, List.getElem?_append_left hc, superclass?]

theorem method?_append {classes : List ClassId}
    (hclasses : ∀ c ∈ classes, c < ds.declarations.length) (name : String) :
    method? (ds ++ later) classes name = method? ds classes name := by
  unfold method?
  induction classes with
  | nil => rfl
  | cons c classes ih =>
      rw [List.findSome?_cons, List.findSome?_cons, declarations_append,
        List.getElem?_append_left (hclasses c List.mem_cons_self), ← declarations_append,
        ih fun d hd => hclasses d (List.mem_cons_of_mem c hd)]

end Chronicle

namespace Heap

/-! ### Changes that leave objects alone -/

/-- Classes and fields are the same, and no function went away. -/
structure Quiet (h h' : Heap) : Prop where
  classes : h'.classes = h.classes
  fields : ∀ i name, h'.field? i name = h.field? i name
  functions : ∀ (id : FunctionId) f, h.functions[id]? = some f → h'.functions[id]? = some f

namespace Quiet

theorem refl (h : Heap) : h.Quiet h := ⟨rfl, fun _ _ => rfl, fun _ _ => id⟩

theorem trans {h₁ h₂ h₃ : Heap} (h : h₁.Quiet h₂) (h' : h₂.Quiet h₃) : h₁.Quiet h₃ where
  classes := h'.classes.trans h.classes
  fields i name := (h'.fields i name).trans (h.fields i name)
  functions id f hf := h'.functions id f (h.functions id f hf)

theorem define (h : Heap) (f : FrameId) (name : String) (v : Value) : h.Quiet (h.define f name v) :=
  ⟨rfl, fun _ _ => rfl, fun _ _ => id⟩

theorem newFrame (h : Heap) (outer : Option FrameId) : h.Quiet (h.newFrame outer).1 :=
  ⟨rfl, fun _ _ => rfl, fun _ _ => id⟩

theorem newFunction (h : Heap) (f : Function) : h.Quiet (h.newFunction f).1 :=
  ⟨rfl, fun _ _ => rfl, (Grows.newFunction h f).functions⟩

/-- A new instance has no fields, like one that has not been made. -/
theorem newInstance (h : Heap) (c : ClassId) : h.Quiet (h.newInstance c).1 :=
  ⟨rfl, field?_newInstance h c, fun _ _ => id⟩

/-- A new frame in which one name stands for a value. -/
theorem newFrame_define (h : Heap) (outer : Option FrameId) (name : String) (v : Value) :
    h.Quiet ((h.newFrame outer).1.define (h.newFrame outer).2 name v) :=
  (newFrame h outer).trans (define _ _ name v)

theorem bindMethod (h : Heap) (f : Function) (i : InstanceId) : h.Quiet (h.bindMethod f i).1 :=
  newFrame_define h (some f.closure) "this" (.instanceObj i)

theorem foldl_define (h : Heap) (f : FrameId) (params : List (Token × Value)) :
    h.Quiet (params.foldl (fun heap (p, v) => heap.define f p.lexeme v) h) := by
  induction params generalizing h with
  | nil => exact .refl h
  | cons p params ih => exact (define h f p.1.lexeme p.2).trans (ih _)

end Quiet

/-! ### Classes -/

/-- What a class has under a name: no method, or a function made for a declaration. -/
def Offers (h : Heap) (cls : Class) (name : String) : Option FunctionDecl → Prop
  | none => cls.methods.get? name = none
  | some decl => ∃ id f, cls.methods.get? name = some id ∧ h.functions[id]? = some f ∧
      f.decl = decl ∧ f.isInitializer = decl.isInit

theorem Offers.mono {h h' : Heap}
    (hfunctions : ∀ (id : FunctionId) f, h.functions[id]? = some f → h'.functions[id]? = some f)
    {cls : Class} {name : String} {decl : Option FunctionDecl} (hoffers : h.Offers cls name decl) :
    h'.Offers cls name decl := by
  cases decl with
  | none => exact hoffers
  | some decl =>
      obtain ⟨id, f, hget, hf, hdecl⟩ := hoffers
      exact ⟨id, f, hget, hfunctions id f hf, hdecl⟩

/-- Each method of a class body becomes a function, and of methods with one name the last is found;
under other names is found what was found before. -/
theorem newMethods_spec (h : Heap) (closure : FrameId) (decls : List FunctionDecl)
    (methods : Bindings FunctionId) :
    let made := h.newMethods closure decls methods
    h.Quiet made.1 ∧ ∀ name,
      match decls.reverse.find? fun decl => decl.name.lexeme = name with
      | some decl => ∃ id, made.2.get? name = some id ∧
          made.1.functions[id]? = some ⟨decl, closure, decl.isInit⟩
      | none => made.2.get? name = methods.get? name := by
  induction decls generalizing h methods with
  | nil => exact ⟨.refl h, fun name => rfl⟩
  | cons decl decls ih =>
      obtain ⟨hquiet, hnames⟩ := ih (h.newFunction ⟨decl, closure, decl.isInit⟩).1
        (methods.insert decl.name.lexeme h.functions.size)
      refine ⟨(Quiet.newFunction h _).trans hquiet, fun name => ?_⟩
      have hname := hnames name
      -- A later method of the name is found before this one.
      rw [List.reverse_cons, List.find?_append]
      cases hfind : decls.reverse.find? fun decl => decl.name.lexeme = name with
      | some last =>
          rw [hfind] at hname
          exact hname
      | none =>
          rw [hfind, Bindings.get?_insert] at hname
          by_cases heq : decl.name.lexeme = name
          · rw [if_pos heq] at hname
            simp only [Option.none_or, List.find?_cons, heq, decide_true]
            exact ⟨h.functions.size, hname, hquiet.functions _ _ (newFunction_getElem? h _)⟩
          · rw [if_neg heq] at hname
            simp only [Option.none_or, List.find?_cons, heq, decide_false, List.find?_nil]
            exact hname

/-- What a class has after its methods are made is what its declaration says. -/
theorem offers_newMethods (h : Heap) (closure : FrameId) (d : Declaration) (name : String) :
    let made := h.newMethods closure d.methods .empty
    made.1.Offers ⟨d.name, d.superclass, made.2⟩ name (d.method? name) := by
  intro made
  have hname := (newMethods_spec h closure d.methods .empty).2 name
  unfold Declaration.method?
  cases hfind : d.methods.reverse.find? fun decl => decl.name.lexeme = name with
  | some decl =>
      rw [hfind] at hname
      obtain ⟨id, hget, hf⟩ := hname
      exact ⟨id, _, hget, hf, rfl, rfl⟩
  | none =>
      rw [hfind] at hname
      exact hname

/-- A field that is set on an instance that was made. -/
theorem field?_setField_of_lt (h : Heap) {i : InstanceId} (hi : i < h.instances.size)
    (name : String) (v : Value) (j : InstanceId) (other : String) :
    (h.setField i name v).field? j other =
      if i = j ∧ name = other then some v else h.field? j other := by
  by_cases hj : i = j
  · subst hj
    by_cases hn : name = other
    · simp [field?, setField, Array.getElem_modify_self, hi, hn]
    · simp [field?, setField, Array.getElem_modify_self, hi, hn, Bindings.get?_insert]
  · simp [field?, setField, Array.getElem?_modify, hj]

/-! ### Effects -/

/-- How deeds change the objects of a heap. -/
inductive Effect (h : Heap) : Chronicle → Heap → Prop where
  | nothing {h' : Heap} : h.Quiet h' → Effect h [] h'
  | declared {h₁ h₂ : Heap} {d : Declaration} {methods : Bindings FunctionId} : h.Quiet h₁ →
      (∀ name, h₁.Offers ⟨d.name, d.superclass, methods⟩ name (d.method? name)) →
      (h₁.newClass ⟨d.name, d.superclass, methods⟩).1.Quiet h₂ → Effect h [.declared d] h₂
  | wrote (i : InstanceId) (name : String) (v : Value) :
      Effect h [.wrote i name v] (h.setField i name v)

/-- Methods, their class and its name are made in a heap in which a declaration began. -/
theorem Quiet.declared {h₀ h : Heap} (hquiet : h₀.Quiet h) (closure f : FrameId) (d : Declaration) :
    let made := h.newMethods closure d.methods .empty
    let cls := made.1.newClass ⟨d.name, d.superclass, made.2⟩
    h₀.Effect [.declared d] (cls.1.define f d.name (.classObj cls.2)) :=
  .declared (hquiet.trans (newMethods_spec h closure d.methods .empty).1)
    (offers_newMethods h closure d) (define _ f d.name _)

end Heap

theorem Session.declareClass_effect (s : Session) (d : Declaration) :
    s.heap.Effect [.declared d] (s.declareClass d.name d.superclass d.methods).heap := by
  obtain ⟨name, superclass, methods⟩ := d
  have hname := Heap.Quiet.define s.heap s.current name .nil
  cases superclass with
  | none => exact hname.declared s.current s.current ⟨name, none, methods⟩
  | some c =>
      have hframe := hname.trans (.newFrame_define _ (some s.current) "super" (.classObj c))
      exact hframe.declared _ s.current ⟨name, some c, methods⟩

/-- A declaration gives its name to the class that it makes. -/
theorem Session.local?_declareClass {s : Session} (hcurrent : s.current < s.heap.frames.size)
    (d : Declaration) :
    (s.declareClass d.name d.superclass d.methods).heap.local? s.current d.name =
      some (.classObj s.heap.classes.size) := by
  have hbound {h : Heap} (hsize : s.current < h.frames.size) (hquiet : s.heap.Quiet h)
      (closure : FrameId) (superclass : Option ClassId) :
      let made := h.newMethods closure d.methods .empty
      let cls := made.1.newClass ⟨d.name, superclass, made.2⟩
      (cls.1.define s.current d.name (.classObj cls.2)).local? s.current d.name =
        some (.classObj s.heap.classes.size) := by
    intro made cls
    have hframes : cls.1.frames = h.frames := Heap.newMethods_frames h closure d.methods .empty
    have hclasses := (hquiet.trans (Heap.newMethods_spec h closure d.methods .empty).1).classes
    rw [Heap.local?_define _ (hframes ▸ hsize), if_pos ⟨rfl, rfl⟩, ← hclasses]
    rfl
  have hname := Heap.Quiet.define s.heap s.current d.name .nil
  cases hsuper : d.superclass with
  | none => exact hbound ((s.heap.define_size _ _ _).symm ▸ hcurrent) hname s.current none
  | some c =>
      have hframe := hname.trans (.newFrame_define _ (some s.current) "super" (.classObj c))
      refine hbound ?_ hframe _ (some c)
      rw [Heap.define_size, Heap.newFrame_size, Heap.define_size]
      exact Nat.lt_succ_of_lt hcurrent

namespace Machine

variable {s : Session} {stack : List Pending}

/-- A machine that declares a class goes on with the session in which it is declared. -/
theorem step_declared {m : Machine} {d : Declaration} (hdeclared : .declared d ∈ m.deeds) :
    m.step.session = m.session.declareClass d.name d.superclass d.methods := by
  obtain ⟨task, stack, s⟩ := m
  unfold deeds at hdeclared
  split at hdeclared
  · rename_i name methods htask
    obtain rfl : task = _ := htask
    obtain rfl : d = ⟨name.lexeme, none, methods⟩ := by simpa using hdeclared
    rfl
  · rename_i v p rest htask hstack
    obtain rfl : task = _ := htask
    obtain rfl : stack = _ := hstack
    cases p with
    | superclass name e methods =>
        cases v with
        | classObj c =>
            obtain rfl : d = ⟨name.lexeme, some c, methods⟩ := by
              simpa [Pending.deeds] using hdeclared
            rfl
        | _ => cases hdeclared
    | _ => simp [Pending.deeds] at hdeclared
  · cases hdeclared

theorem found_quiet (property : Except Fault Session.Property) :
    s.heap.Quiet (found stack s property).session.heap := by
  unfold found
  split
  · exact .refl _
  · exact (Heap.Quiet.bindMethod _ _ _).trans (.newFunction _ _)
  · exact .refl _

theorem evaluate_quiet (e : Expr) : s.heap.Quiet (evaluate e stack s).session.heap := by
  have hname (id : ExprId) (name : Token) :
      s.heap.Quiet (readName id name stack s).session.heap := by
    unfold readName
    split <;> exact .refl _
  cases e with
  | super id keyword method => exact found_quiet _
  | «variable» id name => exact hname id name
  | this id keyword => exact hname id keyword
  | _ => exact .refl _

theorem enter_quiet (f : Function) (arguments : List Value) (paren : Token) :
    s.heap.Quiet (enter f arguments paren stack s).session.heap := by
  unfold enter
  split
  · exact .refl _
  · simp only [foldl_define]
    exact (Heap.Quiet.newFrame _ _).trans (.foldl_define _ _ _)

theorem invoke_quiet (callee : Value) (arguments : List Value) (paren : Token) :
    s.heap.Quiet (invoke callee arguments paren stack s).session.heap := by
  unfold invoke
  split
  · split <;> exact .refl _
  · split
    · split
      · exact enter_quiet _ _ _
      · exact .refl _
    · exact .refl _
  · simp only
    split
    · unfold construct
      simp only
      split
      · exact .newInstance _ _
      · refine .trans ?_ (enter_quiet _ _ _)
        exact (Heap.Quiet.newInstance _ _).trans (.bindMethod _ _ _)
    · exact .refl _
  · exact .refl _

theorem execute_effect (st : Stmt) :
    s.heap.Effect (deeds ⟨.exec st, stack, s⟩) (execute st stack s).session.heap := by
  cases st with
  | var name initializer =>
      cases initializer with
      | none => exact .nothing (.define _ _ _ _)
      | some e => exact .nothing (.refl _)
  | block body => exact .nothing (.newFrame _ _)
  | function decl => exact .nothing ((Heap.Quiet.newFunction _ _).trans (.define _ _ _ _))
  | ret keyword value => cases value <;> exact .nothing (.refl _)
  | classDecl name superclass methods =>
      cases superclass with
      | none => exact s.declareClass_effect ⟨name.lexeme, none, methods⟩
      | some superclass => exact .nothing (.refl _)
  | _ => exact .nothing (.refl _)

theorem receive_effect (v : Value) (p : Pending) :
    s.heap.Effect (deeds ⟨.value v, p :: stack, s⟩) (receive v p stack s).session.heap := by
  have happlied (operator : Token) (result : Except FaultCause Value) :
      (applied operator stack s result).session = s := by cases result <;> rfl
  cases p with
  | unary operator | binaryRight left operator =>
      simp only [deeds, Pending.deeds, receive, happlied]
      exact .nothing (.refl _)
  | logical operator right | branch thenBranch elseBranch | loopTest condition body =>
      refine .nothing ?_
      simp only [receive]
      repeat' split
      all_goals exact .refl _
  | assign id name =>
      refine .nothing ?_
      simp only [receive]
      split
      · exact .define _ _ _ _
      · exact .refl _
  | callee paren arguments | argument callee paren front arguments =>
      cases arguments <;> exact .nothing (.refl _)
  | get name => exact .nothing (found_quiet _)
  | setObject name value => cases v <;> exact .nothing (.refl _)
  | setValue i name => exact .wrote i name.lexeme v
  | print =>
      have hprint : (s.print v).1.heap = s.heap := rfl
      refine .nothing ?_
      simp only [receive]
      split
      all_goals
        rename_i heq
        rw [heq] at hprint
        rw [hprint]
        exact .refl _
  | var name => exact .nothing (.define _ _ _ _)
  | superclass name superclass methods =>
      cases v with
      | classObj c => exact s.declareClass_effect ⟨name.lexeme, some c, methods⟩
      | _ => exact .nothing (.refl _)
  | _ => exact .nothing (.refl _)

theorem leave_quiet (f : Function) (v : Value) :
    s.heap.Quiet (leave f v stack s).session.heap := by
  simp only [leave]
  repeat' split
  all_goals exact .refl _

theorem proceed_quiet (p : Pending) : s.heap.Quiet (proceed p stack s).session.heap := by
  cases p with
  | block rest outer => cases rest <;> exact .refl _
  | program rest => cases rest <;> exact .refl _
  | body f => exact leave_quiet f .nil
  | _ => exact .refl _

theorem unwind_quiet (v : Value) (p : Pending) :
    s.heap.Quiet (unwind v p stack s).session.heap := by
  cases p with
  | body f => exact leave_quiet f v
  | _ => exact .refl _

/-- A step changes the objects of a heap as its deeds say. -/
theorem step_effect (m : Machine) : m.session.heap.Effect m.deeds m.step.session.heap := by
  obtain ⟨task, stack, s⟩ := m
  cases task with
  | eval e => exact .nothing (evaluate_quiet e)
  | exec st => exact execute_effect st
  | call callee arguments paren => exact .nothing (invoke_quiet callee arguments paren)
  | value v =>
      cases stack with
      | nil => exact .nothing (.refl _)
      | cons p stack => exact receive_effect v p
  | done =>
      cases stack with
      | nil => exact .nothing (.refl _)
      | cons p stack => exact .nothing (proceed_quiet p)
  | returning v =>
      cases stack with
      | nil => exact .nothing (.refl _)
      | cons p stack => exact .nothing (unwind_quiet v p)
  | failing fault =>
      cases stack with
      | nil => exact .nothing (.refl _)
      | cons p stack => cases p <;> exact .nothing (.refl _)

end Machine

end ScriptLang
