import ScriptLang.Machine
import ScriptLang.Proofs.Soundness.Trees

/-! Machines that carry out only what was checked. The statements of a function stand on the stack
above the work that waits for its end, so the kind of that function decides which of them may
return, and every step keeps it so. -/

namespace ScriptLang

/-! ### Functions on the heap -/

section Heaps

variable (P : Token → Prop)

/-- A function whose body may be carried out: an initializer returns no value. -/
def Function.Vetted (f : Function) : Prop :=
  ∃ kind, kind ≠ .none ∧ (f.isInitializer = true → kind = .initializer) ∧ f.decl.Vetted P kind

def Heap.Vetted (h : Heap) : Prop := ∀ (id : FunctionId) f, h.functions[id]? = some f → f.Vetted P

end Heaps

variable {P : Token → Prop}

theorem Function.vetted_method {d : FunctionDecl} (closure : FrameId)
    (h : d.Vetted P (.ofMethod d)) : Function.Vetted P ⟨d, closure, d.isInit⟩ := by
  refine ⟨.ofMethod d, ?_, fun hinit => ?_, h⟩
  · unfold FunctionKind.ofMethod
    split <;> exact nofun
  · exact if_pos hinit

namespace Heap.Vetted

variable {h : Heap} (hh : h.Vetted P)
include hh

/-- What makes no function keeps the heap vetted. -/
theorem of_functions {h' : Heap} (heq : h'.functions = h.functions) : h'.Vetted P := by
  intro id f hf
  rw [heq] at hf
  exact hh id f hf

theorem newFunction {f : Function} (hf : f.Vetted P) : (h.newFunction f).1.Vetted P := by
  intro id g hg
  simp only [Heap.newFunction, Array.getElem?_push] at hg
  split at hg
  · obtain rfl := Option.some.inj hg
    exact hf
  · exact hh id g hg

theorem method? {c : ClassId} {name : String} {f : Function} (hf : h.method? c name = some f) :
    f.Vetted P := by
  obtain ⟨id, -, hid⟩ := Option.bind_eq_some_iff.mp hf
  exact hh id f hid

theorem bindMethod {f : Function} (hf : f.Vetted P) (i : InstanceId) :
    (h.bindMethod f i).1.Vetted P ∧ (h.bindMethod f i).2.Vetted P :=
  ⟨hh.of_functions rfl, hf⟩

theorem newMethods {ds : List FunctionDecl} (hds : ∀ d ∈ ds, d.Vetted P (.ofMethod d))
    (closure : FrameId) (methods : Bindings FunctionId) :
    (h.newMethods closure ds methods).1.Vetted P := by
  induction ds generalizing h methods with
  | nil => exact hh
  | cons d ds ih =>
      have hd := Function.vetted_method closure (hds d List.mem_cons_self)
      exact ih (hh.newFunction hd) (fun d hd => hds d (List.mem_cons_of_mem _ hd)) _

end Heap.Vetted

theorem Session.functions_foldl_define (params : List (Token × Value)) (s : Session) :
    (params.foldl (fun s (param, v) => s.define param.lexeme v) s).heap.functions =
      s.heap.functions := by
  induction params generalizing s with
  | nil => rfl
  | cons p params ih => rw [List.foldl_cons, ih]; rfl

theorem Session.declareClass_vetted {s : Session} (hs : s.heap.Vetted P) (name : String)
    (superclass : Option ClassId) {ds : List FunctionDecl}
    (hds : ∀ d ∈ ds, d.Vetted P (.ofMethod d)) :
    (s.declareClass name superclass ds).heap.Vetted P := by
  let heap := s.heap.define s.current name .nil
  cases superclass with
  | none =>
      have hheap : heap.Vetted P := hs.of_functions rfl
      exact (hheap.newMethods hds s.current .empty).of_functions rfl
  | some c =>
      let inner := (heap.newFrame (some s.current)).1.define heap.frames.size "super" (.classObj c)
      have hinner : inner.Vetted P := hs.of_functions rfl
      exact (hinner.newMethods hds heap.frames.size .empty).of_functions rfl

/-! ### What waits -/

section Waiting

variable (P : Token → Prop)

/-- Work that waits in a function of this kind, but for the end of the function. -/
def Pending.Vetted (kind : FunctionKind) : Pending → Prop
  | .unary operator => P operator ∧ operator.kind.isUnary = true
  | .binaryLeft operator right => P operator ∧ operator.kind.isBinary = true ∧ right.Written P
  | .binaryRight _ operator => P operator ∧ operator.kind.isBinary = true
  | .logical _ right => right.Written P
  | .assign _ name => P name ∧ name.IsPlain
  | .callee paren arguments => P paren ∧ ∀ e ∈ arguments, e.Written P
  | .argument _ paren _ rest => P paren ∧ ∀ e ∈ rest, e.Written P
  | .get name => P name ∧ name.IsPlain
  | .setObject name value => P name ∧ value.Written P
  | .branch thenBranch elseBranch =>
    thenBranch.Vetted P kind ∧ ∀ s ∈ elseBranch, s.Vetted P kind
  | .loopTest condition s => condition.Written P ∧ s.Vetted P kind
  | .loopBody condition s => condition.Written P ∧ s.Vetted P kind
  | .ret => kind ≠ .none ∧ kind ≠ .initializer
  | .superclass _ e methods =>
    (∃ id parent, e = .variable id parent ∧ P parent) ∧
      ∀ d ∈ methods, d.Vetted P (.ofMethod d)
  | .block rest _ => ∀ s ∈ rest, s.Vetted P kind
  | .program rest => kind = .none ∧ ∀ s ∈ rest, s.Vetted P kind
  | .body _ => False
  | .setValue _ _ | .expression | .print | .var _ | .initializer _ => True

/-- A stack in a function of this kind. Under the body of the function waits the work of its
caller. -/
inductive Pending.VettedEach : FunctionKind → List Pending → Prop where
  | nil : VettedEach .none []
  | work {kind p stack} : p.Vetted P kind → VettedEach kind stack → VettedEach kind (p :: stack)
  | body {kind outer f stack} : kind ≠ .none → (f.isInitializer = true → kind = .initializer) →
      VettedEach outer stack → VettedEach kind (.body f :: stack)

def Task.Vetted (kind : FunctionKind) : Task → Prop
  | .eval e => e.Written P
  | .exec s => s.Vetted P kind
  | .call _ _ paren => P paren
  | .returning v => kind ≠ .none ∧ (kind = .initializer → v = .nil)
  | .value _ | .done | .failing _ => True

/-- A machine at work in a function of some kind. -/
inductive Machine.Vetted : Machine → Prop where
  | intro {kind task stack s} : Task.Vetted P kind task → Pending.VettedEach P kind stack →
      s.heap.Vetted P → Vetted ⟨task, stack, s⟩

end Waiting

/-! ### Properties -/

theorem Session.property_vetted {s : Session} (hs : s.heap.Vetted P) {object : Value} {name : Token}
    {f : Function} {i : InstanceId} (h : s.property object name = .ok (.method f i)) :
    f.Vetted P := by
  unfold property at h
  split at h
  · split at h
    · cases h
    · split at h
      · rename_i hmethod
        cases h
        obtain ⟨inst, -, hfound⟩ := Option.bind_eq_some_iff.mp hmethod
        exact hs.method? hfound
      · cases h
  · cases h

theorem Session.superMethod_vetted {s : Session} (hs : s.heap.Vetted P) {id : ExprId}
    {keyword method : Token} {f : Function} {i : InstanceId}
    (h : s.superMethod id keyword method = .ok (.method f i)) : f.Vetted P := by
  unfold superMethod at h
  split at h
  · cases h
  · split at h
    · cases h
    · split at h
      · cases h
      · split at h
        · cases h
        · split at h
          · rename_i hmethod
            cases h
            exact hs.method? hmethod
          · cases h
        · cases h
    · cases h

namespace Machine

theorem Vetted.heap {m : Machine} (h : m.Vetted P) : m.session.heap.Vetted P := by
  obtain ⟨-, -, hs⟩ := h
  exact hs

variable {kind : FunctionKind} {stack : List Pending} {s : Session}

section Steps

variable (hstack : Pending.VettedEach P kind stack) (hs : s.heap.Vetted P)
include hstack hs

/-! ### Starting a task -/

theorem found_vetted {r : Except Fault Session.Property}
    (hr : ∀ f i, r = .ok (.method f i) → f.Vetted P) : (found stack s r).Vetted P := by
  unfold found
  split
  · exact .intro trivial hstack hs
  · rename_i f i
    have hf := hr f i rfl
    exact .intro trivial hstack ((hs.bindMethod hf i).1.newFunction hf)
  · exact .intro trivial hstack hs

theorem applied_vetted (operator : Token) (r : Except FaultCause Value) :
    (applied operator stack s r).Vetted P := by
  unfold applied
  split <;> exact .intro trivial hstack hs

theorem readName_vetted (id : ExprId) (name : Token) : (readName id name stack s).Vetted P := by
  unfold readName
  split <;> exact .intro trivial hstack hs

theorem evaluate_vetted {e : Expr} (he : e.Written P) : (evaluate e stack s).Vetted P := by
  have heval {e : Expr} {p : Pending} (he : e.Written P) (hp : p.Vetted P kind) :
      Machine.Vetted P ⟨.eval e, p :: stack, s⟩ := .intro he (.work hp hstack) hs
  cases he with
  | literal => exact .intro trivial hstack hs
  | grouping he => exact .intro he hstack hs
  | unary ht hkind he => exact heval he ⟨ht, hkind⟩
  | binary ht hkind he hu => exact heval he ⟨ht, hkind, hu⟩
  | logical he hu => exact heval he hu
  | «variable» | this => exact readName_vetted hstack hs _ _
  | assign ht hplain he => exact heval he ⟨ht, hplain⟩
  | call ht he hes => exact heval he ⟨ht, hes⟩
  | get ht hplain he => exact heval he ⟨ht, hplain⟩
  | set ht he hu => exact heval he ⟨ht, hu⟩
  | super => exact found_vetted hstack hs fun f i h => Session.superMethod_vetted hs h

theorem execute_vetted {st : Stmt} (hst : st.Vetted P kind) : (execute st stack s).Vetted P := by
  have heval {e : Expr} {p : Pending} (he : e.Written P) (hp : p.Vetted P kind) :
      Machine.Vetted P ⟨.eval e, p :: stack, s⟩ := .intro he (.work hp hstack) hs
  have hwritten := hst.written
  cases hwritten with
  | expression he | print he => exact heval he trivial
  | @var name initializer he =>
      cases initializer with
      | none => exact .intro trivial hstack (hs.of_functions rfl)
      | some e => exact heval (he e rfl) trivial
  | block => exact .intro trivial (.work hst.block hstack) (hs.of_functions rfl)
  | ifThen he hs₁ =>
      exact heval he ⟨hst.part hs₁ (by simp [Point.parts]), by simp⟩
  | ifElse he hs₁ hs₂ =>
      have helse := hst.part hs₂ (by simp [Point.parts])
      exact heval he ⟨hst.part hs₁ (by simp [Point.parts]), by simpa using helse⟩
  | loop he hs₁ => exact heval he ⟨he, hst.part hs₁ (by simp [Point.parts])⟩
  | @function d =>
      have hf : Function.Vetted P ⟨d, s.current, false⟩ :=
        ⟨.function, by simp, by simp, hst.function⟩
      exact .intro trivial hstack ((hs.newFunction hf).of_functions rfl)
  | @ret keyword value he =>
      obtain ⟨hplace, hvalue⟩ := hst.ret
      cases value with
      | none => exact .intro ⟨hplace, fun _ => rfl⟩ hstack hs
      | some e => exact heval (he e rfl) ⟨hplace, by simpa using hvalue⟩
  | @classDecl name superclass methods he =>
      cases superclass with
      | none =>
          exact .intro trivial hstack (Session.declareClass_vetted hs _ none hst.classMethods)
      | some e => exact heval (he e rfl) ⟨hst.superclass, hst.classMethods⟩

/-! ### Calls -/

/-- The body of a function is carried out in a function of its kind. -/
theorem enter_vetted {f : Function} (hf : f.Vetted P) (arguments : List Value) (paren : Token) :
    (enter f arguments paren stack s).Vetted P := by
  unfold enter
  split
  · exact .intro trivial hstack hs
  · obtain ⟨inner, hplace, hinit, hbody⟩ := hf
    -- Above the end of the call the kind is that of the callee, below it that of the caller.
    refine .intro trivial (.work hbody (.body hplace hinit hstack)) (hs.of_functions ?_)
    exact Session.functions_foldl_define _ _

theorem construct_vetted (c : ClassId) (arguments : List Value) (paren : Token) :
    (construct c arguments paren stack s).Vetted P := by
  have hheap : (s.heap.newInstance c).1.Vetted P := hs.of_functions rfl
  unfold construct
  dsimp only
  split
  · exact .intro trivial hstack hheap
  · rename_i f hmethod
    let i := s.heap.instances.size
    have hwaits : Pending.VettedEach P kind (.initializer i :: stack) := .work trivial hstack
    obtain ⟨hbound, hf⟩ := hheap.bindMethod (hheap.method? hmethod) i
    exact enter_vetted (s := { s with heap := _ }) hwaits hbound hf arguments paren

theorem invoke_vetted (callee : Value) (arguments : List Value) (paren : Token) :
    (invoke callee arguments paren stack s).Vetted P := by
  have hfailing (f : Fault) : Machine.Vetted P ⟨.failing f, stack, s⟩ := .intro trivial hstack hs
  cases callee with
  | native f =>
      simp only [invoke]
      split
      · exact .intro trivial hstack hs
      · exact hfailing _
  | function id =>
      simp only [invoke]
      split
      · split
        · exact enter_vetted hstack hs (hs id _ ‹_›) arguments paren
        · exact hfailing _
      · exact hfailing _
  | classObj c =>
      simp only [invoke]
      split
      · exact construct_vetted hstack hs c arguments paren
      · exact hfailing _
  | nil | bool | number | string | instanceObj => exact hfailing _

theorem leave_vetted (f : Function) (v : Value) : (leave f v stack s).Vetted P := by
  unfold leave
  dsimp only
  split
  · split <;> exact .intro trivial hstack hs
  · exact .intro trivial hstack hs

end Steps

/-! ### Going on after a task -/

theorem receive_vetted {p : Pending} (hwaits : Pending.VettedEach P kind (p :: stack))
    (hs : s.heap.Vetted P) (v : Value) : (receive v p stack s).Vetted P := by
  cases hwaits with
  | body hplace hinit hstack => exact .intro trivial (.body hplace hinit hstack) hs
  | work hp hstack =>
      have hvalue (u : Value) : Machine.Vetted P ⟨.value u, stack, s⟩ := .intro trivial hstack hs
      have heval {e : Expr} {p : Pending} (he : e.Written P) (hp : p.Vetted P kind) :
          Machine.Vetted P ⟨.eval e, p :: stack, s⟩ := .intro he (.work hp hstack) hs
      have hfailing (f : Fault) : Machine.Vetted P ⟨.failing f, stack, s⟩ :=
        .intro trivial hstack hs
      cases p with
      | unary | binaryRight => exact applied_vetted hstack hs _ _
      | binaryLeft operator right => exact heval hp.2.2 ⟨hp.1, hp.2.1⟩
      | logical operator right =>
          simp only [receive]
          generalize (if operator.kind = .kwOr then v.truthy else !v.truthy) = decided
          cases decided with
          | true => exact hvalue v
          | false => exact .intro hp hstack hs
      | assign id name =>
          simp only [receive]
          split
          · exact .intro trivial hstack (hs.of_functions rfl)
          · exact hfailing _
      | callee paren arguments =>
          cases arguments with
          | nil => exact .intro hp.1 hstack hs
          | cons e rest =>
              exact heval (hp.2 e List.mem_cons_self)
                ⟨hp.1, fun u hu => hp.2 u (List.mem_cons_of_mem _ hu)⟩
      | argument callee paren front rest =>
          cases rest with
          | nil => exact .intro hp.1 hstack hs
          | cons e rest =>
              exact heval (hp.2 e List.mem_cons_self)
                ⟨hp.1, fun u hu => hp.2 u (List.mem_cons_of_mem _ hu)⟩
      | get name => exact found_vetted hstack hs fun f i h => Session.property_vetted hs h
      | setObject name value =>
          cases v with
          | instanceObj i => exact heval hp.2 trivial
          | _ => exact hfailing _
      | setValue i name => exact .intro trivial hstack (hs.of_functions rfl)
      | expression => exact .intro trivial hstack hs
      | print =>
          simp only [receive, Session.print]
          rcases s.sink.write (s.heap.display v ++ "\n").toUTF8 with ⟨sink, result⟩
          cases result <;> exact .intro trivial hstack (hs.of_functions rfl)
      | var name => exact .intro trivial hstack (hs.of_functions rfl)
      | branch thenBranch elseBranch =>
          simp only [receive]
          split
          · exact .intro hp.1 hstack hs
          · cases elseBranch with
            | some st => exact .intro (hp.2 st rfl) hstack hs
            | none => exact .intro trivial hstack hs
      | loopTest condition body =>
          simp only [receive]
          split
          · exact .intro hp.2 (.work hp hstack) hs
          · exact .intro trivial hstack hs
      | ret => exact .intro ⟨hp.1, fun hkind => absurd hkind hp.2⟩ hstack hs
      | superclass name superclass methods =>
          cases v with
          | classObj c =>
              exact .intro trivial hstack (Session.declareClass_vetted hs _ (some c) hp.2)
          | _ => exact hfailing _
      | initializer i => exact hvalue _
      | body f => exact hp.elim
      | loopBody | block | program => exact .intro trivial (.work hp hstack) hs

theorem proceed_vetted {p : Pending} (hwaits : Pending.VettedEach P kind (p :: stack))
    (hs : s.heap.Vetted P) : (proceed p stack s).Vetted P := by
  cases hwaits with
  | body hplace hinit hstack => exact leave_vetted hstack hs _ _
  | work hp hstack =>
      cases p with
      | loopBody condition body => exact .intro hp.1 (.work hp hstack) hs
      | block rest outer =>
          cases rest with
          | nil => exact .intro trivial hstack hs
          | cons st rest =>
              exact .intro (hp st List.mem_cons_self)
                (.work (fun u hu => hp u (List.mem_cons_of_mem _ hu)) hstack) hs
      | program rest =>
          cases rest with
          | nil => exact .intro trivial hstack hs
          | cons st rest =>
              exact .intro (hp.2 st List.mem_cons_self)
                (.work ⟨hp.1, fun u hu => hp.2 u (List.mem_cons_of_mem _ hu)⟩ hstack) hs
      | body f => exact hp.elim
      | _ => exact .intro trivial (.work hp hstack) hs

theorem unwind_vetted {p : Pending} (hwaits : Pending.VettedEach P kind (p :: stack))
    (hs : s.heap.Vetted P) {v : Value} (hv : Task.Vetted P kind (.returning v)) :
    (unwind v p stack s).Vetted P := by
  cases hwaits with
  | body hplace hinit hstack => exact leave_vetted hstack hs _ _
  | work hp hstack =>
      cases p with
      | loopBody | block => exact .intro hv hstack hs
      | program rest => exact .intro trivial (.work hp hstack) hs
      | body f => exact hp.elim
      | _ => exact .intro hv (.work hp hstack) hs

theorem abandon_vetted {p : Pending} (hwaits : Pending.VettedEach P kind (p :: stack))
    (hs : s.heap.Vetted P) (f : Fault) : (abandon f p stack s).Vetted P := by
  cases hwaits with
  | body hplace hinit hstack => exact .intro trivial hstack hs
  | work hp hstack => cases p <;> exact .intro trivial hstack hs

theorem Vetted.step {m : Machine} (h : m.Vetted P) : m.step.Vetted P := by
  obtain ⟨htask, hstack, hs⟩ := h
  rename_i kind task stack s
  cases task with
  | eval e => exact evaluate_vetted hstack hs htask
  | exec st => exact execute_vetted hstack hs htask
  | call callee arguments paren => exact invoke_vetted hstack hs callee arguments paren
  | value v =>
      cases stack with
      | nil => exact .intro trivial hstack hs
      | cons p stack => exact receive_vetted hstack hs v
  | done =>
      cases stack with
      | nil => exact .intro trivial hstack hs
      | cons p stack => exact proceed_vetted hstack hs
  | returning v =>
      cases stack with
      | nil => exact .intro htask hstack hs
      | cons p stack => exact unwind_vetted hstack hs htask
  | failing f =>
      cases stack with
      | nil => exact .intro trivial hstack hs
      | cons p stack => exact abandon_vetted hstack hs f

theorem Vetted.run {m : Machine} (h : m.Vetted P) (n : Nat) : (Machine.run n m).Vetted P :=
  run_induct (Machine.Vetted P) (fun _ => Vetted.step) h n

/-! ### Returns -/

/-- No statement of a program returns. -/
theorem Vetted.not_returning_program {m : Machine} (h : m.Vetted P) {v : Value}
    (htask : m.task = .returning v) {rest : List Stmt} {stack : List Pending} :
    m.stack ≠ .program rest :: stack := by
  intro hstack
  obtain ⟨hv, hwaits, -⟩ := h
  obtain rfl : _ = Task.returning v := htask
  obtain rfl : _ = Pending.program rest :: stack := hstack
  cases hwaits with
  | work hp => exact hv.1 hp.1

/-- An initializer returns nothing. -/
theorem Vetted.returning_body {m : Machine} (h : m.Vetted P) {v : Value}
    (htask : m.task = .returning v) {f : Function} {stack : List Pending}
    (hstack : m.stack = .body f :: stack) (hinit : f.isInitializer = true) : v = .nil := by
  obtain ⟨hv, hwaits, -⟩ := h
  obtain rfl : _ = Task.returning v := htask
  obtain rfl : _ = Pending.body f :: stack := hstack
  cases hwaits with
  | work hp => exact hp.elim
  | body _ hkind => exact hv.2 (hkind hinit)

end Machine

end ScriptLang
