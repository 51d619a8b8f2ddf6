import ScriptLang.Machine

/-! How running a script fails: the texts that say so, and the steps that a machine fails in. -/

namespace ScriptLang

/-- The texts with which a running script may fail. -/
inductive RuntimeText : String → Prop where
  | operand : RuntimeText "Operand must be a number."
  | operands : RuntimeText "Operands must be numbers."
  | addends : RuntimeText "Operands must be two numbers or two strings."
  | undefinedVariable {name : String} : name ≠ "this" → name ≠ "super" →
      RuntimeText ("Undefined variable '" ++ name ++ "'.")
  | callee : RuntimeText "Can only call functions and classes."
  | arity {expected got : Nat} : got ≠ expected →
      RuntimeText ("Expected " ++ expected.repr ++ " arguments but got " ++ got.repr ++ ".")
  | properties : RuntimeText "Only instances have properties."
  | fields : RuntimeText "Only instances have fields."
  | undefinedProperty {name : String} : name ≠ "this" → name ≠ "super" →
      RuntimeText ("Undefined property '" ++ name ++ "'.")
  | superclass : RuntimeText "Superclass must be a class."
  | depth : RuntimeText "Stack overflow."

/-- Why a script fails that was checked. -/
def FaultCause.Regular : FaultCause → Prop
  | .invalidUnary | .invalidBinary => False
  | .undefinedVariable name | .undefinedProperty name => name ≠ "this" ∧ name ≠ "super"
  | .wrongArity expected got => got ≠ expected
  | _ => True

theorem FaultCause.Regular.text {cause : FaultCause} (h : cause.Regular) :
    RuntimeText cause.text := by
  cases cause with
  | operandNotNumber => exact .operand
  | operandsNotNumbers => exact .operands
  | operandsNotAddable => exact .addends
  | undefinedVariable => exact .undefinedVariable h.1 h.2
  | undefinedProperty => exact .undefinedProperty h.1 h.2
  | notCallable => exact .callee
  | wrongArity => exact .arity h
  | noProperties => exact .properties
  | noFields => exact .fields
  | superclassNotClass => exact .superclass
  | stackOverflow => exact .depth
  | invalidUnary | invalidBinary => exact h.elim

namespace Machine

/-! ### Steps that fail -/

/-- The ways in which a step fails. -/
inductive Raises : Machine → Fault → Prop where
  | variable {id name stack s} :
      Raises ⟨.eval (.variable id name), stack, s⟩ (Session.undefined name)
  | this {id keyword stack s} : s.read? id keyword.lexeme = none →
      Raises ⟨.eval (.this id keyword), stack, s⟩ (Session.undefined keyword)
  | super {id keyword method stack s f} : s.superMethod id keyword method = .error f →
      Raises ⟨.eval (.super id keyword method), stack, s⟩ f
  | callee {v arguments paren stack s} :
      Raises ⟨.call v arguments paren, stack, s⟩ (.raised paren .notCallable)
  | arity {v arguments paren stack s expected} : arguments.length ≠ expected →
      Raises ⟨.call v arguments paren, stack, s⟩
        (.raised paren (.wrongArity expected arguments.length))
  | depth {v arguments paren stack s} :
      Raises ⟨.call v arguments paren, stack, s⟩ (.raised paren .stackOverflow)
  | unary {v operator stack s cause} : v.applyUnary operator.kind = .error cause →
      Raises ⟨.value v, .unary operator :: stack, s⟩ (.raised operator cause)
  | binary {v left operator stack s cause} : left.applyBinary operator.kind v = .error cause →
      Raises ⟨.value v, .binaryRight left operator :: stack, s⟩ (.raised operator cause)
  | assign {v id name stack s} :
      Raises ⟨.value v, .assign id name :: stack, s⟩ (Session.undefined name)
  | property {v name stack s f} : s.property v name = .error f →
      Raises ⟨.value v, .get name :: stack, s⟩ f
  | field {v name value stack s} :
      Raises ⟨.value v, .setObject name value :: stack, s⟩ (.raised name .noFields)
  | superclass {v name superclass methods stack s} : (∀ c, v ≠ .classObj c) →
      Raises ⟨.value v, .superclass name superclass methods :: stack, s⟩
        (.raised (superclassToken name superclass) .superclassNotClass)
  | print {v stack s e} : Raises ⟨.value v, .print :: stack, s⟩ (.sink e)
  | leave {task f stack s} : f.isInitializer = true →
      s.heap.getAt? f.closure 0 Session.thisToken.lexeme = none →
      Raises ⟨task, .body f :: stack, s⟩ (Session.undefined Session.thisToken)

theorem step_of_failing {m : Machine} {f : Fault} (h : m.task = .failing f) :
    m.step.task = .failing f := by
  obtain ⟨task, stack, s⟩ := m
  obtain rfl : task = .failing f := h
  cases stack with
  | nil => rfl
  | cons p stack => cases p <;> rfl

variable {stack : List Pending} {s : Session} {f : Fault}

theorem evaluate_raises {e : Expr} (h : (evaluate e stack s).task = .failing f) :
    Raises ⟨.eval e, stack, s⟩ f := by
  have hfound {r : Except Fault Session.Property} (h : (found stack s r).task = .failing f) :
      r = .error f := by
    unfold found at h
    split at h <;> cases h
    rfl
  cases e with
  | «variable» id name =>
      simp only [evaluate, readName] at h
      split at h <;> cases h
      exact .variable
  | this id keyword =>
      simp only [evaluate, readName] at h
      split at h <;> cases h
      exact .this ‹_›
  | super id keyword method => exact .super (hfound h)
  | _ => cases h

theorem execute_ne_failing (st : Stmt) : (execute st stack s).task ≠ .failing f := by
  cases st with
  | var name initializer => cases initializer <;> exact nofun
  | ret keyword value => cases value <;> exact nofun
  | classDecl name superclass methods => cases superclass <;> exact nofun
  | _ => exact nofun

theorem enter_failing {g : Function} {arguments : List Value} {paren : Token}
    (h : (enter g arguments paren stack s).task = .failing f) :
    f = .raised paren .stackOverflow := by
  unfold enter at h
  split at h <;> cases h
  rfl

theorem invoke_raises {callee : Value} {arguments : List Value} {paren : Token}
    (h : (invoke callee arguments paren stack s).task = .failing f) :
    Raises ⟨.call callee arguments paren, stack, s⟩ f := by
  cases callee with
  | native g =>
      simp only [invoke] at h
      split at h <;> cases h
      exact .arity ‹_›
  | function id =>
      simp only [invoke] at h
      split at h
      · split at h
        · obtain rfl := enter_failing h
          exact .depth
        · cases h
          exact .arity ‹_›
      · cases h
        exact .callee
  | classObj c =>
      simp only [invoke] at h
      split at h
      · unfold construct at h
        dsimp only at h
        split at h
        · cases h
        · obtain rfl := enter_failing h
          exact .depth
      · cases h
        exact .arity ‹_›
  | _ =>
      cases h
      exact .callee

theorem leave_raises {g : Function} {v : Value} (task : Task)
    (h : (leave g v stack s).task = .failing f) : Raises ⟨task, .body g :: stack, s⟩ f := by
  unfold leave at h
  dsimp only at h
  split at h
  · split at h <;> cases h
    exact .leave ‹_› ‹_›
  · cases h

theorem receive_raises {v : Value} {p : Pending} (h : (receive v p stack s).task = .failing f) :
    Raises ⟨.value v, p :: stack, s⟩ f := by
  cases p with
  | unary operator =>
      simp only [receive, applied] at h
      split at h <;> cases h
      exact .unary ‹_›
  | binaryRight left operator =>
      simp only [receive, applied] at h
      split at h <;> cases h
      exact .binary ‹_›
  | logical operator right =>
      simp only [receive] at h
      generalize (if operator.kind = .kwOr then v.truthy else !v.truthy) = decided at h
      cases decided <;> cases h
  | assign id name =>
      simp only [receive] at h
      split at h <;> cases h
      exact .assign
  | callee paren arguments => cases arguments <;> cases h
  | argument callee paren front rest => cases rest <;> cases h
  | get name =>
      simp only [receive, found] at h
      split at h <;> cases h
      exact .property ‹_›
  | setObject name value =>
      cases v <;> cases h <;> exact .field
  | print =>
      simp only [receive] at h
      split at h <;> cases h
      exact .print
  | branch thenBranch elseBranch =>
      simp only [receive] at h
      split at h
      · cases h
      · cases elseBranch <;> cases h
  | loopTest condition body =>
      simp only [receive] at h
      split at h <;> cases h
  | superclass name superclass methods =>
      cases v with
      | classObj c => cases h
      | _ =>
          cases h
          exact .superclass nofun
  | _ => cases h

/-- A step that fails does so in one of these ways. -/
theorem raises_of_step {m : Machine} (hm : ∀ g, m.task ≠ .failing g)
    (h : m.step.task = .failing f) : m.Raises f := by
  obtain ⟨task, stack, s⟩ := m
  cases task with
  | eval e => exact evaluate_raises h
  | exec st => exact absurd h (execute_ne_failing st)
  | call callee arguments paren => exact invoke_raises h
  | failing g => exact absurd rfl (hm g)
  | value v =>
      cases stack with
      | nil => cases h
      | cons p stack => exact receive_raises h
  | done =>
      cases stack with
      | nil => cases h
      | cons p stack =>
          cases p with
          | body g => exact leave_raises _ h
          | block rest outer | program rest => cases rest <;> cases h
          | _ => cases h
  | returning v =>
      cases stack with
      | nil => cases h
      | cons p stack =>
          cases p with
          | body g => exact leave_raises _ h
          | _ => cases h

theorem run_add_one (n : Nat) (m : Machine) : run (n + 1) m = (run n m).step := by
  rw [run_add n 1, run_succ 0]
  rfl

/-- A machine that has failed took a step that fails. -/
theorem exists_raises {m : Machine} (hm : ∀ g, m.task ≠ .failing g) {n : Nat}
    (h : (run n m).task = .failing f) : ∃ k < n, (run k m).Raises f := by
  induction n with
  | zero => exact absurd h (hm f)
  | succ n ih =>
      rw [run_add_one] at h
      -- A failure that was there before the last step is only passed on by it.
      by_cases hbefore : ∃ g, (run n m).task = .failing g
      · obtain ⟨g, hg⟩ := hbefore
        obtain rfl : g = f := Task.failing.inj ((step_of_failing hg).symm.trans h)
        obtain ⟨k, hk, hraises⟩ := ih hg
        exact ⟨k, Nat.lt_succ_of_lt hk, hraises⟩
      · exact ⟨n, Nat.lt_succ_self n, raises_of_step (fun g hg => hbefore ⟨g, hg⟩) h⟩

end Machine

end ScriptLang
