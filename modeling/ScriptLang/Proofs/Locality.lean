import ScriptLang.Machine

/-! A step does not look below the work that it ends: the rest of the stack is carried along. -/

namespace ScriptLang

namespace Machine

/-- A machine with more work at the bottom of its stack. -/
def below (m : Machine) (base : List Pending) : Machine := { m with stack := m.stack ++ base }

@[simp]
theorem below_stack (m : Machine) (base : List Pending) :
    (m.below base).stack = m.stack ++ base := rfl

@[simp]
theorem below_session (m : Machine) (base : List Pending) :
    (m.below base).session = m.session := rfl

theorem below_append (m : Machine) (front base : List Pending) :
    (m.below front).below base = m.below (front ++ base) := by
  simp [below]

section

variable (stack : List Pending) (s : Session)

theorem readName_below (id : ExprId) (name : Token) :
    readName id name stack s = (readName id name [] s).below stack := by
  unfold readName
  split <;> rfl

theorem found_below (property : Except Fault Session.Property) :
    found stack s property = (found [] s property).below stack := by
  unfold found
  split <;> rfl

theorem applied_below (operator : Token) (result : Except FaultCause Value) :
    applied operator stack s result = (applied operator [] s result).below stack := by
  cases result <;> rfl

theorem evaluate_below (e : Expr) : evaluate e stack s = (evaluate e [] s).below stack := by
  cases e with
  | «variable» id name | this id name => exact readName_below stack s id name
  | super id keyword method => exact found_below stack s _
  | _ => rfl

theorem execute_below (st : Stmt) : execute st stack s = (execute st [] s).below stack := by
  cases st with
  | var name value | ret name value | classDecl _ value => cases value <;> rfl
  | _ => rfl

theorem enter_below (f : Function) (arguments : List Value) (paren : Token)
    (front : List Pending) :
    enter f arguments paren (front ++ stack) s = (enter f arguments paren front s).below stack := by
  unfold enter
  split <;> rfl

theorem construct_below (c : ClassId) (arguments : List Value) (paren : Token) :
    construct c arguments paren stack s = (construct c arguments paren [] s).below stack := by
  unfold construct
  simp only
  split
  · rfl
  · exact enter_below stack _ _ arguments paren [_]

theorem invoke_below (callee : Value) (arguments : List Value) (paren : Token) :
    invoke callee arguments paren stack s = (invoke callee arguments paren [] s).below stack := by
  unfold invoke
  split
  · split <;> rfl
  · split
    · split
      · exact enter_below stack s _ arguments paren []
      · rfl
    · rfl
  · simp only
    split
    · exact construct_below stack s _ arguments paren
    · rfl
  · rfl

theorem leave_below (f : Function) (v : Value) :
    leave f v stack s = (leave f v [] s).below stack := by
  unfold leave
  simp only
  split
  · split <;> rfl
  · rfl

theorem receive_below (v : Value) (p : Pending) :
    receive v p stack s = (receive v p [] s).below stack := by
  cases p with
  | unary operator | binaryRight left operator => exact applied_below stack s operator _
  | logical operator right =>
      simp only [receive]
      generalize (if operator.kind = .kwOr then v.truthy else !v.truthy) = decided
      cases decided <;> rfl
  | assign id name =>
      simp only [receive]
      split <;> rfl
  | callee paren arguments => cases arguments <;> rfl
  | argument callee paren front rest => cases rest <;> rfl
  | get name => exact found_below stack s _
  | setObject name value => cases v <;> rfl
  | print =>
      simp only [receive]
      split <;> rfl
  | branch thenBranch elseBranch =>
      simp only [receive]
      split
      · rfl
      · cases elseBranch <;> rfl
  | loopTest condition body =>
      simp only [receive]
      split <;> rfl
  | superclass name superclass methods => cases v <;> rfl
  | _ => rfl

theorem proceed_below (p : Pending) : proceed p stack s = (proceed p [] s).below stack := by
  cases p with
  | block rest outer | program rest => cases rest <;> rfl
  | body f => exact leave_below stack s f .nil
  | _ => rfl

theorem unwind_below (v : Value) (p : Pending) :
    unwind v p stack s = (unwind v p [] s).below stack := by
  cases p with
  | body f => exact leave_below stack s f v
  | _ => rfl

theorem abandon_below (f : Fault) (p : Pending) :
    abandon f p stack s = (abandon f p [] s).below stack := by
  cases p <;> rfl

end

/-- A step of a machine that has something left to do is the same with more work below. -/
theorem step_below {m : Machine} (h : m.halted = false) (base : List Pending) :
    (m.below base).step = m.step.below base := by
  obtain ⟨task, stack, s⟩ := m
  cases task with
  | eval e =>
      show evaluate e (stack ++ base) s = (evaluate e stack s).below base
      rw [evaluate_below (stack ++ base), evaluate_below stack, below_append]
  | exec st =>
      show execute st (stack ++ base) s = (execute st stack s).below base
      rw [execute_below (stack ++ base), execute_below stack, below_append]
  | call callee arguments paren =>
      show invoke callee arguments paren (stack ++ base) s = (invoke callee _ _ stack s).below base
      rw [invoke_below (stack ++ base), invoke_below stack, below_append]
  | value v =>
      cases stack with
      | nil => cases h
      | cons p stack =>
          show receive v p (stack ++ base) s = (receive v p stack s).below base
          rw [receive_below (stack ++ base), receive_below stack, below_append]
  | done =>
      cases stack with
      | nil => cases h
      | cons p stack =>
          show proceed p (stack ++ base) s = (proceed p stack s).below base
          rw [proceed_below (stack ++ base), proceed_below stack, below_append]
  | returning v =>
      cases stack with
      | nil => cases h
      | cons p stack =>
          show unwind v p (stack ++ base) s = (unwind v p stack s).below base
          rw [unwind_below (stack ++ base), unwind_below stack, below_append]
  | failing f =>
      cases stack with
      | nil => cases h
      | cons p stack =>
          show abandon f p (stack ++ base) s = (abandon f p stack s).below base
          rw [abandon_below (stack ++ base), abandon_below stack, below_append]

end Machine

end ScriptLang
