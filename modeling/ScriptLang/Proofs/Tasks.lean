import ScriptLang.Proofs.Locality

/-! Tasks from their beginning to their end. What a machine begins is over when it has come to a
result and only the work that waited for it is left. Up to then the machine does what it would do
if nothing waited. -/

namespace ScriptLang

/-- Whether a task is the result of what was done before. -/
def Task.isOver : Task → Bool
  | .eval _ | .exec _ | .call _ _ _ => false
  | .value _ | .done | .returning _ | .failing _ => true

namespace Machine

/-- What a machine begins is not over before `n` steps. -/
def Lasts (m : Machine) (n : Nat) : Prop :=
  ∀ k < n, (run k m).task.isOver = true → m.stack.length < (run k m).stack.length

instance (m : Machine) (n : Nat) : Decidable (m.Lasts n) :=
  inferInstanceAs (Decidable (∀ k < n, _ → _))

/-- What a machine begins is over after `n` steps, and what waited for it is left. -/
structure Finishes (m : Machine) (n : Nat) : Prop where
  lasts : m.Lasts n
  ended : (run n m).task.isOver = true
  stack : (run n m).stack = m.stack

/-- The machine without the work that waits. -/
def alone (m : Machine) : Machine := { m with stack := [] }

theorem halted_iff {m : Machine} : m.halted = true ↔ m.task.isOver = true ∧ m.stack = [] := by
  obtain ⟨task, stack, s⟩ := m
  cases task <;> cases stack <;> simp [halted, Task.isOver]

/-- A run of a machine that has something left to do is the same with more work below. -/
theorem run_below {m : Machine} (base : List Pending) {n : Nat}
    (h : ∀ k < n, (run k m).halted = false) : run n (m.below base) = (run n m).below base := by
  induction n generalizing m with
  | zero => rfl
  | succ n ih =>
      have hstart : m.halted = false := h 0 (Nat.succ_pos n)
      rw [run_succ, run_succ, step_below hstart]
      apply ih
      intro k hk
      rw [← run_succ]
      exact h (k + 1) (Nat.succ_lt_succ hk)

/-- What lasts does not stop when nothing waits for it. -/
theorem Lasts.alone_not_halted {m : Machine} {n : Nat} (h : m.Lasts n) :
    ∀ k < n, (run k m.alone).halted = false := by
  intro k
  induction k using Nat.strongRecOn with
  | ind k ih =>
      intro hk
      rw [Bool.eq_false_iff]
      intro hhalted
      obtain ⟨hover, hstack⟩ := halted_iff.mp hhalted
      have hrun : run k m = (run k m.alone).below m.stack :=
        run_below m.stack fun j hj => ih j hj (Nat.lt_trans hj hk)
      have hhigher := h k hk (by rw [hrun]; exact hover)
      rw [hrun, below_stack, hstack] at hhigher
      exact Nat.lt_irrefl _ hhigher

/-- As long as it lasts, what a machine does is what it would do alone. -/
theorem Lasts.run_eq {m : Machine} {n : Nat} (h : m.Lasts n) :
    run n m = (run n m.alone).below m.stack :=
  run_below m.stack h.alone_not_halted

theorem Lasts.session_eq {m : Machine} {n : Nat} (h : m.Lasts n) :
    (run n m).session = (run n m.alone).session := by
  rw [h.run_eq, below_session]

/-- What is over is over for the machine alone. -/
theorem Finishes.alone_stack {m : Machine} {n : Nat} (h : m.Finishes n) :
    (run n m.alone).stack = [] := by
  have hstack := h.stack
  rw [h.lasts.run_eq, below_stack] at hstack
  exact List.append_left_eq_self.mp hstack

end Machine

end ScriptLang
