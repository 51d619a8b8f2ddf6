import ScriptLang.Proofs.Frames.Coherence
import ScriptLang.Proofs.Locality

/-! Where the superclass in a frame comes from: it is what the name of the superclass stood for
when the class was declared. -/

namespace ScriptLang

/-- Work that waits for a superclass. -/
def Pending.isSuperclass : Pending → Bool
  | .superclass _ _ _ => true
  | _ => false

namespace Machine

/-- No work of a stack waits for a superclass. -/
def Plain (stack : List Pending) : Prop := ∀ p ∈ stack, p.isSuperclass = false

theorem plain_nil : Plain [] := by simp [Plain]

theorem plain_cons {p : Pending} {stack : List Pending} :
    Plain (p :: stack) ↔ p.isSuperclass = false ∧ Plain stack := by
  simp [Plain]

theorem plain_append {front base : List Pending} :
    Plain (front ++ base) ↔ Plain front ∧ Plain base := by
  simp only [Plain, List.mem_append, or_imp, forall_and]

/-- No work waits for a superclass, or the machine is in the steps of a class declaration of the
`past`: it reads the name that the class extends, or has read it. -/
inductive SeeksSuperclass (past : Machine → Prop) : Machine → Prop where
  | plain {m : Machine} : Plain m.stack → SeeksSuperclass past m
  | reads {name id parent methods stack s} :
      past ⟨.exec (.classDecl name (some (.variable id parent)) methods), stack, s⟩ →
      Plain stack → SeeksSuperclass past
        ⟨.eval (.variable id parent), .superclass name (.variable id parent) methods :: stack, s⟩
  | found {name id parent methods stack s} :
      past ⟨.exec (.classDecl name (some (.variable id parent)) methods), stack, s⟩ →
      Plain stack → SeeksSuperclass past
        (readName id parent (.superclass name (.variable id parent) methods :: stack) s)

section

variable (s : Session)

theorem evaluate_plain (e : Expr) : Plain (evaluate e [] s).stack := by
  cases e with
  | «variable» id name | this id name =>
      simp only [evaluate, readName]
      split <;> exact plain_nil
  | super id keyword method =>
      simp only [evaluate, found]
      split <;> exact plain_nil
  | literal | grouping => exact plain_nil
  | _ => exact plain_cons.mpr ⟨rfl, plain_nil⟩

theorem execute_plain {st : Stmt}
    (h : ∀ name superclass methods, st ≠ .classDecl name (some superclass) methods) :
    Plain (execute st [] s).stack := by
  cases st with
  | var name value | ret name value =>
      cases value with
      | none => exact plain_nil
      | some e => exact plain_cons.mpr ⟨rfl, plain_nil⟩
  | classDecl name superclass methods =>
      cases superclass with
      | none => exact plain_nil
      | some superclass => exact absurd rfl (h name superclass methods)
  | function => exact plain_nil
  | _ => exact plain_cons.mpr ⟨rfl, plain_nil⟩

theorem enter_plain (f : Function) (arguments : List Value) (paren : Token) {stack : List Pending}
    (h : Plain stack) : Plain (enter f arguments paren stack s).stack := by
  unfold enter
  split
  · exact h
  · exact plain_cons.mpr ⟨rfl, plain_cons.mpr ⟨rfl, h⟩⟩

theorem invoke_plain (callee : Value) (arguments : List Value) (paren : Token) :
    Plain (invoke callee arguments paren [] s).stack := by
  unfold invoke
  split
  · split <;> exact plain_nil
  · split
    · split
      · exact enter_plain s _ arguments paren plain_nil
      · exact plain_nil
    · exact plain_nil
  · simp only
    split
    · unfold construct
      simp only
      split
      · exact plain_nil
      · exact enter_plain _ _ arguments paren (plain_cons.mpr ⟨rfl, plain_nil⟩)
    · exact plain_nil
  · exact plain_nil

theorem leave_plain (f : Function) (v : Value) : Plain (leave f v [] s).stack := by
  simp only [leave]
  split
  · split <;> exact plain_nil
  · exact plain_nil

theorem receive_plain (v : Value) {p : Pending} (hp : p.isSuperclass = false) :
    Plain (receive v p [] s).stack := by
  have hone {q : Pending} (hq : q.isSuperclass = false) : Plain [q] :=
    plain_cons.mpr ⟨hq, plain_nil⟩
  cases p with
  | unary operator | binaryRight left operator =>
      simp only [receive, applied]
      split <;> exact plain_nil
  | logical operator right =>
      simp only [receive]
      generalize (if operator.kind = .kwOr then v.truthy else !v.truthy) = decided
      cases decided <;> exact plain_nil
  | assign id name =>
      simp only [receive]
      split <;> exact plain_nil
  | callee paren arguments =>
      cases arguments with
      | nil => exact plain_nil
      | cons e rest => exact hone rfl
  | argument callee paren front rest =>
      cases rest with
      | nil => exact plain_nil
      | cons e rest => exact hone rfl
  | get name =>
      simp only [receive, found]
      split <;> exact plain_nil
  | setObject name value =>
      cases v with
      | instanceObj i => exact hone rfl
      | _ => exact plain_nil
  | print =>
      simp only [receive]
      split <;> exact plain_nil
  | branch thenBranch elseBranch =>
      simp only [receive]
      split
      · exact plain_nil
      · cases elseBranch <;> exact plain_nil
  | loopTest condition body =>
      simp only [receive]
      split
      · exact hone rfl
      · exact plain_nil
  | superclass name superclass methods => cases hp
  | setValue | expression | var | ret | initializer => exact plain_nil
  | _ => exact hone rfl

theorem proceed_plain {p : Pending} (hp : p.isSuperclass = false) :
    Plain (proceed p [] s).stack := by
  cases p with
  | block rest outer | program rest =>
      cases rest with
      | nil => exact plain_nil
      | cons st rest => exact plain_cons.mpr ⟨rfl, plain_nil⟩
  | body f => exact leave_plain s f .nil
  | _ => exact plain_cons.mpr ⟨hp, plain_nil⟩

theorem unwind_plain (v : Value) {p : Pending} (hp : p.isSuperclass = false) :
    Plain (unwind v p [] s).stack := by
  cases p with
  | body f => exact leave_plain s f v
  | block | loopBody => exact plain_nil
  | _ => exact plain_cons.mpr ⟨hp, plain_nil⟩

theorem abandon_plain (f : Fault) (p : Pending) : Plain (abandon f p [] s).stack := by
  cases p <;> exact plain_nil

end

/-- Only declaring a derived class makes work wait for a superclass. -/
theorem step_plain {m : Machine} (h : Plain m.stack)
    (htask : ∀ name superclass methods,
      m.task ≠ .exec (.classDecl name (some superclass) methods)) :
    Plain m.step.stack := by
  obtain ⟨task, stack, s⟩ := m
  have hbelow {m : Machine} {base : List Pending} (hm : Plain m.stack) (hbase : Plain base) :
      Plain (m.below base).stack := plain_append.mpr ⟨hm, hbase⟩
  cases task with
  | eval e =>
      rw [step, evaluate_below]
      exact hbelow (evaluate_plain s e) h
  | exec st =>
      rw [step, execute_below]
      exact hbelow (execute_plain s fun name superclass methods hst =>
        htask name superclass methods (congrArg Task.exec hst)) h
  | call callee arguments paren =>
      rw [step, invoke_below]
      exact hbelow (invoke_plain s callee arguments paren) h
  | value v =>
      cases stack with
      | nil => exact h
      | cons p stack =>
          rw [step, receive_below]
          exact hbelow (receive_plain s v (plain_cons.mp h).1) (plain_cons.mp h).2
  | done =>
      cases stack with
      | nil => exact h
      | cons p stack =>
          rw [step, proceed_below]
          exact hbelow (proceed_plain s (plain_cons.mp h).1) (plain_cons.mp h).2
  | returning v =>
      cases stack with
      | nil => exact h
      | cons p stack =>
          rw [step, unwind_below]
          exact hbelow (unwind_plain s v (plain_cons.mp h).1) (plain_cons.mp h).2
  | failing f =>
      cases stack with
      | nil => exact h
      | cons p stack =>
          rw [step, abandon_below]
          exact hbelow (abandon_plain s f p) (plain_cons.mp h).2

/-- A step goes on with the class declaration, ends it, or begins one. -/
theorem SeeksSuperclass.step {past later : Machine → Prop} {h : History} {m : Machine}
    (hseeks : m.SeeksSuperclass past) (hcoherent : Moment.Coherent ⟨h, m⟩)
    (hpast : ∀ m, past m → later m) (hnow : later m) : m.step.SeeksSuperclass later := by
  cases hseeks with
  | plain hplain =>
      by_cases hclass : ∃ name superclass methods,
          m.task = .exec (.classDecl name (some superclass) methods)
      · obtain ⟨name, superclass, methods, htask⟩ := hclass
        obtain ⟨task, stack, s⟩ := m
        obtain rfl : task = _ := htask
        obtain ⟨setting, scopes, sites, hvisited, -⟩ := hcoherent.works
        obtain ⟨id, parent, rfl, -⟩ := Point.accepted_superclass (hcoherent.ok.visited hvisited).1
        exact .reads hnow hplain
      · exact .plain (step_plain hplain fun name superclass methods htask =>
          hclass ⟨name, superclass, methods, htask⟩)
  | reads hdeclared hplain => exact .found (hpast _ hdeclared) hplain
  | found _ hplain =>
      rw [readName]
      split
      · rename_i v _
        cases v <;> exact .plain hplain
      · exact .plain hplain

/-- Work that waits for a superclass is given what the name of the superclass stands for, and a
class declaration made it wait. -/
theorem SeeksSuperclass.read? {past : Machine → Prop} {m : Machine}
    (hseeks : m.SeeksSuperclass past) {v : Value} (htask : m.task = .value v) {name : Token}
    {superclass : Expr} {methods : List FunctionDecl} {rest : List Pending}
    (hstack : m.stack = .superclass name superclass methods :: rest) :
    ∃ id parent, superclass = .variable id parent ∧
      m.session.read? id parent.lexeme = some v ∧
      past ⟨.exec (.classDecl name (some superclass) methods), rest, m.session⟩ := by
  cases hseeks with
  | plain hplain =>
      rw [hstack] at hplain
      cases hplain _ List.mem_cons_self
  | reads => cases htask
  | @found _ id parent _ _ s hdeclared =>
      cases hread : s.read? id parent.lexeme with
      | none =>
          simp only [readName, hread] at htask
          cases htask
      | some u =>
          simp only [readName, hread] at htask hstack ⊢
          cases htask
          cases hstack
          exact ⟨id, parent, rfl, hread, hdeclared⟩

/-- The frame of a superclass is opened when its class is given to the declaration. -/
theorem opens_of_super {m : Machine} {name : Token} {methods : List FunctionDecl} {c : ClassId}
    (h : .super name methods c ∈ m.opens) :
    m.opens = [.super name methods c] ∧ m.task = .value (.classObj c) ∧
      ∃ superclass rest, m.stack = .superclass name superclass methods :: rest := by
  have hbinds {property : Except Fault Session.Property} :
      .super name methods c ∉ binds property := by
    unfold binds
    split <;> simp
  have henters {f : Function} {s : Session} : .super name methods c ∉ enters f s := by
    unfold enters
    split <;> simp
  obtain ⟨task, stack, s⟩ := m
  unfold opens at h ⊢
  split at h
  · simp at h
  · exact absurd h hbinds
  · unfold calls at h
    split at h
    · split at h
      · split at h
        · exact absurd h henters
        · simp at h
      · simp at h
    · split at h
      · split at h
        · exact absurd ((List.mem_cons.mp h).resolve_left nofun) henters
        · simp at h
      · simp at h
    · simp at h
  · rename_i v p rest htask hstack
    unfold receives at h
    split at h
    · exact absurd h hbinds
    · split at h
      · obtain ⟨rfl, rfl, rfl⟩ : name = _ ∧ methods = _ ∧ c = _ := by simpa using h
        exact ⟨rfl, htask, _, _, hstack⟩
      · simp at h
    · simp at h
  · simp at h

end Machine

namespace Moment

/-- At this moment a class is declared whose superclass is `c`, as the name of the superclass says,
and the frame `g` is opened to hold it. -/
structure Declares (a : Moment) (name : Token) (methods : List FunctionDecl) (c : ClassId)
    (g : FrameId) : Prop where
  task : a.machine.task = .value (.classObj c)
  superclass : ∃ id parent rest,
    a.machine.stack = .superclass name (.variable id parent) methods :: rest ∧
    a.machine.session.read? id parent.lexeme = some (.classObj c)
  frame : a.machine.session.heap.frames.size = g

theorem declares_of_opens {past : Machine → Prop} {h : History} {m : Machine}
    (hseeks : m.SeeksSuperclass past)
    (hsize : h.openings.length = m.session.heap.frames.size) {g : FrameId}
    (hge : h.openings.length ≤ g) {name : Token} {methods : List FunctionDecl} {c : ClassId}
    (hnew : (m.opens.map some)[g - h.openings.length]? = some (some (.super name methods c))) :
    Declares ⟨h, m⟩ name methods c g := by
  have hmem : .super name methods c ∈ m.opens := by
    simpa using List.mem_of_getElem? hnew
  obtain ⟨hopens, htask, superclass, rest, hstack⟩ := Machine.opens_of_super hmem
  refine ⟨htask, ?_, ?_⟩
  · obtain ⟨id, parent, rfl, hread, -⟩ := hseeks.read? htask hstack
    exact ⟨id, parent, rest, hstack, hread⟩
  · rw [hopens] at hnew
    obtain ⟨hlt, -⟩ := List.getElem?_eq_some_iff.mp hnew
    simp only [List.map_cons, List.map_nil, List.length_singleton] at hlt
    show m.session.heap.frames.size = g
    omega

/-- Every frame of a superclass was opened when its class was declared. -/
theorem Later.declares {sink : Sink} {reading : Nat → Float} {a : Moment}
    (h : Later (idle .start (.new sink reading)) a) :
    a.machine.SeeksSuperclass (fun _ => True) ∧
      ∀ g name methods c, a.world.openedFor g (.super name methods c) →
        ∃ b, b.Reached ∧ Later b a ∧ b.Declares name methods c g := by
  induction h with
  | refl =>
      refine ⟨.plain Machine.plain_nil, fun g name methods c hg => ?_⟩
      cases g <;> cases hg
  | next hlater hnext ih =>
      rename_i a a'
      have hcoherent : a.Coherent := Reached.coherent ⟨sink, reading, hlater⟩
      obtain ⟨hseeks, hpast⟩ := ih
      have hkept {g : FrameId} {name : Token} {methods : List FunctionDecl} {c : ClassId}
          (hg : a.world.openedFor g (.super name methods c)) :
          ∃ b, b.Reached ∧ Later b a' ∧ b.Declares name methods c g := by
        obtain ⟨b, hb, hlater', hdeclares⟩ := hpast g name methods c hg
        exact ⟨b, hb, hlater'.next hnext, hdeclares⟩
      cases hnext with
      | finish | reject => exact ⟨.plain Machine.plain_nil, fun _ _ _ _ => hkept⟩
      | start =>
          exact ⟨.plain (Machine.plain_cons.mpr ⟨rfl, Machine.plain_nil⟩), fun _ _ _ _ => hkept⟩
      | step hhalted =>
          rename_i h m
          refine ⟨hseeks.step hcoherent (fun _ => id) trivial, fun g name methods c hg => ?_⟩
          rcases Nat.lt_or_ge g h.openings.length with hlt | hge
          · exact hkept ((List.getElem?_append_left hlt).symm.trans hg)
          · have hnew : (m.opens.map some)[g - h.openings.length]? = some (some _) :=
              (List.getElem?_append_right hge).symm.trans hg
            refine ⟨⟨h, m⟩, ⟨sink, reading, hlater⟩, .next (.refl _) (.step hhalted), ?_⟩
            exact declares_of_opens hseeks hcoherent.ok.size hge hnew

end Moment

end ScriptLang
