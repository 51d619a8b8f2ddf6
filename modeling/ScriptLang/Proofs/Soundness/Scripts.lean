import ScriptLang.Proofs.Frames.Agreement
import ScriptLang.Proofs.Frames.Superclass
import ScriptLang.Proofs.Joining.Scripts
import ScriptLang.Proofs.Soundness.Faults
import ScriptLang.Proofs.Soundness.Machines

/-! How scripts fail that keep the rules. A failure is told by one of the listed texts, at a token
of a script of the session, and the branches that only a broken script could take are never
taken. -/

namespace ScriptLang

/-! ### Class declarations -/

namespace Machine

variable {start : Machine}

/-- A class is declared that extends the name `t`, which stands for no class. -/
def ExtendsNoClass (m : Machine) (t : Token) : Prop :=
  ∃ name id methods v, m.task = .exec (.classDecl name (some (.variable id t)) methods) ∧
    m.session.read? id t.lexeme = some v ∧ ∀ c, v ≠ .classObj c

/-- What waits for a superclass is given a value that is no class. -/
def RefusesSuperclass (m : Machine) (t : Token) : Prop :=
  ∃ v name superclass methods stack, m.task = .value v ∧
    m.stack = .superclass name superclass methods :: stack ∧ (∀ c, v ≠ .classObj c) ∧
    t = superclassToken name superclass

theorem run_seeksSuperclass (hstart : Plain start.stack)
    (hcoherent : ∀ k, ∃ h, Moment.Coherent ⟨h, run k start⟩) (k : Nat) :
    (run k start).SeeksSuperclass fun m => ∃ j < k, run j start = m := by
  induction k with
  | zero => exact .plain hstart
  | succ k ih =>
      obtain ⟨h, hcoherent⟩ := hcoherent k
      rw [run_add_one]
      refine ih.step hcoherent ?_ ⟨k, Nat.lt_succ_self k, rfl⟩
      rintro m ⟨j, hj, hrun⟩
      exact ⟨j, Nat.lt_succ_of_lt hj, hrun⟩

/-- A value that is no class is refused by a class declaration. -/
theorem RefusesSuperclass.extendsNoClass {k : Nat} {t : Token}
    (hrefuses : (run k start).RefusesSuperclass t) (hstart : Plain start.stack)
    (hcoherent : ∀ k, ∃ h, Moment.Coherent ⟨h, run k start⟩) :
    ∃ j < k, (run j start).ExtendsNoClass t := by
  obtain ⟨v, name, superclass, methods, stack, htask, hstack, hclass, rfl⟩ := hrefuses
  have hseeks := run_seeksSuperclass hstart hcoherent k
  obtain ⟨id, parent, rfl, hread, j, hj, hrun⟩ := hseeks.read? htask hstack
  refine ⟨j, hj, ?_⟩
  rw [hrun]
  exact ⟨name, id, methods, v, rfl, hread, hclass⟩

end Machine

/-! ### Failures of machines that were checked -/

/-- A failure of the sink, or one at a token with the property `P` for a reason that checked scripts
have. A class is asked for only to be extended. -/
def Machine.FailsRegularly (P : Token → Prop) (m : Machine) : Fault → Prop
  | .raised t cause =>
    P t ∧ cause.Regular ∧ (cause = .superclassNotClass → m.RefusesSuperclass t)
  | .sink _ => True

/-- The stack waits for a task to be over, whatever the task is. -/
theorem World.Works.waits {w : World} {frame : FrameId} {task : Task} {stack : List Pending}
    (h : w.Works frame task stack) :
    ∃ expects scopes sites, w.Waits expects frame scopes sites stack := by
  cases task with
  | eval e =>
      obtain ⟨-, -, scopes, sites, -, -, -, hwaits⟩ := h
      exact ⟨_, _, _, hwaits⟩
  | exec st =>
      obtain ⟨-, scopes, sites, -, -, hwaits⟩ := h
      exact ⟨_, _, _, hwaits⟩
  | call =>
      obtain ⟨-, -, scopes, sites, -, hwaits⟩ := h
      exact ⟨_, _, _, hwaits⟩
  | value | returning =>
      obtain ⟨-, scopes, sites, -, hwaits⟩ := h
      exact ⟨_, _, _, hwaits⟩
  | done =>
      obtain ⟨scopes, sites, -, hwaits⟩ := h
      exact ⟨_, _, _, hwaits⟩
  | failing => exact h

theorem Session.property_error {s : Session} {object : Value} {name : Token} {f : Fault}
    (h : s.property object name = .error f) :
    f = .raised name (.undefinedProperty name.lexeme) ∨ f = .raised name .noProperties := by
  unfold property at h
  split at h
  · split at h
    · cases h
    · split at h <;> cases h
      exact .inl rfl
  · cases h
    exact .inr rfl

namespace Moment

variable {h : History} {s : Session} {stack : List Pending} {id : ExprId} {keyword : Token}

/-- `this` is found. -/
theorem Coherent.read?_this (hcoherent : Coherent ⟨h, ⟨.eval (.this id keyword), stack, s⟩⟩) :
    s.read? id keyword.lexeme ≠ none := by
  obtain ⟨program, -, setting, scopes, outer, sites, -, haccepted, hplaced, hreads, hagrees,
    hhops⟩ := hcoherent.point
  obtain ⟨inner, m, i, -, g, hfound, -, -, -, -, hg, hthis⟩ :=
    Session.this_frame haccepted hplaced hreads hagrees
  have hkeyword : keyword.lexeme = "this" := haccepted.wellFormed
  have hhop := hhops id keyword rfl
  rw [hkeyword, hfound] at hhop
  have hinstance : s.heap.local? g "this" = some (.instanceObj i) := hcoherent.ok.holds _ _ hthis
  simp [Session.read?, hhop, Heap.getAt?, hg, hkeyword, hinstance]

/-- `super` fails only if the superclass has no such method. -/
theorem Coherent.superMethod_error {method : Token}
    (hcoherent : Coherent ⟨h, ⟨.eval (.super id keyword method), stack, s⟩⟩) {f : Fault}
    (herror : s.superMethod id keyword method = .error f) :
    f = .raised method (.undefinedProperty method.lexeme) := by
  obtain ⟨program, -, setting, scopes, outer, sites, -, haccepted, hplaced, hreads, hagrees,
    hhops⟩ := hcoherent.point
  obtain ⟨inner, m, i, name, methods, c, frame, g, hfound, -, -, -, hframe, hthis, hg, hsuper⟩ :=
    Session.super_frame haccepted hplaced hreads hagrees
  have hkeyword : keyword.lexeme = "super" := haccepted.wellFormed
  have hhop := hhops id keyword rfl
  rw [hkeyword, hfound] at hhop
  rw [Session.superMethod_eq hcoherent.ok hkeyword method hhop hframe hthis hg hsuper] at herror
  split at herror <;> cases herror
  rfl

/-- The body of an initializer is bound to an instance. -/
theorem Coherent.this_of_body {task : Task} {f : Function}
    (hcoherent : Coherent ⟨h, ⟨task, .body f :: stack, s⟩⟩) (hinit : f.isInitializer = true) :
    s.heap.getAt? f.closure 0 Session.thisToken.lexeme ≠ none := by
  obtain ⟨expects, scopes, sites, hwaits⟩ := hcoherent.works.waits
  cases hwaits with
  | body hcallable =>
      obtain ⟨i, hopened⟩ := hcallable.bound hinit
      have hthis : s.heap.getAt? f.closure 0 Session.thisToken.lexeme = some (.instanceObj i) :=
        hcoherent.ok.holds _ _ hopened
      rw [hthis]
      exact nofun

/-- A step of a checked script fails for a reason that checked scripts have. -/
theorem Coherent.failsRegularly {P : Token → Prop} {m : Machine} (hcoherent : Coherent ⟨h, m⟩)
    (hvetted : m.Vetted P) {f : Fault} (hraises : m.Raises f) : m.FailsRegularly P f := by
  obtain ⟨htask, hwaits, -⟩ := hvetted
  -- `this`, `super` and the end of an initializer are looked up in frames, which agree with the
  -- scopes of the script; all else that can fail was seen when the script was read.
  cases hraises with
  | «variable» =>
      cases htask with
      | «variable» ht hplain => exact ⟨ht, hplain, nofun⟩
  | this hread => exact absurd hread hcoherent.read?_this
  | super herror =>
      obtain rfl := hcoherent.superMethod_error herror
      cases htask with
      | super ht hplain => exact ⟨ht, hplain, nofun⟩
  | callee | depth => exact ⟨htask, trivial, nofun⟩
  | arity hlength => exact ⟨htask, hlength, nofun⟩
  | leave hinit hthis => exact absurd hthis (hcoherent.this_of_body hinit)
  | print => trivial
  | unary herror =>
      cases hwaits with
      | work hp _ =>
          obtain rfl := Value.applyUnary_eq_error hp.2 herror
          exact ⟨hp.1, trivial, nofun⟩
  | binary herror =>
      cases hwaits with
      | work hp _ =>
          rcases Value.applyBinary_eq_error hp.2 herror with rfl | rfl
          · exact ⟨hp.1, trivial, nofun⟩
          · exact ⟨hp.1, trivial, nofun⟩
  | assign =>
      cases hwaits with
      | work hp _ => exact ⟨hp.1, hp.2, nofun⟩
  | property herror =>
      cases hwaits with
      | work hp _ =>
          rcases Session.property_error herror with rfl | rfl
          · exact ⟨hp.1, hp.2, nofun⟩
          · exact ⟨hp.1, trivial, nofun⟩
  | field =>
      cases hwaits with
      | work hp _ => exact ⟨hp.1, trivial, nofun⟩
  | superclass hclass =>
      cases hwaits with
      | work hp _ =>
          obtain ⟨id, parent, rfl, hparent⟩ := hp.1
          exact ⟨hparent, trivial, fun _ => ⟨_, _, _, _, _, rfl, rfl, hclass, rfl⟩⟩

end Moment

/-! ### Scripts -/

/-- A token that stands in one of these scripts. -/
def Token.StandsIn (sources : List Source) (t : Token) : Prop :=
  ∃ source ∈ sources, t ∈ source.tokens

theorem Piece.le_line_of_mem_body {line : Nat} {ps : List Piece} {t : Token}
    (h : .token t ∈ Piece.body line ps) : line ≤ t.line := by
  induction ps generalizing line with
  | nil => cases h
  | cons p ps ih =>
      rcases List.mem_append.mp h with h | h
      · rw [Option.mem_toList] at h
        unfold Piece.item? at h
        split at h <;> cases h
        exact Nat.le_add_right _ _
      · exact Nat.le_trans (Nat.le_add_right _ _) (ih h)

/-- Lines are counted from one. -/
theorem Source.line_pos {source : Source} {t : Token} (h : t ∈ source.tokens) : 0 < t.line := by
  rw [source.tokens_eq] at h
  rcases List.mem_append.mp h with h | h
  · obtain ⟨item, hitem, htoken⟩ := List.mem_filterMap.mp h
    cases item with
    | token u =>
        obtain rfl : u = t := Option.some.inj htoken
        exact Piece.le_line_of_mem_body hitem
    | error e => cases htoken
  · rw [List.mem_singleton.mp h]
    exact Nat.lt_of_lt_of_le Nat.one_pos (Nat.le_add_right 1 _)

namespace Session

variable {P : Token → Prop} {sources : List Source} {history : History} {s s' : Session}
  {source : Source} {program : Program}

theorem ofProgram_vetted (hs : s.heap.Vetted P) (hprepare : s.prepare source = (.ok program, s'))
    (hsource : ∀ t ∈ source.tokens, P t) : (Machine.ofProgram program s').Vetted P := by
  have haccepted := (prepare_ok hprepare).1
  obtain ⟨-, next, hops, hderives, -, rfl⟩ := prepare_eq_ok_iff.mp hprepare
  have hwritten : ∀ st ∈ program, st.Written P := by
    apply hderives.written
    intro t ht
    have hmem := Source.mem_tokens ht
    exact ⟨hsource t hmem, source.tokens_fit t hmem⟩
  exact .intro trivial (.work ⟨rfl, Stmt.vettedEach hwritten haccepted⟩ .nil) hs

/-- What finished runs leave behind was checked. -/
theorem Ran.vetted (hran : s.Ran sources history)
    (hsources : ∀ source ∈ sources, ∀ t ∈ source.tokens, P t) : s.heap.Vetted P := by
  induction hran with
  | new sink reading => exact nofun
  | @run sources history s steps source hran _ ih =>
      have hs := ih fun other hother => hsources other (List.mem_cons_of_mem _ hother)
      rcases hprepare : s.prepare source with ⟨errors | program, s'⟩
      · obtain ⟨-, heq⟩ := prepare_error hprepare
        rw [Session.run, hprepare]
        show s'.heap.Vetted P
        rw [heq]
        exact hs
      · have hstart := ofProgram_vetted hs hprepare (hsources source List.mem_cons_self)
        rw [run_of_prepare hprepare]
        exact (hstart.run steps).heap

section Run

variable (hran : s.Ran sources history) (hprepare : s.prepare source = (.ok program, s'))
include hran hprepare

theorem Ran.run_vetted (n : Nat) :
    (Machine.run n (.ofProgram program s')).Vetted (Token.StandsIn (source :: sources)) := by
  have hs : s.heap.Vetted (Token.StandsIn (source :: sources)) :=
    hran.vetted fun script hscript t ht => ⟨script, List.mem_cons_of_mem _ hscript, ht⟩
  have hstart := ofProgram_vetted hs hprepare fun t ht => ⟨source, List.mem_cons_self, ht⟩
  exact hstart.run n

theorem Ran.run_coherent (n : Nat) :
    ∃ h, Moment.Coherent ⟨h, Machine.run n (.ofProgram program s')⟩ :=
  ⟨_, (Moment.reached_run hran hprepare n).coherent⟩

/-- An accepted script fails at a token of a script of the session, for a reason that checked
scripts have. -/
theorem Ran.regular_of_failing {n : Nat} {t : Token} {cause : FaultCause}
    (hfails : (Machine.run n (.ofProgram program s')).task = .failing (.raised t cause)) :
    t.StandsIn (source :: sources) ∧ cause.Regular ∧ (cause = .superclassNotClass →
      ∃ k < n, (Machine.run k (.ofProgram program s')).ExtendsNoClass t) := by
  obtain ⟨k, hk, hraises⟩ :=
    Machine.exists_raises (m := .ofProgram program s') nofun hfails
  obtain ⟨h, hcoherent⟩ := hran.run_coherent hprepare k
  obtain ⟨ht, hcause, hclass⟩ := hcoherent.failsRegularly (hran.run_vetted hprepare k) hraises
  refine ⟨ht, hcause, fun h => ?_⟩
  have hplain : Machine.Plain [.program program] :=
    Machine.plain_cons.mpr ⟨rfl, Machine.plain_nil⟩
  obtain ⟨j, hj, hextends⟩ := (hclass h).extendsNoClass hplain (hran.run_coherent hprepare)
  exact ⟨j, Nat.lt_trans hj hk, hextends⟩

end Run

end Session

theorem Machine.task_of_programEnding {m : Machine} {t : Token} {cause : FaultCause}
    (h : Outcome.ofEnding m.programEnding = .failed (.raised t cause)) :
    m.task = .failing (.raised t cause) := by
  unfold programEnding at h
  split at h <;> cases h
  assumption

/-- An accepted script that fails, other than for its sink, does so with one of the listed texts and
on the line of a token that stands in a script of the session; that what it extends should be a
class it is told only where it declares one. At no step is there an operator that cannot be applied,
a statement of the script that returns, or an initializer that returns a value. -/
theorem accepted_scripts_fail_only_as_listed {sources : List Source} {history : History}
    {s s' : Session} (hran : s.Ran sources history) {source : Source} {program : Program}
    (hprepare : s.prepare source = (.ok program, s')) (n : Nat) :
    let start := Machine.ofProgram program s'
    let m := Machine.run n start
    (∀ t cause, (s.run n source).1 = .failed (.raised t cause) →
      RuntimeText cause.text ∧ t.StandsIn (source :: sources) ∧ 0 < t.line ∧
      (cause = .superclassNotClass → ∃ k < n, (Machine.run k start).ExtendsNoClass t)) ∧
    (∀ t, m.task ≠ .failing (.raised t .invalidUnary) ∧
      m.task ≠ .failing (.raised t .invalidBinary)) ∧
    ∀ v, m.task = .returning v →
      (∀ rest stack, m.stack ≠ .program rest :: stack) ∧
      ∀ f stack, m.stack = .body f :: stack → f.isInitializer = true → v = .nil := by
  intro start m
  have hvetted : m.Vetted _ := hran.run_vetted hprepare n
  refine ⟨fun t cause hfailed => ?_, fun t => ⟨fun h => ?_, fun h => ?_⟩, fun v hv => ⟨?_, ?_⟩⟩
  · rw [Session.run_of_prepare hprepare] at hfailed
    obtain ⟨⟨script, hscript, ht⟩, hcause, hclass⟩ :=
      hran.regular_of_failing hprepare (Machine.task_of_programEnding hfailed)
    exact ⟨hcause.text, ⟨script, hscript, ht⟩, Source.line_pos ht, hclass⟩
  · exact (hran.regular_of_failing hprepare h).2.1
  · exact (hran.regular_of_failing hprepare h).2.1
  · exact fun rest stack => hvetted.not_returning_program hv
  · exact fun f stack hstack => hvetted.returning_body hv hstack

/-- After `fun f(){}` the second line of `class A{init(){return;}}A();` and `class B<f{}` fails,
because a function cannot be extended. -/
theorem accepted_scripts_fail_only_as_listed_superclass :
    let s := Session.new .unlimited fun _ => 0
    let first : Source := "fun f()\x7b\x7d".toUTF8.toList
    let more : Source :=
      "class A\x7binit()\x7breturn;\x7d\x7dA();\nclass B<f\x7b\x7d".toUTF8.toList
    let t := (s.run 20 first).2
    let parent : Token := ⟨.identifier, "f", 2⟩
    ∃ program t', t.prepare more = (.ok program, t') ∧
      (t.run 40 more).1 = .failed (.raised parent .superclassNotClass) ∧
      RuntimeText FaultCause.superclassNotClass.text ∧ parent.StandsIn [more, first] ∧
      ∃ k < 40, (Machine.run k (.ofProgram program t')).ExtendsNoClass parent := by
  intro s first more t parent
  have hfails : (t.run 40 more).1 = .failed (.raised parent .superclassNotClass) := by
    decide +kernel
  have hfinished : (s.run 20 first).1 ≠ .unfinished := by decide +kernel
  have hran : t.Ran [first] _ := .run 20 first (.new .unlimited fun _ => 0) hfinished
  obtain ⟨program, t', hprepare, -⟩ :=
    Session.exists_of_prepare t more (fun _ _ => true) (by decide +kernel)
  obtain ⟨htext, htoken, -, hclass⟩ :=
    (accepted_scripts_fail_only_as_listed hran hprepare 40).1 parent _ hfails
  exact ⟨program, t', hprepare, hfails, htext, htoken, hclass rfl⟩

end ScriptLang
