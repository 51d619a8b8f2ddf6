import ScriptLang.Proofs.Joining.Sessions
import ScriptLang.Proofs.Locality

/-! Machines that are alike stay alike, step by step. So does a machine whose program goes on after
the end of the other's, up to that end. -/

namespace ScriptLang

inductive Task.Alike (l : Likeness) : Task → Task → Prop where
  | eval {e e' : Expr} : e.Alike l e' → Task.Alike l (.eval e) (.eval e')
  | exec {s s' : Stmt} : s.Alike l s' → Task.Alike l (.exec s) (.exec s')
  | call (callee : Value) (arguments : List Value) {t t' : Token} : l.token t t' →
      Task.Alike l (.call callee arguments t) (.call callee arguments t')
  | value (v : Value) : Task.Alike l (.value v) (.value v)
  | done : Task.Alike l .done .done
  | returning (v : Value) : Task.Alike l (.returning v) (.returning v)
  | failing {f f' : Fault} : f.Alike l f' → Task.Alike l (.failing f) (.failing f')

theorem Task.Alike.value_of_eq {l : Likeness} {v v' : Value} (h : v' = v) :
    Task.Alike l (.value v) (.value v') :=
  h ▸ .value v'

section Waiting

variable (l : Likeness)

inductive Pending.Alike : Pending → Pending → Prop where
  | unary {t t'} : l.token t t' → Pending.Alike (.unary t) (.unary t')
  | binaryLeft {t t' e e'} : l.token t t' → e.Alike l e' →
      Pending.Alike (.binaryLeft t e) (.binaryLeft t' e')
  | binaryRight {t t'} (v : Value) : l.token t t' →
      Pending.Alike (.binaryRight v t) (.binaryRight v t')
  | logical {t t' e e'} : l.token t t' → e.Alike l e' →
      Pending.Alike (.logical t e) (.logical t' e')
  | assign {id t t'} : l.id id → l.token t t' → Pending.Alike (.assign id t) (.assign id t')
  | callee {t t' es es'} : l.token t t' → Expr.AlikeEach l es es' →
      Pending.Alike (.callee t es) (.callee t' es')
  | argument {t t' es es'} (v : Value) (front : List Value) : l.token t t' →
      Expr.AlikeEach l es es' →
      Pending.Alike (.argument v t front es) (.argument v t' front es')
  | get {t t'} : l.token t t' → Pending.Alike (.get t) (.get t')
  | setObject {t t' e e'} : l.token t t' → e.Alike l e' →
      Pending.Alike (.setObject t e) (.setObject t' e')
  | setValue {t t'} (i : InstanceId) : l.token t t' →
      Pending.Alike (.setValue i t) (.setValue i t')
  | expression : Pending.Alike .expression .expression
  | print : Pending.Alike .print .print
  | var {t t'} : l.token t t' → Pending.Alike (.var t) (.var t')
  | branch {s s' u u'} : s.Alike l s' → Option.Rel (Stmt.Alike l) u u' →
      Pending.Alike (.branch s u) (.branch s' u')
  | loopTest {e e' s s'} : e.Alike l e' → s.Alike l s' →
      Pending.Alike (.loopTest e s) (.loopTest e' s')
  | loopBody {e e' s s'} : e.Alike l e' → s.Alike l s' →
      Pending.Alike (.loopBody e s) (.loopBody e' s')
  | ret : Pending.Alike .ret .ret
  | superclass {t t' e e' ds ds'} : l.token t t' → e.Alike l e' →
      FunctionDecl.AlikeEach l ds ds' →
      Pending.Alike (.superclass t e ds) (.superclass t' e' ds')
  | block {ss ss'} (outer : FrameId) : Stmt.AlikeEach l ss ss' →
      Pending.Alike (.block ss outer) (.block ss' outer)
  | body {f f'} : f.Alike l f' → Pending.Alike (.body f) (.body f')
  | initializer (i : InstanceId) : Pending.Alike (.initializer i) (.initializer i)
  | program {ss ss'} : Stmt.AlikeEach l ss ss' →
      Pending.Alike (.program ss) (.program ss')

inductive Pending.AlikeEach : List Pending → List Pending → Prop where
  | nil : AlikeEach [] []
  | cons {p p' ps ps'} : p.Alike l p' → AlikeEach ps ps' → AlikeEach (p :: ps) (p' :: ps')

structure Machine.Alike (m m' : Machine) : Prop where
  task : m.task.Alike l m'.task
  stack : Pending.AlikeEach l m.stack m'.stack
  session : m.session.Alike l m'.session

end Waiting

namespace Machine

variable {l : Likeness} {stack stack' : List Pending} {s s' : Session}
  (hstack : Pending.AlikeEach l stack stack') (hs : s.Alike l s')
include hstack hs

theorem found_alike {r r' : Except Fault Session.Property} (h : Session.FoundAlike l r r') :
    (found stack s r).Alike l (found stack' s' r') := by
  cases h with
  | value v => exact ⟨.value v, hstack, hs⟩
  | @method f f' i hf =>
      obtain ⟨hbound, hv⟩ := hs.bindMethod hf i
      exact ⟨.value_of_eq hv, hstack, hbound⟩
  | fault hf => exact ⟨.failing hf, hstack, hs⟩

theorem applied_alike {t t' : Token} (ht : l.token t t') (r : Except FaultCause Value) :
    (applied t stack s r).Alike l (applied t' stack' s' r) := by
  cases r with
  | ok v => exact ⟨.value v, hstack, hs⟩
  | error cause => exact ⟨.failing (.raised cause ht), hstack, hs⟩

theorem readName_alike {id : ExprId} (hid : l.id id) {t t' : Token} (ht : l.token t t') :
    (readName id t stack s).Alike l (readName id t' stack' s') := by
  unfold readName
  rw [l.lexeme ht, hs.read? hid]
  cases s.read? id t.lexeme with
  | some v => exact ⟨.value v, hstack, hs⟩
  | none => exact ⟨.failing (.undefined ht), hstack, hs⟩

theorem evaluate_alike {e e' : Expr} (h : e.Alike l e') :
    (evaluate e stack s).Alike l (evaluate e' stack' s') := by
  cases h with
  | literal value => exact ⟨.value _, hstack, hs⟩
  | grouping h => exact ⟨.eval h, hstack, hs⟩
  | unary ht h => exact ⟨.eval h, .cons (.unary ht) hstack, hs⟩
  | binary h ht hu => exact ⟨.eval h, .cons (.binaryLeft ht hu) hstack, hs⟩
  | logical h ht hu => exact ⟨.eval h, .cons (.logical ht hu) hstack, hs⟩
  | «variable» hid ht => exact readName_alike hstack hs hid ht
  | assign hid ht h => exact ⟨.eval h, .cons (.assign hid ht) hstack, hs⟩
  | call h ht hes => exact ⟨.eval h, .cons (.callee ht hes) hstack, hs⟩
  | get h ht => exact ⟨.eval h, .cons (.get ht) hstack, hs⟩
  | set h ht hu => exact ⟨.eval h, .cons (.setObject ht hu) hstack, hs⟩
  | this hid ht => exact readName_alike hstack hs hid ht
  | super hid ht hu => exact found_alike hstack hs (hs.superMethod hid ht hu)

theorem enterBlock_alike {ss ss' : List Stmt} (h : Stmt.AlikeEach l ss ss') (outer : FrameId) :
    (enterBlock ss outer stack s).Alike l (enterBlock ss' outer stack' s') := by
  unfold enterBlock
  rw [hs.current]
  exact ⟨.done, .cons (.block _ h) hstack, hs.enterFrame outer⟩

theorem execute_alike {st st' : Stmt} (h : st.Alike l st') :
    (execute st stack s).Alike l (execute st' stack' s') := by
  cases h with
  | expression h => exact ⟨.eval h, .cons .expression hstack, hs⟩
  | print h => exact ⟨.eval h, .cons .print hstack, hs⟩
  | var ht h =>
      cases h with
      | none =>
          refine ⟨.done, hstack, ?_⟩
          simp only [execute, l.lexeme ht]
          exact hs.define _ _
      | some h => exact ⟨.eval h, .cons (.var ht) hstack, hs⟩
  | block h =>
      simp only [execute, hs.current]
      exact enterBlock_alike hstack hs h _
  | ifThen h hu => exact ⟨.eval h, .cons (.branch hu .none) hstack, hs⟩
  | ifElse h hu hv => exact ⟨.eval h, .cons (.branch hu (.some hv)) hstack, hs⟩
  | loop h hu => exact ⟨.eval h, .cons (.loopTest h hu) hstack, hs⟩
  | @function d d' h =>
      have hf : Function.Alike l ⟨d, s.current, false⟩ ⟨d', s.current, false⟩ := ⟨h, rfl, rfl⟩
      obtain ⟨hnew, hv⟩ := hs.newFunction hf
      refine ⟨.done, hstack, ?_⟩
      simp only [execute, hs.current, h.name, hv]
      exact hnew.define _ _
  | ret ht h =>
      cases h with
      | none => exact ⟨.returning .nil, hstack, hs⟩
      | some h => exact ⟨.eval h, .cons .ret hstack, hs⟩
  | classDecl ht h hds =>
      cases h with
      | none =>
          refine ⟨.done, hstack, ?_⟩
          simp only [execute, l.lexeme ht]
          exact hs.declareClass _ none hds
      | some h => exact ⟨.eval h, .cons (.superclass ht h hds) hstack, hs⟩

/-! ### Calls -/

theorem enter_alike {f f' : Function} (hf : f.Alike l f') (arguments : List Value) {t t' : Token}
    (ht : l.token t t') :
    (enter f arguments t stack s).Alike l (enter f' arguments t' stack' s') := by
  have hblock := enterBlock_alike (.cons (.body hf) hstack) hs hf.decl.body f.closure
  have hdefine {s s' : Session} (hs : s.Alike l s') {p p' : Token} (hp : l.token p p')
      (v : Value) : (s.define p.lexeme v).Alike l (s'.define p'.lexeme v) := by
    rw [l.lexeme hp]
    exact hs.define _ v
  simp only [enter, hs.depth, hf.closure]
  split
  · exact ⟨.failing (.raised _ ht), hstack, hs⟩
  · exact ⟨hblock.task, hblock.stack,
      .mapDepth (.foldl_zip hdefine hf.decl.params arguments hblock.session) (· + 1)⟩

theorem wrongArity_alike (expected : Nat) (arguments : List Value) {t t' : Token}
    (ht : l.token t t') :
    (wrongArity expected arguments t stack s).Alike l
      (wrongArity expected arguments t' stack' s') :=
  ⟨.failing (.raised _ ht), hstack, hs⟩

theorem construct_alike (c : ClassId) (arguments : List Value) {t t' : Token}
    (ht : l.token t t') :
    (construct c arguments t stack s).Alike l (construct c arguments t' stack' s') := by
  obtain ⟨hheap, hid⟩ := hs.heap.newInstance c
  simp only [construct, hid]
  rcases none_or_some_of_rel (hheap.method? c initName) with ⟨h, h'⟩ | ⟨f, f', h, h', hf⟩
  · rw [h, h']
    exact ⟨.value _, hstack, hs.withHeap hheap⟩
  · obtain ⟨hbound, hf⟩ := hheap.bindMethod hf (s.heap.newInstance c).2
    rw [h, h']
    exact enter_alike (.cons (.initializer _) hstack) (hs.withHeap hbound) hf arguments ht

theorem invoke_alike (callee : Value) (arguments : List Value) {t t' : Token}
    (ht : l.token t t') :
    (invoke callee arguments t stack s).Alike l (invoke callee arguments t' stack' s') := by
  cases callee with
  | native f =>
      simp only [invoke]
      split
      · obtain ⟨hclock, hv⟩ := hs.readClock
        exact ⟨.value_of_eq hv, hstack, hclock⟩
      · exact wrongArity_alike hstack hs _ arguments ht
  | function id =>
      simp only [invoke]
      rcases none_or_some_of_rel (hs.heap.functions id) with ⟨h, h'⟩ | ⟨f, f', h, h', hf⟩
      · rw [h, h']
        exact ⟨.failing (.raised _ ht), hstack, hs⟩
      · simp only [h, h', hf.decl.arity]
        split
        · exact enter_alike hstack hs hf arguments ht
        · exact wrongArity_alike hstack hs _ arguments ht
  | classObj c =>
      simp only [invoke, hs.heap.classArity]
      split
      · exact construct_alike hstack hs c arguments ht
      · exact wrongArity_alike hstack hs _ arguments ht
  | _ => exact ⟨.failing (.raised _ ht), hstack, hs⟩

theorem leave_alike {f f' : Function} (hf : f.Alike l f') (v : Value) :
    (leave f v stack s).Alike l (leave f' v stack' s') := by
  have hdepth := hs.mapDepth (· - 1)
  simp only [leave, hf.isInitializer, hf.closure, hs.heap.getAt?]
  split
  · cases s.heap.getAt? f.closure 0 Session.thisToken.lexeme with
    | some this => exact ⟨.value this, hstack, hdepth⟩
    | none => exact ⟨.failing (.undefined l.this), hstack, hdepth⟩
  · exact ⟨.value v, hstack, hdepth⟩

/-! ### Going on -/

omit hstack hs in
theorem superclassToken_alike {t t' : Token} (ht : l.token t t') {e e' : Expr}
    (h : e.Alike l e') : l.token (superclassToken t e) (superclassToken t' e') := by
  cases h with
  | «variable» _ hparent => exact hparent
  | _ => exact ht

theorem receive_alike (v : Value) {p p' : Pending} (hp : p.Alike l p') :
    (receive v p stack s).Alike l (receive v p' stack' s') := by
  have hkept := Pending.AlikeEach.cons hp hstack
  cases hp with
  | unary ht =>
      simp only [receive, l.kind ht]
      exact applied_alike hstack hs ht _
  | binaryLeft ht h => exact ⟨.eval h, .cons (.binaryRight v ht) hstack, hs⟩
  | binaryRight left ht =>
      simp only [receive, l.kind ht]
      exact applied_alike hstack hs ht _
  | @logical t t' _ _ ht h =>
      simp only [receive, l.kind ht]
      generalize (if t.kind = .kwOr then v.truthy else !v.truthy) = decided
      cases decided with
      | true => exact ⟨.value v, hstack, hs⟩
      | false => exact ⟨.eval h, hstack, hs⟩
  | assign hid ht =>
      simp only [receive, l.lexeme ht, hs.binder? hid]
      split
      · exact ⟨.value v, hstack, hs.withHeap (hs.heap.define _ _ v)⟩
      · exact ⟨.failing (.undefined ht), hstack, hs⟩
  | callee ht hes =>
      cases hes with
      | nil => exact ⟨.call v [] ht, hstack, hs⟩
      | cons h hes => exact ⟨.eval h, .cons (.argument v [] ht hes) hstack, hs⟩
  | argument callee front ht hes =>
      cases hes with
      | nil => exact ⟨.call callee _ ht, hstack, hs⟩
      | cons h hes => exact ⟨.eval h, .cons (.argument callee _ ht hes) hstack, hs⟩
  | get ht => exact found_alike hstack hs (hs.property v ht)
  | setObject ht h =>
      cases v with
      | instanceObj i => exact ⟨.eval h, .cons (.setValue i ht) hstack, hs⟩
      | _ => exact ⟨.failing (.raised _ ht), hstack, hs⟩
  | setValue i ht =>
      simp only [receive, l.lexeme ht]
      exact ⟨.value v, hstack, hs.withHeap (hs.heap.setField i _ v)⟩
  | expression => exact ⟨.done, hstack, hs⟩
  | print =>
      obtain ⟨hprinted, hresult⟩ := hs.print v
      simp only [receive]
      rcases hprint : s.print v with ⟨printed, result⟩
      rcases hprint' : s'.print v with ⟨printed', result'⟩
      rw [hprint, hprint'] at hprinted hresult
      obtain rfl : result' = result := hresult
      cases result' with
      | ok => exact ⟨.done, hstack, hprinted⟩
      | error e => exact ⟨.failing (.sink e), hstack, hprinted⟩
  | var ht =>
      simp only [receive, l.lexeme ht]
      exact ⟨.done, hstack, hs.define _ v⟩
  | branch h hu =>
      simp only [receive]
      split
      · exact ⟨.exec h, hstack, hs⟩
      · cases hu with
        | none => exact ⟨.done, hstack, hs⟩
        | some hu => exact ⟨.exec hu, hstack, hs⟩
  | loopTest he h =>
      simp only [receive]
      split
      · exact ⟨.exec h, .cons (.loopBody he h) hstack, hs⟩
      · exact ⟨.done, hstack, hs⟩
  | ret => exact ⟨.returning v, hstack, hs⟩
  | superclass ht h hds =>
      cases v with
      | classObj c =>
          simp only [receive, l.lexeme ht]
          exact ⟨.done, hstack, hs.declareClass _ (some c) hds⟩
      | _ => exact ⟨.failing (.raised _ (superclassToken_alike ht h)), hstack, hs⟩
  | initializer i => exact ⟨.value _, hstack, hs⟩
  | loopBody | block | body | program => exact ⟨.value v, hkept, hs⟩

theorem proceed_alike {p p' : Pending} (hp : p.Alike l p') :
    (proceed p stack s).Alike l (proceed p' stack' s') := by
  have hkept := Pending.AlikeEach.cons hp hstack
  cases hp with
  | loopBody he h => exact ⟨.eval he, .cons (.loopTest he h) hstack, hs⟩
  | block outer h =>
      cases h with
      | nil => exact ⟨.done, hstack, hs.withCurrent outer⟩
      | cons h hrest => exact ⟨.exec h, .cons (.block outer hrest) hstack, hs⟩
  | body hf => exact leave_alike hstack hs hf .nil
  | program h =>
      cases h with
      | nil => exact ⟨.done, hstack, hs⟩
      | cons h hrest => exact ⟨.exec h, .cons (.program hrest) hstack, hs⟩
  | _ => exact ⟨.done, hkept, hs⟩

theorem unwind_alike (v : Value) {p p' : Pending} (hp : p.Alike l p') :
    (unwind v p stack s).Alike l (unwind v p' stack' s') := by
  have hkept := Pending.AlikeEach.cons hp hstack
  cases hp with
  | loopBody => exact ⟨.returning v, hstack, hs⟩
  | block outer => exact ⟨.returning v, hstack, hs.withCurrent outer⟩
  | body hf => exact leave_alike hstack hs hf v
  | program => exact ⟨.done, hkept, hs⟩
  | _ => exact ⟨.returning v, hkept, hs⟩

theorem abandon_alike {f f' : Fault} (hf : f.Alike l f') {p p' : Pending}
    (hp : p.Alike l p') : (abandon f p stack s).Alike l (abandon f' p' stack' s') := by
  cases hp with
  | block outer => exact ⟨.failing hf, hstack, hs.withCurrent outer⟩
  | body => exact ⟨.failing hf, hstack, hs.mapDepth (· - 1)⟩
  | _ => exact ⟨.failing hf, hstack, hs⟩

end Machine

/-! ### Steps -/

namespace Machine

variable {l : Likeness} {m m' : Machine}

theorem Alike.step (h : m.Alike l m') : m.step.Alike l m'.step := by
  obtain ⟨task, stack, s⟩ := m
  obtain ⟨task', stack', s'⟩ := m'
  obtain ⟨htask, hstack, hs⟩ := h
  cases htask with
  | eval h => exact evaluate_alike hstack hs h
  | exec h => exact execute_alike hstack hs h
  | call callee arguments ht => exact invoke_alike hstack hs callee arguments ht
  | value v =>
      cases hstack with
      | nil => exact ⟨.value v, .nil, hs⟩
      | cons hp hstack => exact receive_alike hstack hs v hp
  | done =>
      cases hstack with
      | nil => exact ⟨.done, .nil, hs⟩
      | cons hp hstack => exact proceed_alike hstack hs hp
  | returning v =>
      cases hstack with
      | nil => exact ⟨.returning v, .nil, hs⟩
      | cons hp hstack => exact unwind_alike hstack hs v hp
  | failing hf =>
      cases hstack with
      | nil => exact ⟨.failing hf, .nil, hs⟩
      | cons hp hstack => exact abandon_alike hstack hs hf hp

theorem Alike.run (h : m.Alike l m') (n : Nat) : (run n m).Alike l (run n m') :=
  run_induct₂ (Machine.Alike l) (fun _ _ => Alike.step) h n

theorem Alike.halted (h : m.Alike l m') : m'.halted = m.halted := by
  obtain ⟨task, stack, s⟩ := m
  obtain ⟨task', stack', s'⟩ := m'
  obtain ⟨htask, hstack, -⟩ := h
  cases htask <;> cases hstack <;> rfl

/-- Where a machine comes to the end of its program, another one whose program goes on has the rest
left to do. -/
theorem Alike.run_rest (h : m.Alike l m') {rest rest' : List Stmt} (extra : List Stmt)
    (hrest : Stmt.AlikeEach l rest rest') {n : Nat} {t : Session}
    (hrun : Machine.run n (m.below [.program rest]) = ⟨.done, [], t⟩) :
    ∃ k t', Machine.run k (m'.below [.program (rest' ++ extra)]) =
      ⟨.done, [.program extra], t'⟩ ∧ t.Alike l t' := by
  induction n generalizing m m' rest rest' with
  | zero =>
      have hstack := congrArg Machine.stack hrun
      simp [Machine.run] at hstack
  | succ n ih =>
      rw [run_succ] at hrun
      by_cases hhalted : m.halted = true
      · obtain ⟨task, stack, s⟩ := m
        obtain ⟨task', stack', s'⟩ := m'
        obtain ⟨htask, hstack, hs⟩ := h
        cases hstack with
        | cons => cases htask <;> cases hhalted
        | nil =>
            cases htask with
            | eval | exec | call => cases hhalted
            | value v =>
                have hsame : Machine.Alike l ⟨.value v, [], s⟩ ⟨.value v, [], s'⟩ :=
                  ⟨.value v, .nil, hs⟩
                exact ih hsame hrest hrun
            | returning v =>
                have hdone : Machine.Alike l ⟨.done, [], s⟩ ⟨.done, [], s'⟩ := ⟨.done, .nil, hs⟩
                obtain ⟨k, t', hrun', ht⟩ := ih hdone hrest hrun
                exact ⟨k + 1, t', by rw [run_succ]; exact hrun', ht⟩
            | failing => cases (run_of_halted hhalted n).symm.trans hrun
            | done =>
                cases hrest with
                | nil =>
                    cases (run_of_halted hhalted n).symm.trans hrun
                    exact ⟨0, s', rfl, hs⟩
                | @cons st st' _ _ hst hrest =>
                    have hexec : Machine.Alike l ⟨.exec st, [], s⟩ ⟨.exec st', [], s'⟩ :=
                      ⟨.exec hst, .nil, hs⟩
                    obtain ⟨k, t', hrun', ht⟩ := ih hexec hrest hrun
                    exact ⟨k + 1, t', by rw [run_succ]; exact hrun', ht⟩
      · have hgoes : m.halted = false := by simpa using hhalted
        have hgoes' : m'.halted = false := by rw [h.halted, hgoes]
        rw [step_below hgoes] at hrun
        obtain ⟨k, t', hrun', ht⟩ := ih h.step hrest hrun
        refine ⟨k + 1, t', ?_, ht⟩
        rw [run_succ, step_below hgoes', hrun']

end Machine

end ScriptLang
