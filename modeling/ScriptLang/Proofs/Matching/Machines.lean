import ScriptLang.Machine
import ScriptLang.Proofs.Matching.Sessions

/-! Machines that match stay so, step by step. -/

namespace ScriptLang

/-- Failures that differ at most in the other name. -/
inductive Fault.Matches (μ : Matching) : Fault → Fault → Prop where
  | same (f : Fault) : Fault.Matches μ f f
  | undefined {t : Token} (ht : t.lexeme = μ.old) :
      Fault.Matches μ (Session.undefined t) (Session.undefined { t with lexeme := μ.new })
  | superclass {t : Token} (ht : t.lexeme = μ.old) :
      Fault.Matches μ (.raised t .superclassNotClass)
        (.raised { t with lexeme := μ.new } .superclassNotClass)

section Relations

variable (μ : Matching) (L : Layout)

inductive Task.Matches (k : Place) : Task → Task → Prop where
  | eval {e e'} : e.Matches μ k e' → Task.Matches k (.eval e) (.eval e')
  | exec {s s'} : s.Matches μ k s' → Task.Matches k (.exec s) (.exec s')
  | call {v vs} (t) : v.Proper L → (∀ u ∈ vs, u.Proper L) →
      Task.Matches k (.call v vs t) (.call v vs t)
  | value {v} : v.Proper L → Task.Matches k (.value v) (.value v)
  | done : Task.Matches k .done .done
  | returning {v} : v.Proper L → Task.Matches k (.returning v) (.returning v)
  | failing {f f'} : f.Matches μ f' → Task.Matches k (.failing f) (.failing f')

/-- Work that matches in a frame at `k` and leaves a frame at `j` behind. -/
inductive Pending.Matches (k : Place) : Place → Pending → Pending → Prop where
  | unary (t) : Pending.Matches k k (.unary t) (.unary t)
  | binaryLeft (t) {e e'} : e.Matches μ k e' →
      Pending.Matches k k (.binaryLeft t e) (.binaryLeft t e')
  | binaryRight {v} (t) : v.Proper L → Pending.Matches k k (.binaryRight v t) (.binaryRight v t)
  | logical (t) {e e'} : e.Matches μ k e' → Pending.Matches k k (.logical t e) (.logical t e')
  | assign {id id' hop t t'} : μ.ref id id' hop → μ.Names (k.At hop) t t' →
      Pending.Matches k k (.assign id t) (.assign id' t')
  | callee (t) {es es'} : Expr.MatchesEach μ k es es' →
      Pending.Matches k k (.callee t es) (.callee t es')
  | argument {v} (t) {front es es'} : v.Proper L → (∀ u ∈ front, u.Proper L) →
      Expr.MatchesEach μ k es es' →
      Pending.Matches k k (.argument v t front es) (.argument v t front es')
  | get (t) : Pending.Matches k k (.get t) (.get t)
  | setObject (t) {e e'} : e.Matches μ k e' →
      Pending.Matches k k (.setObject t e) (.setObject t e')
  | setValue (i t) : Pending.Matches k k (.setValue i t) (.setValue i t)
  | expression : Pending.Matches k k .expression .expression
  | print : Pending.Matches k k .print .print
  | var {t t'} : μ.Names (k = some 0) t t' → Pending.Matches k k (.var t) (.var t')
  | branch {s s' u u'} : s.Matches μ k s' → Option.Rel (Stmt.Matches μ k) u u' →
      Pending.Matches k k (.branch s u) (.branch s' u')
  | loopTest {e e' s s'} : e.Matches μ k e' → s.Matches μ k s' →
      Pending.Matches k k (.loopTest e s) (.loopTest e' s')
  | loopBody {e e' s s'} : e.Matches μ k e' → s.Matches μ k s' →
      Pending.Matches k k (.loopBody e s) (.loopBody e' s')
  | ret : Pending.Matches k k .ret .ret
  | superclass {t e e' ds ds'} : (k = some 0 → μ.Fixes t.lexeme) → e.Matches μ k e' →
      FunctionDecl.MatchesEach μ k.inner.inner ds ds' →
      Pending.Matches k k (.superclass t e ds) (.superclass t e' ds')
  | block {j ss ss' outer} : Stmt.MatchesEach μ k ss ss' → L.place outer j →
      Pending.Matches k j (.block ss outer) (.block ss' outer)
  | body {f f'} : f.Matches μ L f' → Pending.Matches k k (.body f) (.body f')
  | initializer (i) : Pending.Matches k k (.initializer i) (.initializer i)
  | program {ss ss'} : Stmt.MatchesEach μ k ss ss' →
      Pending.Matches k k (.program ss) (.program ss')

/-- Stacks that match above a frame at `k`. At the bottom there is no other name. -/
inductive Pending.MatchesEach : Place → List Pending → List Pending → Prop where
  | nil : MatchesEach none [] []
  | cons {k j : Place} {p p' ps ps'} : p.Matches μ L k j p' → MatchesEach j ps ps' →
      MatchesEach k (p :: ps) (p' :: ps')

structure Machine.MatchesAt (k : Place) (m m' : Machine) : Prop where
  place : L.place m.session.current k
  task : m.task.Matches μ L k m'.task
  stack : Pending.MatchesEach μ L k m.stack m'.stack
  session : m.session.Matches μ L m'.session

def Machine.Matches (m m' : Machine) : Prop := ∃ L k, m.MatchesAt μ L k m'

end Relations

section Lemmas

variable {μ : Matching} {L L' : Layout} {k j : Place}

theorem Matching.Names.undefined {here : Prop} {t t' : Token} (h : μ.Names here t t') :
    Fault.Matches μ (Session.undefined t) (Session.undefined t') := by
  cases h with
  | same => exact .same _
  | renamed _ ht => exact .undefined ht

theorem Pending.Matches.mono (hL : L'.Extends L) {p p' : Pending} (h : p.Matches μ L k j p') :
    p.Matches μ L' k j p' := by
  cases h with
  | binaryRight t hv => exact .binaryRight t (hv.mono hL)
  | argument t hv hfront hes =>
      exact .argument t (hv.mono hL) (fun u hu => (hfront u hu).mono hL) hes
  | block hss houter => exact .block hss (hL.place houter)
  | body hf => exact .body (hf.mono (.refl μ) hL)
  | unary t => exact .unary t
  | binaryLeft t he => exact .binaryLeft t he
  | logical t he => exact .logical t he
  | assign hid ht => exact .assign hid ht
  | callee t hes => exact .callee t hes
  | get t => exact .get t
  | setObject t he => exact .setObject t he
  | setValue i t => exact .setValue i t
  | expression => exact .expression
  | print => exact .print
  | var ht => exact .var ht
  | branch hs hu => exact .branch hs hu
  | loopTest he hs => exact .loopTest he hs
  | loopBody he hs => exact .loopBody he hs
  | ret => exact .ret
  | superclass ht he hds => exact .superclass ht he hds
  | initializer i => exact .initializer i
  | program hss => exact .program hss

theorem Pending.MatchesEach.mono (hL : L'.Extends L) {ps ps' : List Pending}
    (h : Pending.MatchesEach μ L k ps ps') : Pending.MatchesEach μ L' k ps ps' := by
  induction h with
  | nil => exact .nil
  | cons hp _ ih => exact .cons (hp.mono hL) ih

theorem Value.Proper.applyUnary {operator : Kind} {v u : Value}
    (h : v.applyUnary operator = .ok u) : u.Proper L := by
  unfold Value.applyUnary at h
  split at h <;> cases h <;> exact nofun

theorem Value.Proper.arithmetic {operator : Kind} {x y : Float} {u : Value}
    (h : Value.arithmetic operator x y = .ok u) : u.Proper L := by
  unfold Value.arithmetic at h
  split at h <;> cases h <;> exact nofun

theorem Value.Proper.applyBinary {operator : Kind} {v w u : Value}
    (h : v.applyBinary operator w = .ok u) : u.Proper L := by
  unfold Value.applyBinary at h
  split at h
  · split at h <;> cases h <;> exact nofun
  · cases h
    exact nofun
  · cases h
    exact nofun
  · split at h
    · exact .arithmetic h
    · cases h

end Lemmas

namespace Machine

variable {μ : Matching} {L : Layout} {k : Place} {stack stack' : List Pending} {s s' : Session}
  (hs : s.Matches μ L s') (hk : L.place s.current k)
  (hstack : Pending.MatchesEach μ L k stack stack')
include hs hk hstack

/-- A task that neither changes the session nor the stack. -/
theorem matches_task {t t' : Task} (h : t.Matches μ L k t') :
    Matches μ ⟨t, stack, s⟩ ⟨t', stack', s'⟩ :=
  ⟨L, k, hk, h, hstack, hs⟩

/-- A task with new work to do after it. -/
theorem matches_push {t t' : Task} (h : t.Matches μ L k t') {p p' : Pending}
    (hp : p.Matches μ L k k p') : Matches μ ⟨t, p :: stack, s⟩ ⟨t', p' :: stack', s'⟩ :=
  ⟨L, k, hk, h, .cons hp hstack, hs⟩

theorem found_matches {r r' : Except Fault Session.Property} (h : Session.FoundMatches μ L r r') :
    Matches μ (found stack s r) (found stack' s' r') := by
  cases h with
  | value hv => exact matches_task hs hk hstack (.value hv)
  | @method f f' i hf =>
      obtain ⟨L', hL, hv, hsame, hbound⟩ := hs.bindMethod hf i
      simp only [found, hsame]
      exact matches_task hbound (hL.place hk) (hstack.mono hL) (.value hv)
  | fault f => exact matches_task hs hk hstack (.failing (.same f))

theorem applied_matches (t : Token) {r : Except FaultCause Value}
    (hr : ∀ v, r = .ok v → v.Proper L) :
    Matches μ (applied t stack s r) (applied t stack' s' r) := by
  cases r with
  | ok v => exact matches_task hs hk hstack (.value (hr v rfl))
  | error cause => exact matches_task hs hk hstack (.failing (.same _))

theorem readName_matches {id id' : ExprId} {hop : Option Nat} (hid : μ.ref id id' hop)
    {t t' : Token} (ht : μ.Names (k.At hop) t t') :
    Matches μ (readName id t stack s) (readName id' t' stack' s') := by
  obtain ⟨hsame, hproper⟩ := hs.read? hk hid ht
  simp only [readName, hsame]
  cases hv : s.read? id t.lexeme with
  | some v => exact matches_task hs hk hstack (.value (hproper v hv))
  | none => exact matches_task hs hk hstack (.failing ht.undefined)

theorem evaluate_matches {e e' : Expr} (h : e.Matches μ k e') :
    Matches μ (evaluate e stack s) (evaluate e' stack' s') := by
  cases h with
  | literal value =>
      refine matches_task hs hk hstack (.value ?_)
      cases value <;> exact nofun
  | grouping h => exact matches_task hs hk hstack (.eval h)
  | unary t h => exact matches_push hs hk hstack (.eval h) (.unary t)
  | binary t h hu => exact matches_push hs hk hstack (.eval h) (.binaryLeft t hu)
  | logical t h hu => exact matches_push hs hk hstack (.eval h) (.logical t hu)
  | «variable» hid ht => exact readName_matches hs hk hstack hid ht
  | assign hid ht h => exact matches_push hs hk hstack (.eval h) (.assign hid ht)
  | call t h hes => exact matches_push hs hk hstack (.eval h) (.callee t hes)
  | get t h => exact matches_push hs hk hstack (.eval h) (.get t)
  | set t h hu => exact matches_push hs hk hstack (.eval h) (.setObject t hu)
  | this hid ht => exact readName_matches hs hk hstack hid (.same fun _ => ht)
  | super u hid ht => exact found_matches hs hk hstack (hs.superMethod hk hid ht u)

/-- Statements wait in a frame of their own. -/
theorem enterBlock_matches {outer : FrameId} {j i : Place} (houter : L.place outer j)
    (hopens : j.Opens i) {ss ss' : List Stmt} (hss : Stmt.MatchesEach μ i ss ss') :
    ∃ L' : Layout, L'.Extends L ∧
      MatchesAt μ L' i (enterBlock ss outer stack s) (enterBlock ss' outer stack' s') := by
  obtain ⟨L', hL, hplace, hframe⟩ := hs.enterFrame houter hopens
  refine ⟨L', hL, hplace, .done, ?_, hframe⟩
  simp only [enterBlock, hs.current]
  exact .cons (.block hss (hL.place hk)) (hstack.mono hL)

theorem execute_matches {st st' : Stmt} (h : st.Matches μ k st') :
    Matches μ (execute st stack s) (execute st' stack' s') := by
  cases h with
  | expression h => exact matches_push hs hk hstack (.eval h) .expression
  | print h => exact matches_push hs hk hstack (.eval h) .print
  | var ht h =>
      cases h with
      | none =>
          have hdefine := hs.define hk ht (v := .nil) nofun
          exact matches_task hdefine hk hstack .done
      | some h => exact matches_push hs hk hstack (.eval h) (.var ht)
  | block hopens hss =>
      obtain ⟨L', -, hblock⟩ := enterBlock_matches hs hk hstack hk hopens hss
      simp only [execute, hs.current]
      exact ⟨L', _, hblock⟩
  | ifThen h hu => exact matches_push hs hk hstack (.eval h) (.branch hu .none)
  | ifElse h hu hv => exact matches_push hs hk hstack (.eval h) (.branch hu (.some hv))
  | loop h hu => exact matches_push hs hk hstack (.eval h) (.loopTest h hu)
  | @function _ d d' ht h =>
      have hf : Function.Matches μ L ⟨d, s.current, false⟩ ⟨d', s.current, false⟩ :=
        ⟨rfl, rfl, k, hk, h⟩
      obtain ⟨L', hL, hv, hsame, hnew⟩ := hs.newFunction hf
      have hdefine := hnew.define (hL.place hk) (.same ht) hv
      simp only [execute, hs.current, h.name, hsame]
      exact matches_task hdefine (hL.place hk) (hstack.mono hL) .done
  | ret t h =>
      cases h with
      | none => exact matches_task hs hk hstack (.returning nofun)
      | some h => exact matches_push hs hk hstack (.eval h) .ret
  | classDecl ht h hds =>
      cases h with
      | none =>
          obtain ⟨L', hL, hclass⟩ := hs.declareClass hk ht none hds
          exact matches_task hclass (hL.place hk) (hstack.mono hL) .done
      | some h => exact matches_push hs hk hstack (.eval h) (.superclass ht h hds)

/-! ### Calls -/

theorem enter_matches {f f' : Function} (hf : f.Matches μ L f') {vs : List Value}
    (hvs : ∀ v ∈ vs, v.Proper L) (t : Token) :
    Matches μ (enter f vs t stack s) (enter f' vs t stack' s') := by
  obtain ⟨i, hi, hdecl⟩ := hf.decl
  obtain ⟨i', hopens, hps, hss⟩ := hdecl.exists_body
  simp only [enter, hs.depth, hf.closure]
  split
  · exact matches_task hs hk hstack (.failing (.same _))
  · have hbody : Pending.MatchesEach μ L k (.body f :: stack) (.body f' :: stack') :=
      .cons (.body hf) hstack
    obtain ⟨L', hL, hblock⟩ := enterBlock_matches hs hk hbody hi hopens hss
    obtain ⟨hbound, hcurrent⟩ :=
      hblock.session.defineEach hps (fun v hv => (hvs v hv).mono hL) hblock.place
    have hplace := hblock.place
    rw [← hcurrent] at hplace
    exact ⟨L', i', hplace, .done, hblock.stack, hbound.mapDepth (· + 1)⟩

theorem construct_matches (c : ClassId) {vs : List Value} (hvs : ∀ v ∈ vs, v.Proper L)
    (t : Token) : Matches μ (construct c vs t stack s) (construct c vs t stack' s') := by
  have hheap := hs.heap.newInstance c
  have hid : (s'.heap.newInstance c).2 = (s.heap.newInstance c).2 :=
    congrArg Array.size hs.heap.instances
  have hmethod := hheap.method? c initName
  simp only [construct, hid]
  generalize (s.heap.newInstance c).1.method? c initName = f at hmethod ⊢
  generalize (s'.heap.newInstance c).1.method? c initName = f' at hmethod ⊢
  cases hmethod with
  | none => exact matches_task (hs.withHeap (.refl L) hheap) hk hstack (.value nofun)
  | some hf =>
      obtain ⟨L', hL, hbound, hf⟩ := hheap.bindMethod hf (s.heap.newInstance c).2
      exact enter_matches (hs.withHeap hL hbound) (hL.place hk)
        (.cons (.initializer _) (hstack.mono hL)) hf (fun v hv => (hvs v hv).mono hL) t

theorem wrongArity_matches (expected : Nat) (vs : List Value) (t : Token) :
    Matches μ (wrongArity expected vs t stack s) (wrongArity expected vs t stack' s') :=
  matches_task hs hk hstack (.failing (.same _))

theorem invoke_matches {v : Value} (hv : v.Proper L) {vs : List Value}
    (hvs : ∀ u ∈ vs, u.Proper L) (t : Token) :
    Matches μ (invoke v vs t stack s) (invoke v vs t stack' s') := by
  cases v with
  | native f =>
      simp only [invoke]
      split
      · obtain ⟨hclock, hsame⟩ := hs.readClock
        rw [hsame]
        exact matches_task hclock hk hstack (.value nofun)
      · exact wrongArity_matches hs hk hstack _ vs t
  | function id =>
      obtain ⟨f, f', hf, hf', hmatch⟩ := hs.heap.function (hv id rfl)
      obtain ⟨_, -, hdecl⟩ := hmatch.decl
      simp only [invoke, hf, hf', hdecl.arity]
      split
      · exact enter_matches hs hk hstack hmatch hvs t
      · exact wrongArity_matches hs hk hstack _ vs t
  | classObj c =>
      simp only [invoke, hs.heap.classArity]
      split
      · exact construct_matches hs hk hstack c hvs t
      · exact wrongArity_matches hs hk hstack _ vs t
  | _ => exact matches_task hs hk hstack (.failing (.same _))

theorem leave_matches {f f' : Function} (hf : f.Matches μ L f') {v : Value} (hv : v.Proper L) :
    Matches μ (leave f v stack s) (leave f' v stack' s') := by
  obtain ⟨i, hi, -⟩ := hf.decl
  have hdepth := hs.mapDepth (· - 1)
  have hthis : μ.Names (i.At (some 0)) Session.thisToken Session.thisToken :=
    .same fun _ => Matching.fixes_this
  obtain ⟨hsame, hproper⟩ := hs.heap.getAt? hi hthis
  simp only [leave, hf.isInitializer, hf.closure, hsame]
  split
  · cases hget : s.heap.getAt? f.closure 0 Session.thisToken.lexeme with
    | some this => exact matches_task hdepth hk hstack (.value (hproper this hget))
    | none => exact matches_task hdepth hk hstack (.failing (.same _))
  · exact matches_task hdepth hk hstack (.value hv)

/-! ### Going on -/

omit hk hstack hs in
theorem superclassToken_matches (t : Token) {e e' : Expr} (h : e.Matches μ k e') :
    Fault.Matches μ (.raised (superclassToken t e) .superclassNotClass)
      (.raised (superclassToken t e') .superclassNotClass) := by
  cases h with
  | «variable» _ hname =>
      cases hname with
      | same => exact .same _
      | renamed _ ht => exact .superclass ht
  | _ => exact .same _

omit hk hstack in
/-- Frames are left for those they were entered from. -/
theorem matches_leave {j : Place} {outer : FrameId} (houter : L.place outer j)
    (hrest : Pending.MatchesEach μ L j stack stack') {t t' : Task} (h : t.Matches μ L j t') :
    Matches μ ⟨t, stack, { s with current := outer }⟩ ⟨t', stack', { s' with current := outer }⟩ :=
  ⟨L, j, houter, h, hrest, hs.withCurrent outer⟩

omit hstack in
theorem receive_matches {v : Value} (hv : v.Proper L) {j : Place} {p p' : Pending}
    (hp : p.Matches μ L k j p') (hrest : Pending.MatchesEach μ L j stack stack') :
    Matches μ (receive v p stack s) (receive v p' stack' s') := by
  have hkept := Pending.MatchesEach.cons hp hrest
  cases hp with
  | unary t => exact applied_matches hs hk hrest t fun _ => .applyUnary
  | binaryLeft t h => exact matches_push hs hk hrest (.eval h) (.binaryRight t hv)
  | binaryRight t hleft => exact applied_matches hs hk hrest t fun _ => .applyBinary
  | logical t h =>
      simp only [receive]
      generalize (if t.kind = .kwOr then v.truthy else !v.truthy) = decided
      cases decided with
      | true => exact matches_task hs hk hrest (.value hv)
      | false => exact matches_task hs hk hrest (.eval h)
  | @assign id id' _ t t' hid ht =>
      obtain ⟨hsame, hplace⟩ := hs.binder? hk hid ht
      simp only [receive, hsame]
      cases hg : s.binder? id t.lexeme with
      | some g =>
          obtain ⟨i, hi, hname⟩ := hplace g hg
          have hheap := hs.heap.define hi t.lexeme hv
          rw [← hname] at hheap
          exact matches_task (hs.withHeap (.refl L) hheap) hk hrest (.value hv)
      | none => exact matches_task hs hk hrest (.failing ht.undefined)
  | callee t hes =>
      cases hes with
      | nil => exact matches_task hs hk hrest (.call t hv nofun)
      | cons h hes => exact matches_push hs hk hrest (.eval h) (.argument t hv nofun hes)
  | argument t hcallee hfront hes =>
      have hvs : ∀ u ∈ v :: _, u.Proper L := List.forall_mem_cons.mpr ⟨hv, hfront⟩
      cases hes with
      | nil =>
          exact matches_task hs hk hrest
            (.call t hcallee fun u hu => hvs u (List.mem_reverse.mp hu))
      | cons h hes => exact matches_push hs hk hrest (.eval h) (.argument t hcallee hvs hes)
  | get t => exact found_matches hs hk hrest (hs.property v t)
  | setObject t h =>
      cases v with
      | instanceObj i => exact matches_push hs hk hrest (.eval h) (.setValue i t)
      | _ => exact matches_task hs hk hrest (.failing (.same _))
  | setValue i t =>
      have hheap := hs.heap.setField i t.lexeme hv
      exact matches_task (hs.withHeap (.refl L) hheap) hk hrest (.value hv)
  | expression => exact matches_task hs hk hrest .done
  | print =>
      obtain ⟨hprinted, hresult⟩ := hs.print hv
      simp only [receive]
      rcases hprint : s.print v with ⟨printed, result⟩
      rcases hprint' : s'.print v with ⟨printed', result'⟩
      have hcurrent : printed.current = s.current :=
        (congrArg (fun r => r.1.current) hprint).symm
      rw [hprint, hprint'] at hprinted hresult
      rw [← hcurrent] at hk
      obtain rfl : result' = result := hresult
      cases result' with
      | ok => exact matches_task hprinted hk hrest .done
      | error e => exact matches_task hprinted hk hrest (.failing (.same _))
  | var ht => exact matches_task (hs.define hk ht hv) hk hrest .done
  | branch h hu =>
      simp only [receive]
      split
      · exact matches_task hs hk hrest (.exec h)
      · cases hu with
        | none => exact matches_task hs hk hrest .done
        | some hu => exact matches_task hs hk hrest (.exec hu)
  | loopTest he h =>
      simp only [receive]
      split
      · exact matches_push hs hk hrest (.exec h) (.loopBody he h)
      · exact matches_task hs hk hrest .done
  | ret => exact matches_task hs hk hrest (.returning hv)
  | superclass ht h hds =>
      cases v with
      | classObj c =>
          obtain ⟨L', hL, hclass⟩ := hs.declareClass hk ht (some c) hds
          exact matches_task hclass (hL.place hk) (hrest.mono hL) .done
      | _ => exact matches_task hs hk hrest (.failing (superclassToken_matches _ h))
  | initializer i => exact matches_task hs hk hrest (.value nofun)
  | loopBody | block | body | program => exact matches_task hs hk hkept (.value hv)

omit hstack in
theorem proceed_matches {j : Place} {p p' : Pending} (hp : p.Matches μ L k j p')
    (hrest : Pending.MatchesEach μ L j stack stack') :
    Matches μ (proceed p stack s) (proceed p' stack' s') := by
  have hkept := Pending.MatchesEach.cons hp hrest
  cases hp with
  | loopBody he h => exact matches_push hs hk hrest (.eval he) (.loopTest he h)
  | block hss houter =>
      cases hss with
      | nil => exact matches_leave hs houter hrest .done
      | cons h hss => exact matches_task hs hk (.cons (.block hss houter) hrest) (.exec h)
  | body hf => exact leave_matches hs hk hrest hf nofun
  | program hss =>
      cases hss with
      | nil => exact matches_task hs hk hrest .done
      | cons h hss => exact matches_push hs hk hrest (.exec h) (.program hss)
  | _ => exact matches_task hs hk hkept .done

omit hstack in
theorem unwind_matches {v : Value} (hv : v.Proper L) {j : Place} {p p' : Pending}
    (hp : p.Matches μ L k j p') (hrest : Pending.MatchesEach μ L j stack stack') :
    Matches μ (unwind v p stack s) (unwind v p' stack' s') := by
  have hkept := Pending.MatchesEach.cons hp hrest
  cases hp with
  | loopBody => exact matches_task hs hk hrest (.returning hv)
  | block _ houter => exact matches_leave hs houter hrest (.returning hv)
  | body hf => exact leave_matches hs hk hrest hf hv
  | program => exact matches_task hs hk hkept .done
  | _ => exact matches_task hs hk hkept (.returning hv)

omit hstack in
theorem abandon_matches {f f' : Fault} (hf : f.Matches μ f') {j : Place} {p p' : Pending}
    (hp : p.Matches μ L k j p') (hrest : Pending.MatchesEach μ L j stack stack') :
    Matches μ (abandon f p stack s) (abandon f' p' stack' s') := by
  cases hp with
  | block _ houter => exact matches_leave hs houter hrest (.failing hf)
  | body => exact matches_task (hs.mapDepth (· - 1)) hk hrest (.failing hf)
  | _ => exact matches_task hs hk hrest (.failing hf)

end Machine

/-! ### Steps -/

namespace Machine.Matches

variable {μ : Matching} {m m' : Machine}

theorem step (h : m.Matches μ m') : m.step.Matches μ m'.step := by
  obtain ⟨task, stack, s⟩ := m
  obtain ⟨task', stack', s'⟩ := m'
  obtain ⟨L, k, hk, htask, hstack, hs⟩ := h
  cases htask with
  | eval h => exact evaluate_matches hs hk hstack h
  | exec h => exact execute_matches hs hk hstack h
  | call t hv hvs => exact invoke_matches hs hk hstack hv hvs t
  | value hv =>
      cases hstack with
      | nil => exact matches_task hs hk .nil (.value hv)
      | cons hp hrest => exact receive_matches hs hk hv hp hrest
  | done =>
      cases hstack with
      | nil => exact matches_task hs hk .nil .done
      | cons hp hrest => exact proceed_matches hs hk hp hrest
  | returning hv =>
      cases hstack with
      | nil => exact matches_task hs hk .nil (.returning hv)
      | cons hp hrest => exact unwind_matches hs hk hv hp hrest
  | failing hf =>
      cases hstack with
      | nil => exact matches_task hs hk .nil (.failing hf)
      | cons hp hrest => exact abandon_matches hs hk hf hp hrest

theorem run (h : m.Matches μ m') (n : Nat) : (Machine.run n m).Matches μ (Machine.run n m') :=
  run_induct₂ (Machine.Matches μ) (fun _ _ => step) h n

end Machine.Matches

end ScriptLang
