import ScriptLang.Proofs.Frames.Operations
import ScriptLang.Proofs.Frames.Waiting

/-! Every step keeps the frames of a machine in agreement with the scopes of its script. There is
one lemma for each function that a step is made of. -/

namespace ScriptLang

@[simp]
theorem History.extend_nil (h : History) : h.extend [] = h := by
  simp [History.extend]

theorem History.extend_cons (h : History) (opening : Opening) (openings : List Opening) :
    h.extend (opening :: openings) = (h.extend [opening]).extend openings := by
  simp [History.extend]

namespace World

variable {w : World}

/-! ### Values that are sound -/

theorem sound_literal (w : World) (l : Literal) : w.Sound (Machine.literal l) := by
  cases l <;> simp [Machine.literal]

theorem sound_applyUnary {operator : Kind} {v u : Value} (h : v.applyUnary operator = .ok u) :
    w.Sound u := by
  unfold Value.applyUnary at h
  split at h <;> cases h <;> simp

theorem sound_arithmetic {operator : Kind} {a b : Float} {u : Value}
    (h : Value.arithmetic operator a b = .ok u) : w.Sound u := by
  unfold Value.arithmetic at h
  split at h <;> cases h <;> simp

theorem sound_applyBinary {operator : Kind} {a b u : Value}
    (h : a.applyBinary operator b = .ok u) : w.Sound u := by
  unfold Value.applyBinary at h
  split at h
  · split at h <;> cases h <;> simp
  · cases h
    simp
  · cases h
    simp
  · split at h
    · exact sound_arithmetic h
    · cases h

end World

namespace Session

variable {h : History} {s : Session}

theorem sound_read? (hok : (s.world h).Ok) {id : ExprId} {name : String} {v : Value}
    (hread : s.read? id name = some v) : (s.world h).Sound v := by
  unfold read? at hread
  split at hread
  all_goals
    obtain ⟨f, -, hf⟩ := Option.bind_eq_some_iff.mp hread
    exact hok.values f name v hf

theorem binderWithin_isSome {heap : Heap} {name : String} {n : Nat} {f g : FrameId}
    (hfound : heap.binderWithin name n f = some g) : (heap.local? g name).isSome := by
  induction n generalizing f with
  | zero => cases hfound
  | succ n ih =>
      unfold Heap.binderWithin at hfound
      split at hfound
      · obtain rfl := Option.some.inj hfound
        assumption
      · split at hfound
        · exact ih hfound
        · cases hfound

/-- A name that is assigned to is bound. -/
theorem binder?_isSome {id : ExprId} {name : String} {f : FrameId}
    (hfound : s.binder? id name = some f) : (s.heap.local? f name).isSome := by
  unfold binder? at hfound
  split at hfound
  · unfold Heap.binderAt? at hfound
    split at hfound
    · split at hfound
      · obtain rfl := Option.some.inj hfound
        assumption
      · cases hfound
    · cases hfound
  · exact binderWithin_isSome hfound

/-- What is found under a name of a value is sound, or a method that is not bound yet. -/
theorem property_ok (hok : (s.world h).Ok) (object : Value) (name : Token) :
    (∀ v, s.property object name = .ok (.value v) → (s.world h).Sound v) ∧
      ∀ f i, s.property object name = .ok (.method f i) → (s.world h).Unbound f := by
  unfold property
  split
  · split
    · rename_i hfield
      exact ⟨fun v hv => by cases hv; exact hok.fields _ _ _ hfield, nofun⟩
    · split
      · rename_i hmethod
        obtain ⟨inst, -, hfound⟩ := Option.bind_eq_some_iff.mp hmethod
        exact ⟨nofun, fun f i hf => by cases hf; exact hok.unbound_of_method? hfound⟩
      · exact ⟨nofun, nofun⟩
  · exact ⟨nofun, nofun⟩

theorem superMethod_ok (hok : (s.world h).Ok) (id : ExprId) (keyword method : Token) :
    (∀ v, s.superMethod id keyword method ≠ .ok (.value v)) ∧
      ∀ f i, s.superMethod id keyword method = .ok (.method f i) → (s.world h).Unbound f := by
  unfold superMethod
  split
  · exact ⟨nofun, nofun⟩
  · split
    · exact ⟨nofun, nofun⟩
    · split
      · exact ⟨nofun, nofun⟩
      · split
        · exact ⟨nofun, nofun⟩
        · split
          · rename_i hmethod
            exact ⟨nofun, fun f i hf => by cases hf; exact hok.unbound_of_method? hmethod⟩
          · exact ⟨nofun, nofun⟩
        · exact ⟨nofun, nofun⟩
    · exact ⟨nofun, nofun⟩

end Session

namespace Machine

open World

/-- `m` is where a machine may go from the session `s` when it opens these frames. -/
structure Advances (h : History) (s : Session) (openings : List Opening) (m : Machine) : Prop where
  grows : (s.world h).Grows (m.session.world (h.extend openings))
  ok : (m.session.world (h.extend openings)).Ok
  works : (m.session.world (h.extend openings)).Works m.session.current m.task m.stack
  hops : m.session.hops = s.hops
  nextId : m.session.nextId = s.nextId

section

variable {h : History} {s : Session} {stack : List Pending} {scopes : List Scope}
  {sites : List Site}

/-- A machine that leaves the heap as it is. -/
theorem Advances.of_world {m : Machine} (hok : (s.world h).Ok)
    (hworks : (s.world h).Works m.session.current m.task m.stack)
    (hworld : m.session.world h = s.world h) (hhops : m.session.hops = s.hops)
    (hnextId : m.session.nextId = s.nextId) : Advances h s [] m := by
  constructor
  · rw [History.extend_nil, hworld]
    exact .refl _
  · rwa [History.extend_nil, hworld]
  · rwa [History.extend_nil, hworld]
  · exact hhops
  · exact hnextId

/-- A machine that only turns to another task. -/
theorem Advances.stay {task : Task} (hok : (s.world h).Ok)
    (hworks : (s.world h).Works s.current task stack) : Advances h s [] ⟨task, stack, s⟩ :=
  .of_world hok hworks rfl rfl rfl

/-- A machine that opens no frame, but may change the heap. -/
theorem Advances.of_heap {task : Task} {heap : Heap}
    (hgrows : (s.world h).Grows { s.world h with heap := heap })
    (hok : World.Ok { s.world h with heap := heap })
    (hworks : World.Works { s.world h with heap := heap } s.current task stack) :
    Advances h s [] ⟨task, stack, { s with heap }⟩ := by
  constructor
  · rw [History.extend_nil]
    exact hgrows
  · rw [History.extend_nil]
    exact hok
  · rw [History.extend_nil]
    exact hworks
  · rfl
  · rfl

theorem readName_advances (hok : (s.world h).Ok) (id : ExprId) (name : Token)
    (hagrees : (s.world h).Agrees s.current scopes sites)
    (hwaits : (s.world h).Waits .value s.current scopes sites stack) :
    Advances h s [] (readName id name stack s) := by
  unfold readName
  split
  · rename_i v hread
    exact .stay hok ⟨Session.sound_read? hok hread, scopes, sites, hagrees, hwaits⟩
  · exact .stay hok ⟨_, scopes, sites, hwaits⟩

theorem found_advances (hok : (s.world h).Ok) {property : Except Fault Session.Property}
    (hvalue : ∀ v, property = .ok (.value v) → (s.world h).Sound v)
    (hmethod : ∀ f i, property = .ok (.method f i) → (s.world h).Unbound f)
    (hagrees : (s.world h).Agrees s.current scopes sites)
    (hwaits : (s.world h).Waits .value s.current scopes sites stack) :
    Advances h s (binds property) (found stack s property) := by
  unfold found
  split
  · rename_i v
    exact .stay hok ⟨hvalue v rfl, scopes, sites, hagrees, hwaits⟩
  · rename_i f i
    obtain ⟨hle, hok₁, hcallable⟩ := hok.bindMethod (hmethod f i rfl) i
    obtain ⟨hle₂, hok₂⟩ := hok₁.newFunction { f with closure := s.heap.frames.size }
    have hgrows := hle.trans hle₂
    refine ⟨hgrows, hok₂, ⟨?_, scopes, sites, hagrees.mono hgrows, hwaits.mono hgrows⟩, rfl, rfl⟩
    intro id hid
    cases hid
    exact ⟨_, Heap.newFunction_getElem? _ _, hcallable.mono hle₂⟩
  · exact .stay hok ⟨_, scopes, sites, hwaits⟩

/-! ### Starting a task -/

theorem evaluate_advances (hok : (s.world h).Ok) {e : Expr}
    (hworks : (s.world h).Works s.current (.eval e) stack) :
    Advances h s (opens ⟨.eval e, stack, s⟩) (evaluate e stack s) := by
  obtain ⟨setting, scopes, outer, sites, hvisited, hreads, hagrees, hwaits⟩ := hworks
  have hpart {e' : Expr} (hpart : e' ∈ e.parts) :
      (s.world h).Visited ⟨.expr e', setting, outer, sites⟩ :=
    hreads.eq hpart ▸ hvisited.expr hpart
  have heval {e' : Expr} {stack : List Pending} (he : e' ∈ e.parts)
      (hwaits : (s.world h).Waits .value s.current outer sites stack) :
      Advances h s [] ⟨.eval e', stack, s⟩ :=
    .stay hok ⟨setting, outer, outer, sites, hpart he, .inl rfl, hagrees, hwaits⟩
  cases e with
  | literal l => exact .stay hok ⟨sound_literal _ l, outer, sites, hagrees, hwaits⟩
  | grouping inner => exact heval (by simp [Expr.parts]) hwaits
  | unary operator right => exact heval (by simp [Expr.parts]) (.unary operator hwaits)
  | binary left operator right =>
      exact heval (by simp [Expr.parts])
        (.binaryLeft operator (hpart (by simp [Expr.parts])) hwaits)
  | logical left operator right =>
      exact heval (by simp [Expr.parts])
        (.logical operator (hpart (by simp [Expr.parts])) hwaits)
  | «variable» id name => exact readName_advances hok id name hagrees hwaits
  | assign id name value =>
      have hname : name.IsPlain := (hok.visited hvisited).1.wellFormed.1
      exact heval (by simp [Expr.parts]) (.assign id hname hwaits)
  | call callee paren arguments =>
      exact heval (by simp [Expr.parts])
        (.callee paren (fun e he => hpart (by simp [Expr.parts, he])) hwaits)
  | get object name => exact heval (by simp [Expr.parts]) (.get name hwaits)
  | set object name value =>
      exact heval (by simp [Expr.parts])
        (.setObject name (hpart (by simp [Expr.parts])) hwaits)
  | this id keyword => exact readName_advances hok id keyword hagrees hwaits
  | super id keyword method =>
      obtain ⟨hvalue, hmethod⟩ := Session.superMethod_ok hok id keyword method
      exact found_advances hok (fun v hv => absurd hv (hvalue v)) hmethod hagrees hwaits

theorem enterBlock_advances (hok : (s.world h).Ok) {outer : FrameId} (opening : Opening)
    (hopening : ∀ w' f, Holds w' f opening) {setting : Setting} {body : List Stmt}
    (hbody : (s.world h).Visited
      ⟨.stmts body, setting, .empty :: scopes, opening.site :: sites⟩)
    (houter : (s.world h).Agrees outer scopes sites) {scopes' : List Scope} {sites' : List Site}
    (hagrees : (s.world h).Agrees s.current scopes' sites')
    (hwaits : (s.world h).Waits .finish s.current scopes' sites' stack) :
    Advances h s [opening] (enterBlock body outer stack s) := by
  have hgrows := hok.grows_opened outer opening
  exact ⟨hgrows, hok.opened outer opening hopening, ⟨_, _, houter.opened hok,
    .block (hbody.mono hgrows) (hagrees.mono hgrows) (hwaits.mono hgrows)⟩, rfl, rfl⟩

/-- Binding a name in the current frame. -/
theorem define_advances (hok : (s.world h).Ok)
    (hagrees : (s.world h).Agrees s.current scopes sites) {name : Token} (hname : name.IsPlain)
    {v : Value} (hv : (s.world h).Sound v)
    (hwaits : (s.world h).Waits .finish s.current (completeIn name.lexeme scopes) sites stack) :
    Advances h s [] ⟨.done, stack, s.define name.lexeme v⟩ := by
  obtain ⟨hle, hok', hagrees'⟩ := hok.defineName hagrees hname fun hle _ => hv.mono hle
  exact .of_heap hle hok' ⟨_, sites, hagrees', hwaits.mono hle⟩

/-- Declaring a function, which closes over the frame that its name is bound in. -/
theorem function_advances (hok : (s.world h).Ok) {decl : FunctionDecl} {setting : Setting}
    (hvisited : (s.world h).Visited ⟨.stmt (.function decl), setting, scopes, sites⟩)
    (hagrees : (s.world h).Agrees s.current scopes sites)
    (hwaits :
      (s.world h).Waits .finish s.current (completeIn decl.name.lexeme scopes) sites stack) :
    Advances h s [] (execute (.function decl) stack s) := by
  have hname : decl.name.IsPlain := (hok.visited hvisited).1.wellFormed.1
  have hdecl := hvisited.part (List.mem_singleton.mpr rfl)
  simp only [ScopeWalk.declareComplete_scopes, ScopeWalk.within_scopes] at hdecl
  obtain ⟨hle, hok₁⟩ := hok.newFunction ⟨decl, s.current, false⟩
  obtain ⟨hle₂, hok₂, hagrees₂⟩ := hok₁.defineName (hagrees.mono hle) hname
    (v := .function s.heap.functions.size) (by
      rintro w' hle' hagrees' id ⟨⟩
      exact ⟨_, hle'.heap.functions _ _ (Heap.newFunction_getElem? _ _),
        ⟨_, _, _, (hdecl.mono hle).mono hle', hagrees'⟩, nofun⟩)
  have hgrows := hle.trans hle₂
  exact .of_heap hgrows hok₂ ⟨_, sites, hagrees₂, hwaits.mono hgrows⟩

theorem execute_advances (hok : (s.world h).Ok) {st : Stmt}
    (hworks : (s.world h).Works s.current (.exec st) stack) :
    Advances h s (opens ⟨.exec st, stack, s⟩) (execute st stack s) := by
  obtain ⟨setting, scopes, sites, hvisited, hagrees, hwaits⟩ := hworks
  have hwf : st.WellFormed := (hok.visited hvisited).1.wellFormed
  have heval {e : Expr} {stack : List Pending}
      (hpart : ⟨.expr e, setting, scopes, sites⟩ ∈
        Point.parts ⟨.stmt st, setting, scopes, sites⟩)
      (hwaits : (s.world h).Waits .value s.current scopes sites stack) :
      Advances h s [] ⟨.eval e, stack, s⟩ :=
    .stay hok ⟨setting, scopes, scopes, sites, hvisited.part hpart, .inl rfl, hagrees, hwaits⟩
  cases st with
  | expression e => exact heval (by simp [Point.parts]) (.expression hwaits)
  | print e => exact heval (by simp [Point.parts]) (.print hwaits)
  | var name initializer =>
      cases initializer with
      | none => exact define_advances hok hagrees hwf.1 (sound_nil _) hwaits
      | some e =>
          have hpart := hvisited.part (List.mem_singleton.mpr rfl)
          simp only [ScopeWalk.declare_scopes, ScopeWalk.within_scopes] at hpart
          refine .stay hok ⟨setting, _, _, sites, hpart, .inl rfl, hagrees.declareIn _, ?_⟩
          refine .var hwf.1 ?_
          rw [completeIn_declareIn]
          exact hwaits
  | block body =>
      have hpart := hvisited.part (List.mem_singleton.mpr rfl)
      exact enterBlock_advances hok (.block body) (fun _ _ => trivial) hpart hagrees hagrees hwaits
  | ifThen condition thenBranch =>
      have hbranch : ∀ st ∈ thenBranch :: Option.toList none,
          (s.world h).Visited ⟨.stmt st, setting, scopes, sites⟩ ∧ st.declares = none := by
        intro st hst
        obtain rfl : st = thenBranch := by simpa using hst
        exact ⟨hvisited.part (by simp [Point.parts]), hwf.2.2⟩
      exact heval (by simp [Point.parts]) (.branch hbranch hwaits)
  | ifElse condition thenBranch elseBranch =>
      have hbranch : ∀ st ∈ thenBranch :: Option.toList (some elseBranch),
          (s.world h).Visited ⟨.stmt st, setting, scopes, sites⟩ ∧ st.declares = none := by
        intro st hst
        rcases (by simpa using hst : st = thenBranch ∨ st = elseBranch) with rfl | rfl
        · exact ⟨hvisited.part (by simp [Point.parts]), hwf.2.1.2⟩
        · exact ⟨hvisited.part (by simp [Point.parts]), hwf.2.2.2⟩
      exact heval (by simp [Point.parts]) (.branch hbranch hwaits)
  | loop condition body => exact heval (by simp [Point.parts]) (.loopTest hvisited hwaits)
  | function decl => exact function_advances hok hvisited hagrees hwaits
  | ret keyword value =>
      cases value with
      | none => exact .stay hok ⟨sound_nil _, scopes, sites, hagrees, hwaits⟩
      | some e => exact heval (by simp [Point.parts]) (.ret hwaits)
  | classDecl name superclass methods =>
      cases superclass with
      | none =>
          obtain ⟨hle, hok', hagrees'⟩ := Session.declareClass_base hok hagrees hvisited
          exact .of_heap hle hok' ⟨_, sites, hagrees', hwaits.mono hle⟩
      | some superclass =>
          obtain ⟨id, parent, rfl, hne⟩ := Point.accepted_superclass (hok.visited hvisited).1
          have hpart := hvisited.part List.mem_cons_self
          simp only [ScopeWalk.declareComplete_scopes, ScopeWalk.within_scopes] at hpart
          exact .stay hok ⟨_, _, scopes, sites, hpart, .inr ⟨id, parent, _, rfl, hne, rfl⟩, hagrees,
            .superclass hvisited hwaits⟩

/-! ### Calls -/

theorem foldl_define (params : List (Token × Value)) (s : Session) :
    params.foldl (fun s (param, v) => s.define param.lexeme v) s = { s with
      heap :=
        params.foldl (fun heap (param, v) => heap.define s.current param.lexeme v) s.heap } := by
  induction params generalizing s with
  | nil => rfl
  | cons p params ih =>
      rw [List.foldl_cons, ih]
      rfl

theorem enter_advances (hok : (s.world h).Ok) {f : Function} (hf : (s.world h).Callable f)
    {arguments : List Value} (hlength : arguments.length = f.decl.arity)
    (hsound : ∀ v ∈ arguments, (s.world h).Sound v) (paren : Token)
    (hagrees : (s.world h).Agrees s.current scopes sites)
    (hwaits : (s.world h).Waits .value s.current scopes sites stack) :
    Advances h s (enters f s) (enter f arguments paren stack s) := by
  unfold enters enter
  split
  · exact .stay hok ⟨_, scopes, sites, hwaits⟩
  · obtain ⟨hgrows, hok', setting, inner, innerSites, hbody, hinner⟩ :=
      hok.enterFunction hf hlength hsound
    simp only [foldl_define]
    refine ⟨hgrows, hok', ⟨inner, innerSites, hinner, ?_⟩, rfl, rfl⟩
    exact .block hbody (hagrees.mono hgrows) (.body (hf.mono hgrows) (hwaits.mono hgrows))

/-- A machine that advances from a later session. -/
theorem Advances.after {h' : History} {s' : Session} {openings openings' : List Opening}
    {m : Machine} (hadvances : Advances h' s' openings m) (hgrows : (s.world h).Grows (s'.world h'))
    (hopenings : h'.extend openings = h.extend openings') (hhops : s'.hops = s.hops)
    (hnextId : s'.nextId = s.nextId) : Advances h s openings' m where
  grows := hopenings ▸ hgrows.trans hadvances.grows
  ok := hopenings ▸ hadvances.ok
  works := hopenings ▸ hadvances.works
  hops := hadvances.hops.trans hhops
  nextId := hadvances.nextId.trans hnextId

theorem construct_advances (hok : (s.world h).Ok) (c : ClassId) {arguments : List Value}
    (hlength : arguments.length = s.heap.classArity c)
    (hsound : ∀ v ∈ arguments, (s.world h).Sound v) (paren : Token)
    (hagrees : (s.world h).Agrees s.current scopes sites)
    (hwaits : (s.world h).Waits .value s.current scopes sites stack) :
    Advances h s (calls (.classObj c) arguments s) (construct c arguments paren stack s) := by
  obtain ⟨hle, hok₁⟩ := hok.newInstance c
  simp only [calls, if_pos hlength]
  unfold construct
  simp only [Heap.method?_newInstance]
  unfold Heap.classArity at hlength
  cases hmethod : s.heap.method? c initName with
  | none =>
      exact .of_heap hle hok₁
        ⟨sound_instanceObj _ _, scopes, sites, hagrees.mono hle, hwaits.mono hle⟩
  | some f =>
      simp only [hmethod] at hlength ⊢
      have hunbound := (hok.unbound_of_method? hmethod).mono hle
      obtain ⟨hle₂, hok₂, hcallable⟩ := hok₁.bindMethod hunbound s.heap.instances.size
      have hgrows := hle.trans hle₂
      exact (enter_advances (s := { s with heap := _ }) hok₂ hcallable hlength
        (fun v hv => (hsound v hv).mono hgrows) paren (hagrees.mono hgrows)
        (.initializer _ (hwaits.mono hgrows))).after hgrows (History.extend_cons h _ _).symm rfl rfl

theorem invoke_advances (hok : (s.world h).Ok) {callee : Value} {arguments : List Value}
    {paren : Token} (hworks : (s.world h).Works s.current (.call callee arguments paren) stack) :
    Advances h s (opens ⟨.call callee arguments paren, stack, s⟩)
      (invoke callee arguments paren stack s) := by
  obtain ⟨hcallee, hsound, scopes, sites, hagrees, hwaits⟩ := hworks
  have hfailing {f : Fault} : Advances h s [] ⟨.failing f, stack, s⟩ :=
    .stay hok ⟨_, scopes, sites, hwaits⟩
  show Advances h s (calls callee arguments s) _
  cases callee with
  | native f =>
      simp only [invoke, calls]
      split
      · exact .of_world hok ⟨sound_number _ _, scopes, sites, hagrees, hwaits⟩ rfl rfl rfl
      · exact hfailing
  | function id =>
      obtain ⟨f, hf, hcallable⟩ := hcallee id rfl
      replace hf : s.heap.functions[id]? = some f := hf
      simp only [invoke, calls, hf]
      split
      · exact enter_advances hok hcallable ‹_› hsound paren hagrees hwaits
      · exact hfailing
  | classObj c =>
      simp only [invoke]
      split
      · exact construct_advances hok c ‹_› hsound paren hagrees hwaits
      · simp only [calls, if_neg ‹_›]
        exact hfailing
  | nil | bool | number | string | instanceObj => exact hfailing

/-- Leaving a function gives a value; an initializer gives the instance it is bound to. -/
theorem leave_eq (hok : (s.world h).Ok) {f : Function} (hf : (s.world h).Callable f) (v : Value)
    (stack : List Pending) :
    ∃ u, leave f v stack s = ⟨.value u, stack, { s with depth := s.depth - 1 }⟩ ∧
      (f.isInitializer = false → u = v) ∧
      (f.isInitializer = true →
        ∃ i, (s.world h).openedFor f.closure (.this f.decl i) ∧ u = .instanceObj i) := by
  unfold leave
  cases hinit : f.isInitializer with
  | false => exact ⟨v, rfl, fun _ => rfl, nofun⟩
  | true =>
      obtain ⟨i, hopened⟩ := hf.bound hinit
      have hthis : s.heap.getAt? f.closure 0 Session.thisToken.lexeme = some (.instanceObj i) :=
        hok.holds _ _ hopened
      simp only [hthis, if_true]
      exact ⟨_, rfl, nofun, fun _ => ⟨i, hopened, rfl⟩⟩

theorem leave_advances (hok : (s.world h).Ok) {f : Function} (hf : (s.world h).Callable f)
    {v : Value} (hv : (s.world h).Sound v)
    (hagrees : (s.world h).Agrees s.current scopes sites)
    (hwaits : (s.world h).Waits .value s.current scopes sites stack) :
    Advances h s [] (leave f v stack s) := by
  obtain ⟨u, heq, hvalue, hinstance⟩ := leave_eq hok hf v stack
  have hu : (s.world h).Sound u := by
    cases hinit : f.isInitializer with
    | false => exact hvalue hinit ▸ hv
    | true =>
        obtain ⟨i, -, rfl⟩ := hinstance hinit
        exact sound_instanceObj _ i
  rw [heq]
  exact .of_world hok ⟨hu, scopes, sites, hagrees, hwaits⟩ rfl rfl rfl

/-! ### Going on after a task -/

theorem applied_advances (hok : (s.world h).Ok) (operator : Token)
    {result : Except FaultCause Value} (hresult : ∀ v, result = .ok v → (s.world h).Sound v)
    (hagrees : (s.world h).Agrees s.current scopes sites)
    (hwaits : (s.world h).Waits .value s.current scopes sites stack) :
    Advances h s [] (applied operator stack s result) := by
  unfold applied
  split
  · exact .stay hok ⟨hresult _ rfl, scopes, sites, hagrees, hwaits⟩
  · exact .stay hok ⟨_, scopes, sites, hwaits⟩

theorem assign_advances (hok : (s.world h).Ok) (id : ExprId) {name : Token} (hname : name.IsPlain)
    {v : Value} (hv : (s.world h).Sound v) (hagrees : (s.world h).Agrees s.current scopes sites)
    (hwaits : (s.world h).Waits .value s.current scopes sites stack) :
    Advances h s [] (receive v (.assign id name) stack s) := by
  simp only [receive]
  split
  · rename_i f hbinder
    obtain ⟨u, hu⟩ := Option.isSome_iff_exists.mp (Session.binder?_isSome hbinder)
    obtain ⟨hle, hok'⟩ := hok.define (Heap.lt_size_of_local? hu)
      (fun hword => absurd hword (not_isWord_of_isPlain hname)) fun hle _ => hv.mono hle
    exact .of_heap hle hok' ⟨hv.mono hle, scopes, sites, hagrees.mono hle, hwaits.mono hle⟩
  · exact .stay hok ⟨_, scopes, sites, hwaits⟩

theorem print_advances (hok : (s.world h).Ok) (v : Value)
    (hagrees : (s.world h).Agrees s.current scopes sites)
    (hwaits : (s.world h).Waits .finish s.current scopes sites stack) :
    Advances h s [] (receive v .print stack s) := by
  simp only [receive, Session.print]
  rcases s.sink.write (s.heap.display v ++ "\n").toUTF8 with ⟨sink, result⟩
  cases result with
  | ok => exact .of_world hok ⟨scopes, sites, hagrees, hwaits⟩ rfl rfl rfl
  | error => exact .of_world hok ⟨_, scopes, sites, hwaits⟩ rfl rfl rfl

theorem receive_advances (hok : (s.world h).Ok) {v : Value} {p : Pending}
    (hworks : (s.world h).Works s.current (.value v) (p :: stack)) :
    Advances h s (opens ⟨.value v, p :: stack, s⟩) (receive v p stack s) := by
  obtain ⟨hv, scopes, sites, hagrees, hwaits⟩ := hworks
  have heval {e : Expr} {setting : Setting} {stack : List Pending}
      (hvisited : (s.world h).Visited ⟨.expr e, setting, scopes, sites⟩)
      (hwaits : (s.world h).Waits .value s.current scopes sites stack) :
      Advances h s [] ⟨.eval e, stack, s⟩ :=
    .stay hok ⟨setting, scopes, scopes, sites, hvisited, .inl rfl, hagrees, hwaits⟩
  have hfailing {f : Fault} {expects : Expects} {scopes : List Scope}
      (hwaits : (s.world h).Waits expects s.current scopes sites stack) :
      Advances h s [] ⟨.failing f, stack, s⟩ := .stay hok ⟨expects, scopes, sites, hwaits⟩
  cases hwaits with
  | unary operator hwaits =>
      exact applied_advances hok operator (fun u hu => sound_applyUnary hu) hagrees hwaits
  | binaryLeft operator hright hwaits =>
      exact heval hright (.binaryRight v operator hwaits)
  | binaryRight left operator hwaits =>
      exact applied_advances hok operator (fun u hu => sound_applyBinary hu) hagrees hwaits
  | logical operator hright hwaits =>
      simp only [receive]
      generalize (if operator.kind = .kwOr then v.truthy else !v.truthy) = decided
      cases decided with
      | true => exact .stay hok ⟨hv, scopes, sites, hagrees, hwaits⟩
      | false => exact heval hright hwaits
  | assign id hname hwaits =>
      exact assign_advances hok id hname hv hagrees hwaits
  | callee paren hargs hwaits =>
      rename_i arguments
      cases arguments with
      | nil => exact .stay hok ⟨hv, by simp, scopes, sites, hagrees, hwaits⟩
      | cons e rest =>
          exact heval (hargs e (by simp)) (.argument paren hv (by simp)
            (fun e' he' => hargs e' (by simp [he'])) hwaits)
  | argument paren hcallee hfront hrest hwaits =>
      rename_i setting callee front rest
      have hfront' : ∀ u ∈ v :: front, (s.world h).Sound u := by
        intro u hu
        rcases List.mem_cons.mp hu with rfl | hu
        · exact hv
        · exact hfront u hu
      cases rest with
      | nil =>
          exact .stay hok ⟨hcallee, fun u hu => hfront' u (List.mem_reverse.mp hu), scopes, sites,
            hagrees, hwaits⟩
      | cons e rest =>
          exact heval (hrest e (by simp)) (.argument paren hcallee hfront'
            (fun e' he' => hrest e' (by simp [he'])) hwaits)
  | get name hwaits =>
      obtain ⟨hvalue, hmethod⟩ := Session.property_ok hok v name
      exact found_advances hok hvalue hmethod hagrees hwaits
  | setObject name hvalue hwaits =>
      cases v with
      | instanceObj i => exact heval hvalue (.setValue i name hwaits)
      | _ => exact hfailing hwaits
  | setValue i name hwaits =>
      obtain ⟨hle, hok'⟩ := hok.setField i name.lexeme hv
      exact .of_heap hle hok' ⟨hv.mono hle, scopes, sites, hagrees.mono hle, hwaits.mono hle⟩
  | expression hwaits =>
      exact .stay hok ⟨scopes, sites, hagrees, hwaits⟩
  | print hwaits =>
      exact print_advances hok v hagrees hwaits
  | var hname hwaits =>
      exact define_advances hok hagrees hname hv hwaits
  | branch hbranches hwaits =>
      rename_i setting thenBranch elseBranch
      have hexec {st : Stmt} (hst : st ∈ thenBranch :: elseBranch.toList) :
          Advances h s [] ⟨.exec st, stack, s⟩ := by
        refine .stay hok ⟨setting, scopes, sites, (hbranches st hst).1, hagrees, ?_⟩
        rwa [Stmt.after_of_declares (hbranches st hst).2]
      simp only [receive]
      split
      · exact hexec (by simp)
      · split
        · exact hexec (by simp)
        · exact .stay hok ⟨scopes, sites, hagrees, hwaits⟩
  | loopTest hloop hwaits =>
      rename_i setting condition body
      have hwf : body.declares = none := (hok.visited hloop).1.wellFormed.2.2
      simp only [receive]
      split
      · refine .stay hok ⟨setting, scopes, sites, hloop.part (by simp [Point.parts]), hagrees, ?_⟩
        rw [Stmt.after_of_declares hwf]
        exact .loopBody hloop hwaits
      · exact .stay hok ⟨scopes, sites, hagrees, hwaits⟩
  | ret hwaits =>
      exact .stay hok ⟨hv, scopes, sites, hagrees, hwaits⟩
  | superclass hclass hwaits =>
      cases v with
      | classObj c =>
          obtain ⟨hle, hok', hagrees'⟩ := Session.declareClass_derived hok hagrees hclass c
          exact ⟨hle, hok', ⟨_, sites, hagrees', hwaits.mono hle⟩, rfl, rfl⟩
      | _ => exact hfailing hwaits
  | initializer i hwaits =>
      exact .stay hok ⟨sound_instanceObj _ i, scopes, sites, hagrees, hwaits⟩

theorem proceed_advances (hok : (s.world h).Ok) {p : Pending}
    (hworks : (s.world h).Works s.current .done (p :: stack)) :
    Advances h s [] (proceed p stack s) := by
  obtain ⟨scopes, sites, hagrees, hwaits⟩ := hworks
  have hexec {st : Stmt} {rest : List Stmt} {setting : Setting} {stack : List Pending}
      (hvisited : (s.world h).Visited ⟨.stmts (st :: rest), setting, scopes, sites⟩)
      (hwaits : (s.world h).Visited ⟨.stmts rest, setting, st.after scopes, sites⟩ →
        (s.world h).Waits .finish s.current (st.after scopes) sites stack) :
      Advances h s [] ⟨.exec st, stack, s⟩ := by
    have hrest := hvisited.part (List.mem_cons_of_mem _ List.mem_cons_self)
    simp only [st.resolve_scopes _ _ (hok.visited hvisited).1.wellFormed.1,
      ScopeWalk.within_scopes] at hrest
    exact .stay hok
      ⟨setting, scopes, sites, hvisited.part List.mem_cons_self, hagrees, hwaits hrest⟩
  cases hwaits with
  | loopBody hloop hwaits =>
      exact .stay hok ⟨_, scopes, scopes, sites, hloop.part List.mem_cons_self, .inl rfl, hagrees,
        .loopTest hloop hwaits⟩
  | block hrest houter hwaits =>
      rename_i setting rest outer outerScopes outerSites
      cases rest with
      | nil => exact .of_world hok ⟨outerScopes, outerSites, houter, hwaits⟩ rfl rfl rfl
      | cons st rest => exact hexec hrest fun hrest => .block hrest houter hwaits
  | body hcallable hwaits => exact leave_advances hok hcallable (sound_nil _) hagrees hwaits
  | program hglobals hrest =>
      rename_i setting rest
      cases rest with
      | nil => exact .stay hok ⟨[], [], hagrees, .idle hglobals⟩
      | cons st rest =>
          refine hexec hrest fun hrest => ?_
          rw [Stmt.after_nil] at hrest ⊢
          exact .program hglobals hrest

theorem unwind_advances (hok : (s.world h).Ok) {v : Value} {p : Pending}
    (hworks : (s.world h).Works s.current (.returning v) (p :: stack)) :
    Advances h s [] (unwind v p stack s) := by
  obtain ⟨hv, scopes, sites, hagrees, hwaits⟩ := hworks
  cases hwaits with
  | loopBody hloop hwaits => exact .stay hok ⟨hv, scopes, sites, hagrees, hwaits⟩
  | block hrest houter hwaits => exact .of_world hok ⟨hv, _, _, houter, hwaits⟩ rfl rfl rfl
  | body hcallable hwaits => exact leave_advances hok hcallable hv hagrees hwaits
  | program hglobals hrest => exact .stay hok ⟨[], [], hagrees, .program hglobals hrest⟩

theorem abandon_advances (hok : (s.world h).Ok) {f : Fault} {p : Pending}
    (hworks : (s.world h).Works s.current (.failing f) (p :: stack)) :
    Advances h s [] (abandon f p stack s) := by
  obtain ⟨expects, scopes, sites, hwaits⟩ := hworks
  cases hwaits with
  | block hrest houter hwaits => exact .of_world hok ⟨_, _, _, hwaits⟩ rfl rfl rfl
  | body hcallable hwaits => exact .of_world hok ⟨_, _, _, hwaits⟩ rfl rfl rfl
  | program hglobals hrest => exact .stay hok ⟨_, [], [], .idle hglobals⟩
  | _ => exact .stay hok ⟨_, _, _, ‹World.Waits _ _ _ _ _ stack›⟩

/-- Every step keeps frames and scopes in agreement. -/
theorem step_advances {m : Machine} (hok : (m.session.world h).Ok)
    (hworks : (m.session.world h).Works m.session.current m.task m.stack) :
    Advances h m.session m.opens m.step := by
  obtain ⟨task, stack, s⟩ := m
  cases task with
  | eval e => exact evaluate_advances hok hworks
  | exec st => exact execute_advances hok hworks
  | call callee arguments paren => exact invoke_advances hok hworks
  | value v =>
      cases stack with
      | nil => exact .stay hok hworks
      | cons p stack => exact receive_advances hok hworks
  | done =>
      cases stack with
      | nil => exact .stay hok hworks
      | cons p stack => exact proceed_advances hok hworks
  | returning v =>
      cases stack with
      | nil => exact .stay hok hworks
      | cons p stack => exact unwind_advances hok hworks
  | failing f =>
      cases stack with
      | nil => exact .stay hok hworks
      | cons p stack => exact abandon_advances hok hworks

end

end Machine

end ScriptLang
