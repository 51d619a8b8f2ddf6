import ScriptLang.Proofs.Frames.Coherence

/-! Frames mirror scopes. Where an expression is evaluated, the frames from the current one out to
the global one are one for each scope that is open there, and a reference with a recorded hop count
finds its name that many frames out. -/

namespace ScriptLang

namespace World

variable {w : World} {f : FrameId} {scopes : List Scope} {sites : List Site}

/-- The chain of a frame ends at the global frame once the scopes are used up. -/
theorem Agrees.ancestor?_length (h : w.Agrees f scopes sites) :
    w.heap.ancestor? f scopes.length = some w.globals := by
  induction h with
  | globals => rfl
  | inside hlink _ _ _ ih =>
      rw [List.length_cons, Heap.ancestor?, hlink]
      exact ih

/-- The frame that stands for a scope is opened for it, and binds the names complete in it. -/
theorem Agrees.ancestor? (h : w.Agrees f scopes sites) {k : Nat} {scope : Scope}
    (hscope : scopes[k]? = some scope) :
    ∃ g opening, w.heap.ancestor? f k = some g ∧ w.openedFor g opening ∧
      sites[k]? = some opening.site ∧
      ∀ name, scope.get? name = some true → (w.heap.local? g name).isSome := by
  induction h generalizing k with
  | globals => simp at hscope
  | inside hlink hopened hbinds _ ih =>
      cases k with
      | zero =>
          obtain rfl := Option.some.inj hscope
          exact ⟨_, _, rfl, hopened, rfl, hbinds⟩
      | succ k =>
          obtain ⟨g, opening, hancestor, hg⟩ := ih hscope
          refine ⟨g, opening, ?_, hg⟩
          rw [Heap.ancestor?, hlink]
          exact hancestor

/-- No scope has the global frame. -/
theorem Agrees.ancestor?_ne_globals (hok : w.Ok) (h : w.Agrees f scopes sites) {k : Nat}
    (hk : k < scopes.length) : w.heap.ancestor? f k ≠ some w.globals := by
  obtain ⟨g, opening, hancestor, hopened, -⟩ := h.ancestor? (List.getElem?_eq_getElem hk)
  rw [hancestor]
  rintro ⟨⟩
  rw [openedFor, hok.globals] at hopened
  cases hopened

/-- The frame at a site was opened for it. -/
theorem Agrees.openedFor_site (h : w.Agrees f scopes sites) (hlength : scopes.length = sites.length)
    {k : Nat} {site : Site} (hsite : sites[k]? = some site) :
    ∃ g opening, w.heap.ancestor? f k = some g ∧ w.openedFor g opening ∧ opening.site = site := by
  obtain ⟨hk, -⟩ := List.getElem?_eq_some_iff.mp hsite
  obtain ⟨g, opening, hancestor, hopened, hsite', -⟩ :=
    h.ancestor? (List.getElem?_eq_getElem (hlength ▸ hk))
  exact ⟨g, opening, hancestor, hopened, Option.some.inj (hsite'.symm.trans hsite)⟩

theorem length_completeIn (name : String) (scopes : List Scope) :
    (completeIn name scopes).length = scopes.length := by
  cases scopes <;> rfl

theorem ReadsAlike.length_eq {e : Expr} {outer scopes : List Scope}
    (h : ReadsAlike e outer scopes) : scopes.length = outer.length := by
  rcases h with rfl | ⟨_, _, name, -, -, rfl⟩
  · rfl
  · exact length_completeIn name outer

/-- A name that is read is complete in the scopes that the frames agree with. -/
theorem ReadsAlike.complete {e : Expr} {outer scopes : List Scope} (h : ReadsAlike e outer scopes)
    {id : ExprId} {name : Token} (hread : e.read = some (id, name)) {d : Nat} {scope : Scope}
    (hscope : scopes[d]? = some scope) (hcomplete : scope.get? name.lexeme = some true) :
    ∃ scope, outer[d]? = some scope ∧ scope.get? name.lexeme = some true := by
  rcases h with rfl | ⟨other, parent, declared, rfl, hne, rfl⟩
  · exact ⟨scope, hscope, hcomplete⟩
  · obtain ⟨-, rfl⟩ : other = id ∧ parent = name := by simpa [Expr.read] using hread
    cases outer with
    | nil => simp [completeIn] at hscope
    | cons inner outer =>
        cases d with
        | succ d => exact ⟨scope, hscope, hcomplete⟩
        | zero =>
            obtain rfl : Bindings.insert inner declared true = scope := by
              simpa [completeIn] using hscope
            rw [Bindings.get?_insert, if_neg (Ne.symm hne)] at hcomplete
            exact ⟨inner, rfl, hcomplete⟩

end World

/-- Declaring a name does not hide another one. -/
theorem Point.Placed.settled {e : Expr} {setting : Setting} {scopes : List Scope}
    {sites : List Site} (h : Placed ⟨.expr e, setting, scopes, sites⟩) :
    ∃ kind settled, Settled kind settled sites ∧ scopes.length = sites.length ∧
      (kind = setting.cls ∨ ∃ id name, e = .variable id name) ∧
      ∀ word, word = "this" ∨ word = "super" →
        scopes.findIdx? (·.contains word) = settled.findIdx? (·.contains word) := by
  obtain ⟨kind, settled, hsettled, hkind, hscopes⟩ := h
  rcases hscopes with hscopes | ⟨declared, hplain, hscopes⟩
  · obtain rfl : scopes = settled := hscopes
    exact ⟨kind, scopes, hsettled, hsettled.length_eq, hkind, fun _ _ => rfl⟩
  · obtain rfl : scopes = declareIn declared.lexeme settled := hscopes
    refine ⟨kind, settled, hsettled, ?_, hkind, fun word hword => findIdx?_declareIn ?_ settled⟩
    · rw [← hsettled.length_eq]
      cases settled <;> rfl
    · rcases hword with rfl | rfl
      · exact Ne.symm hplain.1
      · exact Ne.symm hplain.2

namespace Moment

variable {h : History} {s : Session} {stack : List Pending}

/-- The hop count of a reference is where the scopes around it have its name. -/
theorem Coherent.hop?_eq {m : Machine} (hcoherent : Coherent ⟨h, m⟩) {program : Program}
    (hprogram : program ∈ h.programs) {e : Expr} {setting : Setting} {scopes : List Scope}
    {sites : List Site} (hvisits : Visits program ⟨.expr e, setting, scopes, sites⟩) {id : ExprId}
    {name : Token} (hreference : e.reference = some (id, name)) :
    m.session.hop? id = scopes.findIdx? (·.contains name.lexeme) := by
  have hroot := hcoherent.ok.accepted program hprogram
  have hrecorded := (hvisits.recorded hroot (hcoherent.recorded program hprogram)).2
  exact Point.recorded_reference (hvisits.placed hroot).1 hrecorded hreference

/-- The point at which an expression is evaluated, and the scopes that the frames agree with. -/
theorem Coherent.point {e : Expr} (hcoherent : Coherent ⟨h, ⟨.eval e, stack, s⟩⟩) :
    ∃ program ∈ h.programs, ∃ setting scopes outer sites,
      Visits program ⟨.expr e, setting, scopes, sites⟩ ∧
      Point.Accepted ⟨.expr e, setting, scopes, sites⟩ ∧
      Point.Placed ⟨.expr e, setting, scopes, sites⟩ ∧
      World.ReadsAlike e outer scopes ∧ (s.world h).Agrees s.current outer sites ∧
      ∀ id name, e.reference = some (id, name) →
        s.hop? id = scopes.findIdx? (·.contains name.lexeme) := by
  obtain ⟨setting, scopes, outer, sites, ⟨program, hprogram, hvisits⟩, hreads, hagrees, -⟩ :=
    hcoherent.works
  obtain ⟨haccepted, hplaced⟩ := hvisits.placed (hcoherent.ok.accepted program hprogram)
  exact ⟨program, hprogram, setting, scopes, outer, sites, hvisits, haccepted, hplaced, hreads,
    hagrees, fun id name hreference => hcoherent.hop?_eq hprogram hvisits hreference⟩

end Moment

section Read

variable {h : History} {s : Session} {e : Expr} {setting : Setting} {scopes outer : List Scope}
  {sites : List Site} (hplaced : Point.Placed ⟨.expr e, setting, scopes, sites⟩)
  (hreads : World.ReadsAlike e outer scopes) (hagrees : (s.world h).Agrees s.current outer sites)

include hplaced hreads hagrees

/-- The frame that the hop count of a name leads to. -/
theorem Session.binder_of_findIdx? (haccepted : Point.Accepted ⟨.expr e, setting, scopes, sites⟩)
    {id : ExprId} {name : Token} (hread : e.read = some (id, name)) {d : Nat}
    (hfound : scopes.findIdx? (·.contains name.lexeme) = some d) :
    ∃ g opening, s.heap.ancestor? s.current d = some g ∧ (s.world h).openedFor g opening ∧
      sites[d]? = some opening.site ∧ (s.heap.local? g name.lexeme).isSome := by
  obtain ⟨scope, hscope, hcomplete⟩ := Point.complete_of_read haccepted hplaced hread hfound
  obtain ⟨inner, hinner, hbound⟩ := hreads.complete hread hscope hcomplete
  obtain ⟨g, opening, hancestor, hopened, hsite, hbinds⟩ := hagrees.ancestor? hinner
  exact ⟨g, opening, hancestor, hopened, hsite, hbinds _ hbound⟩

end Read

section Words

variable {h : History} {s : Session} {setting : Setting} {scopes outer : List Scope}
  {sites : List Site} {id : ExprId} {keyword : Token}

/-- `this` leads to the frame that the method around it is bound in, right outside its body. -/
theorem Session.this_frame
    (haccepted : Point.Accepted ⟨.expr (.this id keyword), setting, scopes, sites⟩)
    (hplaced : Point.Placed ⟨.expr (.this id keyword), setting, scopes, sites⟩)
    (hreads : World.ReadsAlike (.this id keyword) outer scopes)
    (hagrees : (s.world h).Agrees s.current outer sites) :
    ∃ inner m i f g, scopes.findIdx? (·.contains "this") = some (inner + 1) ∧
      sites.findIdx? Site.isThis = some (inner + 1) ∧ sites[inner + 1]? = some (.this m) ∧
      s.heap.ancestor? s.current inner = some f ∧ (s.world h).openedFor f (.body m) ∧
      s.heap.ancestor? s.current (inner + 1) = some g ∧ (s.world h).openedFor g (.this m i) := by
  obtain ⟨kind, settled, hsettled, hlength, hkind, hword⟩ := hplaced.settled
  have hclass : kind ≠ .none := by
    rcases hkind with rfl | ⟨_, _, heq⟩
    · exact Point.accepted_this haccepted
    · cases heq
  obtain ⟨inner, m, hfound, hsite, hbody, hthis⟩ := hsettled.findIdx?_this hclass
  rw [← hword "this" (.inl rfl)] at hfound
  have hlength' := hreads.length_eq.symm.trans hlength
  obtain ⟨f, opening, hf, hopened, hopening⟩ := hagrees.openedFor_site hlength' hbody
  obtain ⟨g, opening', hg, hopened', hopening'⟩ := hagrees.openedFor_site hlength' hthis
  cases opening <;> cases hopening
  cases opening' <;> cases hopening'
  exact ⟨inner, m, _, f, g, hfound, hsite, hthis, hf, hopened, hg, hopened'⟩

/-- `super` leads to the frame of the class around it, right outside that of `this`. -/
theorem Session.super_frame {method : Token}
    (haccepted : Point.Accepted ⟨.expr (.super id keyword method), setting, scopes, sites⟩)
    (hplaced : Point.Placed ⟨.expr (.super id keyword method), setting, scopes, sites⟩)
    (hreads : World.ReadsAlike (.super id keyword method) outer scopes)
    (hagrees : (s.world h).Agrees s.current outer sites) :
    ∃ inner m i name methods c f g, scopes.findIdx? (·.contains "super") = some (inner + 1) ∧
      sites.findIdx? Site.isThis = some inner ∧ sites[inner]? = some (.this m) ∧
      sites[inner + 1]? = some (.super name methods) ∧
      s.heap.ancestor? s.current inner = some f ∧ (s.world h).openedFor f (.this m i) ∧
      s.heap.ancestor? s.current (inner + 1) = some g ∧
      (s.world h).openedFor g (.super name methods c) := by
  obtain ⟨kind, settled, hsettled, hlength, hkind, hword⟩ := hplaced.settled
  have hclass : kind = .derived := by
    rcases hkind with rfl | ⟨_, _, heq⟩
    · exact Point.accepted_super haccepted
    · cases heq
  obtain ⟨inner, m, name, methods, hfound, hsite, hthis, hsuper⟩ :=
    (hclass ▸ hsettled).findIdx?_super
  rw [← hword "super" (.inr rfl)] at hfound
  have hlength' := hreads.length_eq.symm.trans hlength
  obtain ⟨f, opening, hf, hopened, hopening⟩ := hagrees.openedFor_site hlength' hthis
  obtain ⟨g, opening', hg, hopened', hopening'⟩ := hagrees.openedFor_site hlength' hsuper
  cases opening <;> cases hopening
  cases opening' <;> cases hopening'
  exact ⟨inner, m, _, name, methods, _, f, g, hfound, hsite, hthis, hsuper, hf, hopened, hg,
    hopened'⟩

end Words

/-- What `super` gives where the frames of the method and its class stand side by side. -/
theorem Session.superMethod_eq {h : History} {s : Session} (hok : (s.world h).Ok) {id : ExprId}
    {keyword : Token} (hkeyword : keyword.lexeme = "super") (method : Token) {inner : Nat}
    (hhop : s.hop? id = some (inner + 1)) {m : FunctionDecl} {i : InstanceId} {name : Token}
    {methods : List FunctionDecl} {c : ClassId} {f g : FrameId}
    (hf : s.heap.ancestor? s.current inner = some f) (hthis : (s.world h).openedFor f (.this m i))
    (hg : s.heap.ancestor? s.current (inner + 1) = some g)
    (hsuper : (s.world h).openedFor g (.super name methods c)) :
    s.superMethod id keyword method = match s.heap.method? c method.lexeme with
      | some f => .ok (.method f i)
      | none => .error (.raised method (.undefinedProperty method.lexeme)) := by
  have hclass : s.heap.local? g "super" = some (.classObj c) := hok.holds _ _ hsuper
  have hinstance : s.heap.local? f "this" = some (.instanceObj i) := hok.holds _ _ hthis
  cases hmethod : s.heap.method? c method.lexeme with
  | some | none =>
      simp [superMethod, hhop, Heap.getAt?, hg, hf, hkeyword, thisToken, hclass, hinstance, hmethod]

/-- Where its frame binds the name, a reference is no undefined variable. -/
theorem Machine.evaluate_ne_undefined {h : History} {s : Session} (hok : (s.world h).Ok) {e : Expr}
    {setting : Setting} {scopes outer : List Scope} {sites : List Site}
    (haccepted : Point.Accepted ⟨.expr e, setting, scopes, sites⟩)
    (hplaced : Point.Placed ⟨.expr e, setting, scopes, sites⟩)
    (hreads : World.ReadsAlike e outer scopes) (hagrees : (s.world h).Agrees s.current outer sites)
    {id : ExprId} {name : Token} (hread : e.read = some (id, name)) {d : Nat}
    (hhop : s.hop? id = some d) (hfound : scopes.findIdx? (·.contains name.lexeme) = some d)
    (stack : List Pending) (token : Token) (x : String) :
    (evaluate e stack s).task ≠ .failing (.raised token (.undefinedVariable x)) := by
  obtain ⟨g, opening, hancestor, -, -, hbound⟩ :=
    Session.binder_of_findIdx? hplaced hreads hagrees haccepted hread hfound
  obtain ⟨v, hv⟩ := Option.isSome_iff_exists.mp hbound
  have hvalue : s.read? id name.lexeme = some v := by
    simp only [Session.read?, hhop, Heap.getAt?, hancestor, Option.bind_some, hv]
  cases e with
  | «variable» | this =>
      obtain ⟨rfl, rfl⟩ : _ = id ∧ _ = name := by simpa [Expr.read] using hread
      simp [evaluate, readName, hvalue]
  | super _ keyword method =>
      obtain ⟨rfl, rfl⟩ : _ = id ∧ keyword = name := by simpa [Expr.read] using hread
      have hkeyword : keyword.lexeme = "super" := haccepted.wellFormed
      obtain ⟨inner, m, i, cls, methods, c, f, g, hfound', -, -, -, hf, hthis, hg, hsuper⟩ :=
        Session.super_frame haccepted hplaced hreads hagrees
      rw [hkeyword, hfound'] at hfound
      obtain rfl := Option.some.inj hfound
      rw [evaluate, Session.superMethod_eq hok hkeyword method hhop hf hthis hg hsuper]
      cases s.heap.method? c method.lexeme with
      | some => simp [found]
      | none => simp [found]
  | _ => cases hread

/-- The expression that a task is to evaluate. -/
def Task.expr? : Task → Option Expr
  | .eval e => some e
  | _ => none

theorem Task.eq_eval {task : Task} {e : Expr} (h : task.expr? = some e) : task = .eval e := by
  cases task <;> cases h
  rfl

/-- At every moment of every run at which an expression is evaluated, the frames from the current
one out to the global one are one for each scope that is open there. The hop count of a name that is
read is where the scopes have the name, and the frame that many links out is the one opened for that
scope; it binds the name, so that reading it does not fail. -/
theorem frames_mirror_scopes {sources : List Source} {h : History} {s s' : Session}
    (hran : s.Ran sources h) {source : Source} {program : Program}
    (hprepare : s.prepare source = (.ok program, s')) (n : Nat) {e : Expr}
    (htask : (Machine.run n (.ofProgram program s')).task = .eval e) :
    let m := Machine.run n (.ofProgram program s')
    let history := (h.accept program).run n (.ofProgram program s')
    ∃ accepted ∈ history.programs, ∃ setting scopes sites,
      Visits accepted ⟨.expr e, setting, scopes, sites⟩ ∧
      m.session.heap.ancestor? m.session.current scopes.length = some m.session.globals ∧
      (∀ k < scopes.length,
        m.session.heap.ancestor? m.session.current k ≠ some m.session.globals) ∧
      ∀ id name, e.read = some (id, name) →
        m.session.hop? id = scopes.findIdx? (·.contains name.lexeme) ∧
        ∀ d, m.session.hop? id = some d →
          (∃ frame opening, m.session.heap.ancestor? m.session.current d = some frame ∧
            history.openings[frame]? = some (some opening) ∧ sites[d]? = some opening.site ∧
            (m.session.heap.local? frame name.lexeme).isSome) ∧
          ∀ token x, m.step.task ≠ .failing (.raised token (.undefinedVariable x)) := by
  intro m history
  have hcoherent : Moment.Coherent ⟨history, m⟩ := (Moment.reached_run hran hprepare n).coherent
  replace htask : m.task = .eval e := htask
  clear_value m history
  obtain ⟨task, stack, session⟩ := m
  obtain rfl : task = .eval e := htask
  obtain ⟨accepted, hmem, setting, scopes, outer, sites, hvisits, haccepted, hplaced, hreads,
    hagrees, hhops⟩ := hcoherent.point
  refine ⟨accepted, hmem, setting, scopes, sites, hvisits, ?_, ?_, ?_⟩
  · rw [hreads.length_eq]
    exact hagrees.ancestor?_length
  · rw [hreads.length_eq]
    exact fun k => hagrees.ancestor?_ne_globals hcoherent.ok
  · intro id name hread
    have heq := hhops id name (Expr.reference_of_read hread)
    refine ⟨heq, fun d hhop => ?_⟩
    have hfound := heq.symm.trans hhop
    exact ⟨Session.binder_of_findIdx? hplaced hreads hagrees haccepted hread hfound,
      Machine.evaluate_ne_undefined hcoherent.ok haccepted hplaced hreads hagrees hread hhop hfound
        stack⟩

/-- In `class A{m(){}}class B<A{m(){super.m();}}B().m();` the superclass is found two frames out of
the body of the method that asks for it. -/
theorem frames_mirror_scopes_super :
    let source : Source :=
      "class A\x7bm()\x7b\x7d\x7dclass B<A\x7bm()\x7bsuper.m();\x7d\x7dB().m();".toUTF8.toList
    ∃ program s' e id name,
      (Session.new .unlimited fun _ => 0).prepare source = (.ok program, s') ∧
      let m := Machine.run 20 (.ofProgram program s')
      m.task = .eval e ∧ e.read = some (id, name) ∧ name.lexeme = "super" ∧
      m.session.hop? id = some 2 ∧
      (∃ frame, m.session.heap.ancestor? m.session.current 2 = some frame ∧
        (m.session.heap.local? frame name.lexeme).isSome) ∧
      ∀ token x, m.step.task ≠ .failing (.raised token (.undefinedVariable x)) := by
  intro source
  obtain ⟨program, s', hprepare, hcheck⟩ := Session.exists_of_prepare
    (.new .unlimited fun _ => 0) source
    (fun program s' =>
      let m := Machine.run 20 (.ofProgram program s')
      (m.task.expr?.bind Expr.read).any fun read =>
        read.2.lexeme == "super" && m.session.hop? read.1 == some 2) (by decide +kernel)
  obtain ⟨⟨id, name⟩, hread, hname⟩ := (Option.any_eq_true _ _).mp hcheck
  obtain ⟨e, htask, hread⟩ := Option.bind_eq_some_iff.mp hread
  obtain ⟨hsuper, hhop⟩ := (Bool.and_eq_true _ _).mp hname
  replace htask := Task.eq_eval htask
  obtain ⟨accepted, -, setting, scopes, sites, -, -, -, hreads⟩ :=
    frames_mirror_scopes (.new .unlimited fun _ => 0) hprepare 20 htask
  obtain ⟨⟨frame, opening, hframe, -, -, hbound⟩, hstep⟩ :=
    (hreads id name hread).2 2 (beq_iff_eq.mp hhop)
  exact ⟨program, s', e, id, name, hprepare, htask, hread, beq_iff_eq.mp hsuper,
    beq_iff_eq.mp hhop, ⟨frame, hframe, hbound⟩, hstep⟩

end ScriptLang
