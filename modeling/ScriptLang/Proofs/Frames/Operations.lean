import ScriptLang.Proofs.Frames.World

/-! What binding a method, calling a function and declaring a class do to a world. -/

namespace ScriptLang

/-- The world of a session. -/
def Session.world (h : History) (s : Session) : World := ⟨h, s.heap, s.globals⟩

namespace World

variable {w : World}

/-! ### Methods -/

theorem Ok.unbound_of_methodWithin (h : w.Ok) {name : String} {n : Nat} {c : ClassId}
    {id : FunctionId} (hfound : w.heap.methodWithin name n c = some id) :
    ∃ f, w.heap.functions[id]? = some f ∧ w.Unbound f := by
  induction n generalizing c with
  | zero => simp [Heap.methodWithin] at hfound
  | succ n ih =>
      unfold Heap.methodWithin at hfound
      split at hfound
      · cases hfound
      · rename_i cls hcls
        split at hfound
        · rename_i hget
          obtain rfl := Option.some.inj hfound
          exact h.methods c cls name _ hcls hget
        · split at hfound
          · exact ih hfound
          · cases hfound

theorem Ok.unbound_of_method? (h : w.Ok) {c : ClassId} {name : String} {f : Function}
    (hfound : w.heap.method? c name = some f) : w.Unbound f := by
  obtain ⟨id, hid, hf⟩ := Option.bind_eq_some_iff.mp hfound
  obtain ⟨g, hg, hunbound⟩ := h.unbound_of_methodWithin hid
  obtain rfl : g = f := Option.some.inj (hg.symm.trans hf)
  exact hunbound

/-- A method bound to an instance may be called. -/
theorem Ok.bindMethod (h : w.Ok) {f : Function} (hf : w.Unbound f) (i : InstanceId) :
    let w' := w.openedWith f.closure (.this f.decl i) "this" (.instanceObj i)
    w.Grows w' ∧ w'.Ok ∧ w'.Callable { f with closure := w.heap.frames.size } := by
  intro w'
  obtain ⟨setting, scopes, sites, hvisited, hagrees⟩ := hf
  have hgrows : w.Grows w' := h.grows_openedWith _
  have hok : w'.Ok := h.openedWith (sound_instanceObj w i)
    (by simp only [Holds, local?_openedWith, and_self, if_true])
  refine ⟨hgrows, hok, ⟨setting, _, _, hvisited.mono hgrows, hagrees.openedWith h⟩, fun _ => ?_⟩
  exact ⟨i, h.openedFor_opened f.closure⟩

/-! ### Parameters -/

theorem not_isWord_of_isPlain {t : Token} (h : t.IsPlain) : ¬ Heap.IsWord t.lexeme := by
  rintro (hword | hword)
  · exact h.1 hword
  · exact h.2 hword

/-- Binding a name in a frame completes its declaration. -/
theorem Ok.defineName (h : w.Ok) {f : FrameId} {scopes : List Scope} {sites : List Site}
    (hagrees : w.Agrees f scopes sites) {name : Token} (hname : name.IsPlain) {v : Value}
    (hv : ∀ {w'}, w.Grows w' → w'.Agrees f (completeIn name.lexeme scopes) sites → w'.Sound v) :
    let w' := { w with heap := w.heap.define f name.lexeme v }
    w.Grows w' ∧ w'.Ok ∧ w'.Agrees f (completeIn name.lexeme scopes) sites := by
  have hlt := h.lt_size hagrees
  obtain ⟨hle, hok⟩ := h.define hlt (fun hword => absurd hword (not_isWord_of_isPlain hname))
    (fun hle hbound => hv hle ((hagrees.mono hle).completeIn hbound))
  refine ⟨hle, hok, (hagrees.mono hle).completeIn ?_⟩
  rw [Heap.local?_define _ hlt, if_pos ⟨rfl, rfl⟩]
  rfl

/-- Binding the parameters of a function to its arguments, one after another. -/
theorem Ok.defineParams (h : w.Ok) {f : FrameId} {scopes : List Scope} {sites : List Site}
    (hagrees : w.Agrees f scopes sites) {params : List Token} {arguments : List Value}
    (hlength : arguments.length = params.length) (hplain : ∀ p ∈ params, p.IsPlain)
    (hsound : ∀ v ∈ arguments, w.Sound v) :
    let w' := { w with
      heap := ((params.zip arguments).foldl (fun heap (p, v) => heap.define f p.lexeme v) w.heap) }
    w.Grows w' ∧ w'.Ok ∧
      w'.Agrees f (params.foldl (fun scopes p => completeIn p.lexeme scopes) scopes) sites := by
  induction params generalizing w arguments scopes with
  | nil => exact ⟨.refl w, h, hagrees⟩
  | cons p params ih =>
      cases arguments with
      | nil => simp at hlength
      | cons v arguments =>
          obtain ⟨hle, hok, hdefined⟩ :=
            h.defineName hagrees (hplain p (by simp)) fun hle _ => (hsound v (by simp)).mono hle
          obtain ⟨hle', hok', hagrees'⟩ := ih hok hdefined (by simpa using hlength)
            (fun q hq => hplain q (by simp [hq])) (fun u hu => (hsound u (by simp [hu])).mono hle)
          exact ⟨hle.trans hle', hok', hagrees'⟩

/-- The frame of a call agrees with the scopes around the body of the function. -/
theorem Ok.enterFunction (h : w.Ok) {f : Function} (hf : w.Callable f) {arguments : List Value}
    (hlength : arguments.length = f.decl.arity) (hsound : ∀ v ∈ arguments, w.Sound v) :
    let opened := w.opened f.closure (.body f.decl)
    let w' := { opened with
      heap := (f.decl.params.zip arguments).foldl
        (fun heap (p, v) => heap.define w.heap.frames.size p.lexeme v) opened.heap }
    w.Grows w' ∧ w'.Ok ∧ ∃ setting scopes sites,
      w'.Visited ⟨.stmts f.decl.body, setting, scopes, sites⟩ ∧
      w'.Agrees w.heap.frames.size scopes sites := by
  obtain ⟨⟨name, params, body⟩, closure, isInitializer⟩ := f
  obtain ⟨setting, scopes, sites, hvisited, hcloses⟩ := hf.closes
  have hwf : FunctionDecl.WellFormed (.mk name params body) := (h.visited hvisited).1.wellFormed
  have hbody := hvisited.part (List.mem_singleton.mpr rfl)
  simp only [ScopeWalk.foldl_declareComplete_scopes, ScopeWalk.openScope_scopes,
    ScopeWalk.within_scopes] at hbody
  have hgrows := h.grows_opened closure (.body (.mk name params body))
  have hok := h.opened closure (.body (.mk name params body)) fun _ _ => trivial
  obtain ⟨hle, hok', hagrees⟩ := hok.defineParams (hcloses.opened h) hlength hwf.1
    fun v hv => (hsound v hv).mono hgrows
  exact ⟨hgrows.trans hle, hok', setting, _, _, hbody.mono (hgrows.trans hle), hagrees⟩

/-! ### Classes -/

/-- Making a class of methods that are not bound yet, and binding its name. -/
theorem Ok.makeClass (h : w.Ok) {f closure : FrameId} {scopes : List Scope} {sites : List Site}
    (hagrees : w.Agrees f scopes sites) {name : Token} (hname : name.IsPlain)
    (superclass : Option ClassId) {methods : List FunctionDecl}
    (hmethods : ∀ d ∈ methods, w.Unbound ⟨d, closure, d.isInit⟩) :
    let made := w.heap.newMethods closure methods .empty
    let cls := made.1.newClass ⟨name.lexeme, superclass, made.2⟩
    let w' := { w with heap := cls.1.define f name.lexeme (.classObj cls.2) }
    w.Grows w' ∧ w'.Ok := by
  intro made cls w'
  obtain ⟨hle, hok, hunbound⟩ := h.newMethods .empty hmethods (by simp)
  obtain ⟨hle', hok'⟩ := hok.newClass ⟨name.lexeme, superclass, made.2⟩ hunbound
  obtain ⟨hle'', hok'', -⟩ := hok'.defineName ((hagrees.mono hle).mono hle') hname
    fun _ _ => sound_classObj _ cls.2
  exact ⟨(hle.trans hle').trans hle'', hok''⟩

/-- A frame that holds the superclass of a class. -/
theorem Ok.openSuper (h : w.Ok) {outer : FrameId} {scopes : List Scope} {sites : List Site}
    (hagrees : w.Agrees outer scopes sites) (name : Token) (methods : List FunctionDecl)
    (c : ClassId) :
    let w' := w.openedWith outer (.super name methods c) "super" (.classObj c)
    w.Grows w' ∧ w'.Ok ∧ w'.Agrees w.heap.frames.size (wordScope "super" :: scopes)
      (.super name methods :: sites) :=
  ⟨h.grows_openedWith outer, h.openedWith (sound_classObj w c)
    (by simp only [Holds, local?_openedWith, and_self, if_true]), hagrees.openedWith h⟩

end World

namespace Session

open World

variable {h : History} {s : Session} {scopes : List Scope} {sites : List Site} {setting : Setting}
  {name : Token} {methods : List FunctionDecl}

/-- Declaring a class without a superclass. -/
theorem declareClass_base (hok : (s.world h).Ok)
    (hagrees : (s.world h).Agrees s.current scopes sites)
    (hvisited :
      (s.world h).Visited ⟨.stmt (.classDecl name none methods), setting, scopes, sites⟩) :
    let s' := s.declareClass name.lexeme none methods
    (s.world h).Grows (s'.world h) ∧ (s'.world h).Ok ∧
      (s'.world h).Agrees s.current (completeIn name.lexeme scopes) sites := by
  intro s'
  have hname : name.IsPlain := (hok.visited hvisited).1.wellFormed.1
  have hmethod : ∀ d ∈ methods, (s.world h).Visited ⟨.decl d, ⟨.ofMethod d, .base⟩,
      wordScope "this" :: completeIn name.lexeme scopes, .this d :: sites⟩ := by
    intro d hd
    have hpart := hvisited.part (List.mem_map.mpr ⟨d, hd, rfl⟩)
    simp only [Point.method, ScopeWalk.define_scopes, ScopeWalk.openScope_scopes,
      ScopeWalk.declareComplete_scopes, ScopeWalk.within_scopes] at hpart
    exact hpart
  obtain ⟨hle, hok₁, hagrees₁⟩ := hok.defineName hagrees hname fun _ _ => sound_nil _
  obtain ⟨hle₂, hok₂⟩ := hok₁.makeClass hagrees₁ hname none
    fun d hd => ⟨_, _, _, (hmethod d hd).mono hle, hagrees₁⟩
  exact ⟨hle.trans hle₂, hok₂, hagrees₁.mono hle₂⟩

/-- Declaring a class with a superclass opens a frame that holds it. -/
theorem declareClass_derived (hok : (s.world h).Ok)
    (hagrees : (s.world h).Agrees s.current scopes sites) {superclass : Expr}
    (hvisited : (s.world h).Visited
      ⟨.stmt (.classDecl name (some superclass) methods), setting, scopes, sites⟩) (c : ClassId) :
    let s' := s.declareClass name.lexeme (some c) methods
    let h' := h.extend [.super name methods c]
    (s.world h).Grows (s'.world h') ∧ (s'.world h').Ok ∧
      (s'.world h').Agrees s.current (completeIn name.lexeme scopes) sites := by
  intro s' h'
  have hname : name.IsPlain := (hok.visited hvisited).1.wellFormed.1
  have hmethod : ∀ d ∈ methods, (s.world h).Visited ⟨.decl d, ⟨.ofMethod d, .derived⟩,
      wordScope "this" :: wordScope "super" :: completeIn name.lexeme scopes,
      .this d :: .super name methods :: sites⟩ := by
    intro d hd
    have hpart := hvisited.part (List.mem_cons_of_mem _ (List.mem_map.mpr ⟨d, hd, rfl⟩))
    simp only [Point.method, ScopeWalk.define_scopes, ScopeWalk.openScope_scopes,
      ScopeWalk.declareComplete_scopes, ScopeWalk.within_scopes] at hpart
    exact hpart
  obtain ⟨hle, hok₁, hagrees₁⟩ := hok.defineName hagrees hname fun _ _ => sound_nil _
  obtain ⟨hle₂, hok₂, hinner⟩ := hok₁.openSuper hagrees₁ name methods c
  obtain ⟨hle₃, hok₃⟩ := hok₂.makeClass (hagrees₁.mono hle₂) hname (some c)
    fun d hd => ⟨_, _, _, ((hmethod d hd).mono hle).mono hle₂, hinner⟩
  exact ⟨(hle.trans hle₂).trans hle₃, hok₃, (hagrees₁.mono hle₂).mono hle₃⟩

end Session

end ScriptLang
