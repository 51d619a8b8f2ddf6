import ScriptLang.Proofs.Matching.Heaps

/-! Sessions that match. What is done to both keeps them so. -/

namespace ScriptLang

structure Session.Matches (μ : Matching) (L : Layout) (s s' : Session) : Prop where
  heap : s.heap.Matches μ L s'.heap
  globals : s'.globals = s.globals
  global : L.place s.globals none
  current : s'.current = s.current
  depth : s'.depth = s.depth
  sink : s'.sink = s.sink
  clock : s'.clock = s.clock
  hops {id id' : ExprId} {hop : Option Nat} : μ.ref id id' hop →
    s.hop? id = hop ∧ s'.hop? id' = hop

namespace Session

/-- What looking for a property gives where sessions match. -/
inductive FoundMatches (μ : Matching) (L : Layout) :
    Except Fault Property → Except Fault Property → Prop where
  | value {v : Value} : v.Proper L → FoundMatches μ L (.ok (.value v)) (.ok (.value v))
  | method {f f' : Function} (i : InstanceId) : f.Awaits μ L f' →
      FoundMatches μ L (.ok (.method f i)) (.ok (.method f' i))
  | fault (f : Fault) : FoundMatches μ L (.error f) (.error f)

end Session

namespace Session.Matches

variable {μ : Matching} {L : Layout} {s s' : Session} (hs : s.Matches μ L s')
include hs

theorem withHeap {L' : Layout} (hL : L'.Extends L) {h h' : Heap} (hh : h.Matches μ L' h') :
    { s with heap := h }.Matches μ L' { s' with heap := h' } :=
  { hs with heap := hh, global := hL.place hs.global }

theorem withCurrent (f : FrameId) :
    { s with current := f }.Matches μ L { s' with current := f } :=
  { hs with current := rfl }

theorem mapDepth (g : Nat → Nat) :
    { s with depth := g s.depth }.Matches μ L { s' with depth := g s'.depth } :=
  { hs with depth := congrArg g hs.depth }

/-! ### Names -/

theorem read? {k : Place} (hk : L.place s.current k) {id id' : ExprId} {hop : Option Nat}
    (hid : μ.ref id id' hop) {t t' : Token} (ht : μ.Names (k.At hop) t t') :
    s'.read? id' t'.lexeme = s.read? id t.lexeme ∧
      ∀ v, s.read? id t.lexeme = some v → v.Proper L := by
  obtain ⟨hhop, hhop'⟩ := hs.hops hid
  simp only [Session.read?, hhop, hhop', hs.current, hs.globals]
  cases hop with
  | some d => exact hs.heap.getAt? hk ht
  | none =>
      rw [ht.eq_of_not_here (Place.not_at_none k)]
      exact hs.heap.get? hs.global t.lexeme

theorem binder? {k : Place} (hk : L.place s.current k) {id id' : ExprId} {hop : Option Nat}
    (hid : μ.ref id id' hop) {t t' : Token} (ht : μ.Names (k.At hop) t t') :
    s'.binder? id' t'.lexeme = s.binder? id t.lexeme ∧
      ∀ g, s.binder? id t.lexeme = some g →
        ∃ j : Place, L.place g j ∧ t'.lexeme = μ.nameIn j t.lexeme := by
  obtain ⟨hhop, hhop'⟩ := hs.hops hid
  simp only [Session.binder?, hhop, hhop', hs.current, hs.globals]
  cases hop with
  | some d => exact hs.heap.binderAt? hk ht
  | none =>
      rw [ht.eq_of_not_here (Place.not_at_none k)]
      obtain ⟨hsame, hplace⟩ := hs.heap.binder? hs.global t.lexeme
      exact ⟨hsame, fun g hg => ⟨none, hplace g hg, rfl⟩⟩

theorem define {k : Place} (hk : L.place s.current k) {t t' : Token}
    (ht : μ.Names (k = some 0) t t') {v : Value} (hv : v.Proper L) :
    (s.define t.lexeme v).Matches μ L (s'.define t'.lexeme v) := by
  refine hs.withHeap (.refl L) ?_
  rw [hs.current, ht.lexeme Iff.rfl]
  exact hs.heap.define hk t.lexeme hv

/-- The parameters of a function are given their values. -/
theorem defineEach {k : Place} {ps ps' : List Token}
    (hps : List.Forall₂ (μ.Names (k = some 0)) ps ps') {vs : List Value}
    (hvs : ∀ v ∈ vs, v.Proper L) (hk : L.place s.current k) :
    let define := fun (s : Session) (p : Token × Value) => s.define p.1.lexeme p.2
    let bound := (ps.zip vs).foldl define s
    bound.Matches μ L ((ps'.zip vs).foldl define s') ∧ bound.current = s.current := by
  intro define
  induction hps generalizing vs s s' with
  | nil => exact ⟨hs, rfl⟩
  | cons hp _ ih =>
      cases vs with
      | nil => exact ⟨hs, rfl⟩
      | cons v vs =>
          have hdefine := hs.define hk hp (hvs v List.mem_cons_self)
          exact ih hdefine (fun u hu => hvs u (List.mem_cons_of_mem v hu)) hk

/-! ### Frames, functions and classes -/

theorem enterFrame {outer : FrameId} {j k : Place} (houter : L.place outer j) (hopens : j.Opens k) :
    ∃ L' : Layout, L'.Extends L ∧ L'.place (s.enterFrame outer).current k ∧
      (s.enterFrame outer).Matches μ L' (s'.enterFrame outer) := by
  obtain ⟨L', hL, hk, hheap⟩ := hs.heap.newFrame houter hopens
  exact ⟨L', hL, hk,
    { hs.withHeap hL hheap with current := hs.heap.frames_size }⟩

theorem newFunction {f f' : Function} (hf : f.Matches μ L f') :
    ∃ L' : Layout, L'.Extends L ∧ (s.newFunction f).2.Proper L' ∧
      (s'.newFunction f').2 = (s.newFunction f).2 ∧
      (s.newFunction f).1.Matches μ L' (s'.newFunction f').1 := by
  obtain ⟨L', hL, hbound, hheap⟩ := hs.heap.newFunction hf
  refine ⟨L', hL, ?_, congrArg Value.function hs.heap.functions_size, hs.withHeap hL hheap⟩
  rintro _ ⟨⟩
  exact hbound

theorem bindMethod {f f' : Function} (hf : f.Awaits μ L f') (i : InstanceId) :
    ∃ L' : Layout, L'.Extends L ∧ (s.bindMethod f i).2.Proper L' ∧
      (s'.bindMethod f' i).2 = (s.bindMethod f i).2 ∧
      (s.bindMethod f i).1.Matches μ L' (s'.bindMethod f' i).1 := by
  obtain ⟨L₁, hL₁, hheap, hbound⟩ := hs.heap.bindMethod hf i
  obtain ⟨L₂, hL₂, hnew⟩ := (hs.withHeap hL₁ hheap).newFunction hbound
  exact ⟨L₂, hL₂.trans hL₁, hnew⟩

theorem property (object : Value) (t : Token) :
    FoundMatches μ L (s.property object t) (s'.property object t) := by
  cases object with
  | instanceObj i =>
      simp only [Session.property, hs.heap.field?, hs.heap.instances]
      cases hfield : s.heap.field? i t.lexeme with
      | some v => exact .value (hs.heap.field hfield)
      | none =>
          cases s.heap.instances[i]? with
          | none => exact .fault _
          | some inst =>
              have hmethod := hs.heap.method? inst.cls t.lexeme
              simp only [Option.bind_some]
              generalize s.heap.method? inst.cls t.lexeme = f at hmethod ⊢
              generalize s'.heap.method? inst.cls t.lexeme = f' at hmethod ⊢
              cases hmethod with
              | none => exact .fault _
              | some hf => exact .method i hf
  | _ => exact .fault _

theorem superMethod {k : Place} (hk : L.place s.current k) {id id' : ExprId} {hop : Option Nat}
    (hid : μ.ref id id' hop) {t : Token} (ht : μ.Fixes t.lexeme) (u : Token) :
    FoundMatches μ L (s.superMethod id t u) (s'.superMethod id' t u) := by
  obtain ⟨hhop, hhop'⟩ := hs.hops hid
  simp only [Session.superMethod, hhop, hhop', hs.current]
  cases hop with
  | none => exact .fault _
  | some distance =>
      simp only [hs.heap.getAt?_fixed hk _ ht]
      cases s.heap.getAt? s.current distance t.lexeme with
      | none => exact .fault _
      | some v =>
          cases v with
          | classObj c =>
              cases distance with
              | zero => exact .fault _
              | succ inner =>
                  have hthis : μ.Fixes thisToken.lexeme := Matching.fixes_this
                  simp only [hs.heap.getAt?_fixed hk _ hthis]
                  cases s.heap.getAt? s.current inner thisToken.lexeme with
                  | none => exact .fault _
                  | some this =>
                      cases this with
                      | instanceObj i =>
                          have hmethod := hs.heap.method? c u.lexeme
                          dsimp only
                          generalize s.heap.method? c u.lexeme = f at hmethod ⊢
                          generalize s'.heap.method? c u.lexeme = f' at hmethod ⊢
                          cases hmethod with
                          | none => exact .fault _
                          | some hf => exact .method i hf
                      | _ => exact .fault _
          | _ => exact .fault _

theorem declareClass {k : Place} (hk : L.place s.current k) {name : String}
    (hname : k = some 0 → μ.Fixes name) (superclass : Option ClassId)
    {ds ds' : List FunctionDecl}
    (hds : FunctionDecl.MatchesEach μ (if superclass.isSome then k.inner else k).inner ds ds') :
    ∃ L' : Layout, L'.Extends L ∧
      (s.declareClass name superclass ds).Matches μ L' (s'.declareClass name superclass ds') := by
  have hnil := hs.heap.define hk name (v := .nil) nofun
  rw [Matching.nameIn_eq hname] at hnil
  cases superclass with
  | none =>
      refine ⟨L, .refl L, hs.withHeap (.refl L) ?_⟩
      rw [hs.current]
      exact hnil.makeClass hk hk hname none hds
  | some c =>
      obtain ⟨L', hL, hframe, hheap⟩ := hnil.newFrame hk (.plain k)
      have hsuper := hheap.define hframe "super" (v := .classObj c) nofun
      rw [Matching.fixes_super.nameIn_eq] at hsuper
      have hmade := hsuper.makeClass (hL.place hk) hframe hname (some c) hds
      refine ⟨L', hL, hs.withHeap hL ?_⟩
      rw [hs.current]
      simp only [hnil.frames_size]
      exact hmade

/-! ### Output -/

theorem print {v : Value} (hv : v.Proper L) :
    (s.print v).1.Matches μ L (s'.print v).1 ∧ (s'.print v).2 = (s.print v).2 := by
  simp only [Session.print, hs.heap.display hv, hs.sink]
  exact ⟨{ hs with sink := rfl }, trivial⟩

theorem readClock :
    s.readClock.1.Matches μ L s'.readClock.1 ∧ s'.readClock.2 = s.readClock.2 := by
  simp only [Session.readClock, hs.clock]
  exact ⟨{ hs with clock := rfl }, trivial⟩

end Session.Matches

end ScriptLang
