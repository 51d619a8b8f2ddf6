import ScriptLang.Proofs.Matching.Runs
import ScriptLang.Proofs.Renaming.HopCounts
import ScriptLang.Proofs.Renaming.Words

/-! Local names can be chosen freely: a script in which a variable or parameter is called otherwise
is accepted with the same hop counts and runs in the same way. -/

namespace ScriptLang

/-! ### Plain names -/

theorem Piece.IsWord.plain {name : String} {p : Piece} (h : p.IsWord name) :
    name ≠ "this" ∧ name ≠ "super" := by
  obtain ⟨hwritten, hshape, htext⟩ := h
  obtain ⟨b, more, hbytes, hb, hmore⟩ := hwritten.identifier_bytes hshape
  have hascii : ascii name = p.bytes := by
    rw [← htext]
    apply Utf8.ascii_decode
    rw [hbytes]
    exact List.forall_mem_cons.mpr
      ⟨isWordByte_lt (by rw [isWordByte, hb, Bool.true_or]), fun c hc => isWordByte_lt (hmore c hc)⟩
  have hkeywords : ∀ r ∈ Kind.keywords, r.2 ≠ .identifier := by decide
  have hreserved (r : String × Kind) (hr : r ∈ Kind.keywords) : name ≠ r.1 := by
    rintro rfl
    cases hwritten with
    | identifier _ _ hname => exact hname r hr hascii
    | keyword hkeyword => exact absurd (Shape.token.inj hshape) (hkeywords _ hkeyword)
    | mark hmark =>
        have hmarks : ∀ m ∈ Kind.marks, m.2 ≠ .identifier := by decide
        exact absurd (Shape.token.inj hshape) (hmarks _ hmark)
    | _ => cases hshape
  exact ⟨hreserved ("this", .kwThis) (by decide), hreserved ("super", .kwSuper) (by decide)⟩

theorem Stmt.DeclareVar.plain {name : String} {body : List Stmt} (h : Stmt.DeclareVar name body)
    (hwf : Stmt.WellFormedEach body) : name ≠ "this" ∧ name ≠ "super" := by
  obtain ⟨t, e, hmem, rfl⟩ := h
  induction body with
  | nil => cases hmem
  | cons s body ih =>
      rcases List.mem_cons.mp hmem with rfl | hmem
      · exact hwf.1.1
      · exact ih hwf.2 hmem

section Plain

variable {r : Renaming}

mutual

theorem Stmt.Renames.plain : {s s' : Stmt} → s.Renames r s' → s.WellFormed →
    r.old ≠ "this" ∧ r.old ≠ "super"
  | .block _, _, .here hvar, hwf => hvar.plain hwf
  | .block _, _, .block h, hwf => h.plain hwf
  | .ifThen _ _, _, .ifThen _ h, hwf => h.plain hwf.2.1
  | .ifElse _ _ _, _, .thenBranch _ _ h, hwf => h.plain hwf.2.1.1
  | .ifElse _ _ _, _, .elseBranch _ _ h, hwf => h.plain hwf.2.2.1
  | .loop _ _, _, .loop _ h, hwf => h.plain hwf.2.1
  | .function _, _, .function h, hwf => h.plain hwf.2
  | .classDecl _ _ _, _, .classDecl _ _ h, hwf => h.plain hwf.2.2

theorem Stmt.RenamesOne.plain : {ss ss' : List Stmt} → Stmt.RenamesOne r ss ss' →
    Stmt.WellFormedEach ss → r.old ≠ "this" ∧ r.old ≠ "super"
  | _ :: _, _, .head _ h, hwf => h.plain hwf.1
  | _ :: _, _, .tail _ h, hwf => h.plain hwf.2

theorem FunctionDecl.Renames.plain : {d d' : FunctionDecl} → d.Renames r d' → d.WellFormed →
    r.old ≠ "this" ∧ r.old ≠ "super"
  | .mk _ _ _, _, .here (.inl ⟨p, hp, hname⟩), hwf => hname ▸ hwf.1 p hp
  | .mk _ _ _, _, .here (.inr hvar), hwf => hvar.plain hwf.2
  | .mk _ _ _, _, .body _ _ h, hwf => h.plain hwf.2

theorem FunctionDecl.RenamesOne.plain : {ds ds' : List FunctionDecl} →
    FunctionDecl.RenamesOne r ds ds' → FunctionDecl.WellFormedEach ds →
    r.old ≠ "this" ∧ r.old ≠ "super"
  | _ :: _, _, .head _ h, hwf => h.plain hwf.1
  | _ :: _, _, .tail _ h, hwf => h.plain hwf.2

end

end Plain

/-! ### Reports -/

/-- Failures that are told in the same words, except that a variable without a value is quoted by
its name. Messages tell of the token at which a failure happens only its line. -/
inductive Fault.Renamed (old new : String) : Fault → Fault → Prop where
  | same (f : Fault) : Renamed old new f f
  | token {t t' : Token} (cause : FaultCause) : t'.line = t.line →
      Renamed old new (.raised t cause) (.raised t' cause)
  | undefined {t t' : Token} : t'.line = t.line →
      Renamed old new (.raised t (.undefinedVariable old)) (.raised t' (.undefinedVariable new))

inductive Outcome.Renamed (old new : String) : Outcome → Outcome → Prop where
  | same (o : Outcome) : Renamed old new o o
  | failed {f f' : Fault} : f.Renamed old new f' → Renamed old new (.failed f) (.failed f')

/-- Reports of the same run, in which the same is printed by then. -/
structure Session.ReportRenamed {α : Type} (old new : String) (a b : α × Outcome × Sink) :
    Prop where
  label : b.1 = a.1
  outcome : a.2.1.Renamed old new b.2.1
  sink : b.2.2 = a.2.2

theorem Outcome.Matches.renamed {μ : Matching} {o o' : Outcome} (h : o.Matches μ o') :
    o.Renamed μ.old μ.new o' := by
  cases h with
  | same => exact .same o
  | failed hf =>
      refine .failed ?_
      cases hf with
      | same => exact .same _
      | @undefined t ht =>
          rw [Session.undefined, ht]
          exact .undefined rfl
      | superclass => exact .token _ rfl

namespace Session

variable {μ : Matching} {s s' t : Session} {source source' : Source} {n : Nat} {α : Type}

/-- Runs that match, and what is reported after them. -/
theorem RunsMatch.reports (hrun : RunsMatch μ (s.run n source) (s'.run n source')) (a : α)
    {runs : List (α × Nat × Source)}
    (hrest : Rests μ (s.run n source).2 (s'.run n source').2 →
      List.Forall₂ (ReportRenamed μ.old μ.new) ((s.run n source).2.reports runs)
        ((s'.run n source').2.reports runs)) :
    List.Forall₂ (ReportRenamed μ.old μ.new) (s.reports ((a, n, source) :: runs))
      (s'.reports ((a, n, source') :: runs)) := by
  simp only [Session.reports]
  refine .cons ⟨rfl, hrun.outcome.renamed, hrun.sink⟩ ?_
  by_cases hfinished : (s.run n source).1 = .unfinished
  · rw [if_pos hfinished, if_pos (hrun.outcome.unfinished_iff.mpr hfinished)]
    exact .nil
  · rw [if_neg hfinished, if_neg (mt hrun.outcome.unfinished_iff.mp hfinished)]
    exact hrest (hrun.rests hfinished)

theorem Rests.reports (hs : Rests μ s s') (runs : List (α × Nat × Source)) :
    List.Forall₂ (ReportRenamed μ.old μ.new) (s.reports runs) (s'.reports runs) := by
  induction runs generalizing μ s s' with
  | nil => exact .nil
  | cons run runs ih =>
      obtain ⟨a, n, source⟩ := run
      obtain ⟨μ', hμ, hrun⟩ := hs.run_same n source
      rw [← hμ.old, ← hμ.new]
      exact hrun.reports a ih

/-! ### Accepted scripts -/

variable {sources : List Source} {history : History} {program program' : Program}

/-- The table has for the references of an accepted script the hop counts found in it. -/
theorem Ran.recorded (hran : s.Ran sources history) (h : s.prepare source = (.ok program, t)) :
    (Point.root program).Recorded t.hop? := by
  obtain ⟨-, hnumbered, hhops, -⟩ := prepare_ok h
  refine ⟨hnumbered.nodup, fun id hid => ?_⟩
  rw [hhops, hran.hop?_eq_none (hnumbered.mem id hid).1, Option.or_none]

end Session

/-- A matching in which references stand for themselves. -/
def Matching.ofTable (old new : String) (hold : old ≠ "this" ∧ old ≠ "super")
    (hnew : new ≠ "this" ∧ new ≠ "super") (table : ExprId → Option Nat) : Matching :=
  ⟨old, new, fun id id' hop => id' = id ∧ table id = hop, hold, hnew⟩

/-- A matching in which the references below an id stand for themselves as well. -/
def Matching.addTable (μ : Matching) (next : ExprId) (table : ExprId → Option Nat) : Matching :=
  { μ with ref := fun id id' hop => μ.ref id id' hop ∨ id < next ∧ id' = id ∧ table id = hop }

namespace Session

variable {s t : Session} {sources : List Source} {history : History} {source source' : Source}
  {program program' : Program} {x y : String}

theorem fresh_within (hy : y ≠ "this") (hfresh : ∀ token ∈ source.tokens, token.lexeme ≠ y)
    {next : ExprId} {u u' : Token} (hu : (Likeness.within [source] next).token u u') :
    u.lexeme ≠ y := by
  rcases hu.2 with rfl | ⟨_, hsource, hmem⟩
  · exact hy.symm
  · rw [List.mem_singleton.mp hsource] at hmem
    exact hfresh u hmem

/-- A script with another local name is accepted to the same effect. -/
theorem Ran.prepare_renamed (hran : s.Ran sources history)
    (h : s.prepare source = (.ok program, t)) (hy : IsName y)
    (hfresh : ∀ token ∈ source.tokens, token.lexeme ≠ y)
    (hrename : Stmt.RenamesOne ⟨x, y, t.hop?⟩ program program') :
    ∃ source', source.Reworded x y source' ∧ s.prepare source' = (.ok program', t) := by
  have haccepted := (prepare_ok h).1
  have hrecorded := hran.recorded h
  have hwithin : Stmt.AlikeEach (.within [source] t.nextId) program program := program_within h
  obtain ⟨word, hword⟩ := hy
  have hplain := hrename.plain haccepted.wellFormed
  let μ := Matching.ofTable x y hplain hword.plain t.hop?
  have hμ : μ.Renames ⟨x, y, t.hop?⟩ (.within [source] t.nextId) :=
    ⟨rfl, rfl, fun _ => ⟨rfl, rfl⟩, fresh_within hword.plain.1 hfresh⟩
  have hfollows : μ.Follows (.within [source] t.nextId) program t.hop? :=
    ⟨hμ.fresh, id, haccepted, hrecorded⟩
  have hmatch : Stmt.MatchesEach μ none program program' := hrename.matches hμ hwithin haccepted
  obtain ⟨hlexical, next, hops, hderives, hcounts, ht⟩ := prepare_eq_ok_iff.mp h
  -- The renamed tree gives the tokens of its derivation, and these the words of the script.
  obtain ⟨ts, hts, hderives'⟩ := hderives.reworded (k := none) And.left hmatch
  obtain ⟨source', hwords, hlexical', hbody⟩ := Source.exists_reworded ⟨word, hword⟩ hlexical hts
  refine ⟨source', hwords, prepare_eq_ok_iff.mpr ⟨hlexical', next, hops, ?_, ?_, ht⟩⟩
  · rw [hbody]
    exact hderives'
  · exact hmatch.hopCounts hfollows hwithin hcounts

/-- A script with another local name runs in the same way, and leaves a session behind that goes on
in the same way. -/
theorem Ran.run_renamed (hran : s.Ran sources history) (h : s.prepare source = (.ok program, t))
    (h' : s.prepare source' = (.ok program', t)) (hy : y ≠ "this" ∧ y ≠ "super")
    (hfresh : ∀ token ∈ source.tokens, token.lexeme ≠ y)
    (hrename : Stmt.RenamesOne ⟨x, y, t.hop?⟩ program program') (n : Nat) :
    ∃ μ : Matching, μ.old = x ∧ μ.new = y ∧ RunsMatch μ (s.run n source) (s.run n source') := by
  have haccepted := (prepare_ok h).1
  have hwithin : Stmt.AlikeEach (.within [source] t.nextId) program program := program_within h
  obtain ⟨μ, rfl, rfl, hs⟩ := hran.rests (hrename.plain haccepted.wellFormed) hy
  let μ' := μ.addTable t.nextId t.hop?
  have hle : s.nextId ≤ t.nextId := (prepare_ok h).2.1.le
  have hμ : μ'.Renames ⟨μ.old, μ.new, t.hop?⟩ (.within [source] t.nextId) :=
    ⟨rfl, rfl, fun hid => .inr ⟨hid, rfl, rfl⟩, fresh_within hy.1 hfresh⟩
  have hextends : μ'.Extends μ := ⟨rfl, rfl, .inl⟩
  refine ⟨μ', rfl, rfl, hs.carryOut h h' hextends ?_ ?_
    (hrename.matches hμ hwithin haccepted) n⟩
  · rintro id id' hop (hid | ⟨hid, rfl, -⟩)
    · obtain ⟨hlt, hlt'⟩ := hs.below hid
      exact ⟨Nat.lt_of_lt_of_le hlt hle, Nat.lt_of_lt_of_le hlt' hle⟩
    · exact ⟨hid, hid⟩
  · rintro id id' hop (hid | ⟨-, rfl, rfl⟩)
    · obtain ⟨L, -, hsession⟩ := hs.layout
      obtain ⟨hlt, hlt'⟩ := hs.below hid
      rw [hop?_of_prepare h hlt, hop?_of_prepare h hlt']
      exact hsession.hops hid
    · exact ⟨rfl, rfl⟩

end Session

/-- Let a session accept a script in which some scope other than the global one declares `x` as a
variable or a parameter, and let `y` be a name that no token of the script has. The script in which
that declaration and exactly the references that lead to it say `y` is accepted as well, with the
same hop counts. Run in place of the first it prints the same and ends in the same way, and so does
every later run of the session, except that a failure may quote `y` for `x` as an undefined
variable. -/
theorem local_names_are_free {s t : Session} {sources : List Source} {history : History}
    (hran : s.Ran sources history) {source : Source} {program program' : Program}
    (h : s.prepare source = (.ok program, t))
    {x y : String} (hy : IsName y) (hfresh : ∀ token ∈ source.tokens, token.lexeme ≠ y)
    (hrename : Stmt.RenamesOne ⟨x, y, t.hop?⟩ program program') :
    ∃ source' : Source, source.Reworded x y source' ∧ s.prepare source' = (.ok program', t) ∧
      ∀ {α : Type} (a : α) (n : Nat) (later : List (α × Nat × Source)),
        List.Forall₂ (Session.ReportRenamed x y) (s.reports ((a, n, source) :: later))
          (s.reports ((a, n, source') :: later)) := by
  obtain ⟨source', hwords, h'⟩ := hran.prepare_renamed h hy hfresh hrename
  refine ⟨source', hwords, h', fun a n later => ?_⟩
  obtain ⟨word, hword⟩ := hy
  obtain ⟨μ, rfl, rfl, hrun⟩ := hran.run_renamed h h' hword.plain hfresh hrename n
  exact hrun.reports a fun hrests => hrests.reports later

/-- The first declaration is a function with this parameter and no other. -/
def Stmt.opensWithParam (name : String) : List Stmt → Bool
  | .function (.mk _ [p] _) :: _ => p.lexeme == name
  | _ => false

/-- A parameter that a closure holds and that an inner variable hides gets another name. A later
script still calls the closure, and still misses the name in the global scope. -/
theorem local_names_are_free_closure :
    let s := Session.new .unlimited fun _ => 0
    let source : Source :=
      ("fun f(a)\x7bfun g()\x7ba=nil;print a;\x7bvar a=true;print a;\x7d\x7d" ++
        "return g;\x7dvar g=f(false);g();").toUTF8.toList
    let later : List (Unit × Nat × Source) := [((), 60, "g();print a;".toUTF8.toList)]
    ∃ program program' t source', s.prepare source = (.ok program, t) ∧
      IsName "b" ∧ (∀ token ∈ source.tokens, token.lexeme ≠ "b") ∧
      Stmt.RenamesOne ⟨"a", "b", t.hop?⟩ program program' ∧
      source.Reworded "a" "b" source' ∧ s.prepare source' = (.ok program', t) ∧
      (s.reports (((), 100, source) :: later)).map (·.2.1) =
        [.ok, .failed (Session.undefined ⟨.identifier, "a", 1⟩)] ∧
      List.Forall₂ (Session.ReportRenamed "a" "b") (s.reports (((), 100, source) :: later))
        (s.reports (((), 100, source') :: later)) := by
  intro s source later
  have hname : IsName "b" :=
    ⟨⟨.token .identifier, ascii "b"⟩, .identifier (by decide) nofun (by decide), rfl, by decide⟩
  have hfresh : ∀ token ∈ source.tokens, token.lexeme ≠ "b" := by decide +kernel
  obtain ⟨program, t, hprepare, hcheck⟩ := Session.exists_of_prepare s source
    (fun program _ => Stmt.opensWithParam "a" program) (by decide +kernel)
  unfold Stmt.opensWithParam at hcheck
  split at hcheck
  · rename_i name p body rest
    have hparam : FunctionDecl.Renames ⟨"a", "b", t.hop?⟩ (.mk name [p] body) _ :=
      .here (.inl ⟨p, List.mem_singleton_self p, beq_iff_eq.mp hcheck⟩)
    have hrename := Stmt.RenamesOne.head rest (.function hparam)
    obtain ⟨source', hwords, hprepare', hreports⟩ :=
      local_names_are_free (.new .unlimited _) hprepare hname hfresh hrename
    exact ⟨_, _, t, source', hprepare, hname, hfresh, hrename, hwords, hprepare',
      by decide +kernel, hreports () 100 later⟩
  · cases hcheck

end ScriptLang
