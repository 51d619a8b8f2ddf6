import ScriptLang.Proofs.Joining.Scripts

/-! Ids as keys. In a program that was read, the references have consecutive ids in the order in
which their names and keywords stand among the tokens. In a session no id gets another hop count
once the script that it belongs to is over. -/

namespace ScriptLang

/-! ### References -/

mutual

/-- The names and keywords that an expression looks up, each with the id of its node. -/
def Expr.references : Expr → List (Token × ExprId)
  | .literal _ => []
  | .grouping inner => inner.references
  | .unary _ right => right.references
  | .binary left _ right => left.references ++ right.references
  | .logical left _ right => left.references ++ right.references
  | .variable id name => [(name, id)]
  | .assign id name value => (name, id) :: value.references
  | .call callee _ arguments => callee.references ++ Expr.referencesEach arguments
  | .get object _ => object.references
  | .set object _ value => object.references ++ value.references
  | .this id keyword => [(keyword, id)]
  | .super id keyword _ => [(keyword, id)]

def Expr.referencesEach : List Expr → List (Token × ExprId)
  | [] => []
  | e :: es => e.references ++ Expr.referencesEach es

end

def Expr.references? : Option Expr → List (Token × ExprId)
  | none => []
  | some e => e.references

mutual

/-- The references in a statement, the name of a superclass among them. -/
def Stmt.references : Stmt → List (Token × ExprId)
  | .expression e => e.references
  | .print e => e.references
  | .var _ initializer => Expr.references? initializer
  | .block body => Stmt.referencesEach body
  | .ifThen condition thenBranch => condition.references ++ thenBranch.references
  | .ifElse condition thenBranch elseBranch =>
    condition.references ++ thenBranch.references ++ elseBranch.references
  | .loop condition body => condition.references ++ body.references
  | .function decl => decl.references
  | .ret _ value => Expr.references? value
  | .classDecl _ superclass methods =>
    Expr.references? superclass ++ FunctionDecl.referencesEach methods

def Stmt.referencesEach : List Stmt → List (Token × ExprId)
  | [] => []
  | s :: ss => s.references ++ Stmt.referencesEach ss

def FunctionDecl.references : FunctionDecl → List (Token × ExprId)
  | .mk _ _ body => Stmt.referencesEach body

def FunctionDecl.referencesEach : List FunctionDecl → List (Token × ExprId)
  | [] => []
  | d :: ds => d.references ++ FunctionDecl.referencesEach ds

end

/-- The references in what a phrase stands for. -/
def Symbol.references : (x : Symbol) → x.Tree → List (Token × ExprId)
  | .declarations => Stmt.referencesEach
  | .declaration => Stmt.references
  | .varDecl => Stmt.references
  | .functions => FunctionDecl.referencesEach
  | .function => FunctionDecl.references
  | .parameters => fun _ => []
  | .statement _ => Stmt.references
  | .exprStmt => Stmt.references
  | .forInit => fun init => Stmt.referencesEach init.toList
  | .optional => Expr.references?
  | .expression => Expr.references
  | .operation _ => Expr.references
  | .unary => Expr.references
  | .call => Expr.references
  | .arguments => Expr.referencesEach
  | .primary => Expr.references

theorem Level.Joins.references {level : Level} {left right e : Expr} {operator : Token}
    (h : level.Joins left operator right e) :
    e.references = left.references ++ right.references := by
  cases h <;> rfl

/-- A loop has the references of its parts, those of the increment after those of the body. -/
theorem Stmt.ForForm.references_perm {init : Option Stmt} {condition increment : Option Expr}
    {body s : Stmt} (h : ForForm init condition increment body s) :
    s.references.Perm (Stmt.referencesEach init.toList ++ Expr.references? condition ++
      Expr.references? increment ++ body.references) := by
  induction h with
  | endless => simp [Stmt.referencesEach, Expr.references?, Stmt.references, Expr.references]
  | loop => simp [Stmt.referencesEach, Expr.references?, Stmt.references]
  | increment _ ih =>
      refine ih.trans ?_
      simpa [Stmt.references, Stmt.referencesEach, Expr.references?] using
        List.Perm.append_left _ List.perm_append_comm
  | initializer _ ih =>
      simpa [Stmt.references, Stmt.referencesEach, List.append_assoc] using ih.append_left _

/-! ### Counting -/

/-- Sorted by their ids, from `i` up to but not including `j`, the references are tokens out of
`ts` in the order in which they stand there. -/
def Counted (i : ExprId) (ts : List Token) (refs : List (Token × ExprId)) (j : ExprId) : Prop :=
  ∃ rs : List Token, rs.Sublist ts ∧ refs.Perm (rs.zipIdx i) ∧ j = i + rs.length

namespace Counted

variable {i j k : ExprId} {ts us : List Token} {refs refs' : List (Token × ExprId)}

theorem nil (i : ExprId) (ts : List Token) : Counted i ts [] i :=
  ⟨[], List.nil_sublist ts, .nil, rfl⟩

theorem one (i : ExprId) (t : Token) : Counted i [t] [(t, i)] (i + 1) :=
  ⟨[t], List.Sublist.refl [t], .refl _, rfl⟩

theorem perm (h : Counted i ts refs j) (hperm : refs'.Perm refs) : Counted i ts refs' j := by
  obtain ⟨rs, hsub, hrefs, rfl⟩ := h
  exact ⟨rs, hsub, hperm.trans hrefs, rfl⟩

/-- A token that is no reference. -/
theorem skip (t : Token) (h : Counted i ts refs j) : Counted i (t :: ts) refs j := by
  obtain ⟨rs, hsub, hrefs, rfl⟩ := h
  exact ⟨rs, hsub.cons t, hrefs, rfl⟩

/-- Tokens at the end that are no references. -/
theorem stop (us : List Token) (h : Counted i ts refs j) : Counted i (ts ++ us) refs j := by
  obtain ⟨rs, hsub, hrefs, rfl⟩ := h
  exact ⟨rs, hsub.trans (List.sublist_append_left ts us), hrefs, rfl⟩

theorem append (h : Counted i ts refs j) (h' : Counted j us refs' k) :
    Counted i (ts ++ us) (refs ++ refs') k := by
  obtain ⟨rs, hsub, hrefs, rfl⟩ := h
  obtain ⟨rs', hsub', hrefs', rfl⟩ := h'
  refine ⟨rs ++ rs', hsub.append hsub', ?_, ?_⟩
  · rw [List.zipIdx_append]
    exact hrefs.append hrefs'
  · rw [List.length_append, Nat.add_assoc]

theorem ids_perm (h : Counted i ts refs j) :
    (refs.map Prod.snd).Perm (List.range' i (j - i)) := by
  obtain ⟨rs, -, hrefs, rfl⟩ := h
  rw [Nat.add_sub_cancel_left, ← List.zipIdx_map_snd]
  exact hrefs.map Prod.snd

theorem mem {r : Token × ExprId} (h : Counted i ts refs j) (hr : r ∈ refs) : r.1 ∈ ts := by
  obtain ⟨rs, hsub, hrefs, -⟩ := h
  exact hsub.mem (List.fst_mem_of_mem_zipIdx (hrefs.mem_iff.mp hr))

/-- Where the tokens stand on lines one below the other, so do the references, in the order of
their ids. -/
theorem line_lt_iff (h : Counted i ts refs j) (hts : ts.Pairwise (·.line < ·.line))
    {r r' : Token × ExprId} (hr : r ∈ refs) (hr' : r' ∈ refs) :
    r.1.line < r'.1.line ↔ r.2 < r'.2 := by
  obtain ⟨rs, hsub, hrefs, -⟩ := h
  have hrs := hts.sublist hsub
  have hlt : ∀ {a b : Token × ExprId}, a ∈ rs.zipIdx i → b ∈ rs.zipIdx i → a.2 < b.2 →
      a.1.line < b.1.line := by
    rintro ⟨t, id⟩ ⟨t', id'⟩ ha hb hid
    obtain ⟨hle, ha⟩ := List.mk_mem_zipIdx_iff_le_and_getElem?_sub.mp ha
    obtain ⟨-, hb⟩ := List.mk_mem_zipIdx_iff_le_and_getElem?_sub.mp hb
    obtain ⟨_, rfl⟩ := List.getElem?_eq_some_iff.mp ha
    obtain ⟨_, rfl⟩ := List.getElem?_eq_some_iff.mp hb
    exact List.pairwise_iff_getElem.mp hrs _ _ _ _ (Nat.sub_lt_sub_right hle hid)
  rw [hrefs.mem_iff] at hr hr'
  refine ⟨fun hline => ?_, hlt hr hr'⟩
  rcases Nat.lt_trichotomy r.2 r'.2 with hid | hid | hid
  · exact hid
  · obtain ⟨-, hr⟩ := List.mem_zipIdx_iff_le_and_getElem?_sub.mp hr
    obtain ⟨-, hr'⟩ := List.mem_zipIdx_iff_le_and_getElem?_sub.mp hr'
    rw [hid, hr'] at hr
    rw [Option.some.inj hr] at hline
    exact absurd hline (Nat.lt_irrefl _)
  · exact absurd (hlt hr' hr hid) (Nat.lt_asymm hline)

end Counted

/-- The references of a phrase are counted on from the phrases before it. -/
theorem Derives.counted {x : Symbol} {i j : ExprId} {ts : List Token} {a : x.Tree}
    (h : Derives x i ts a j) : Counted i ts (x.references a) j := by
  induction h with
  | noDeclarations | varBare | noFunctions | parameter | forNone | absent | number | string
  | trueWord | falseWord | nilWord => exact .nil _ _
  | this | reference => exact .one _ _
  | super => exact (Counted.one _ _).stop _
  | declarations _ _ ih ih₂ | functions _ _ ih ih₂ => exact ih.append ih₂
  | baseClass _ _ _ _ _ ih => exact (((ih.skip _).skip _).skip _).stop _
  | derivedClass _ _ _ _ _ _ _ ih =>
      exact (((((Counted.one _ _).append (ih.skip _)).skip _).skip _).skip _).stop _
  | funDecl _ _ ih => exact ih.skip _
  | varInit _ _ _ _ _ ih => exact (((ih.skip _).skip _).skip _).stop _
  | functionBare _ _ _ _ _ _ ih => exact ((((ih.skip _).skip _).skip _).skip _).stop _
  | function _ _ _ _ _ _ _ _ ih ih₂ =>
      exact (((ih.skip _).skip _).append ((ih₂.skip _).skip _)).stop _
  | parameters _ _ _ ih => exact (ih.skip _).skip _
  | forStatement _ _ _ _ _ _ _ _ hform ih ih₂ ih₃ ih₄ =>
      exact (((((ih.skip _).skip _).append ih₂).append (ih₃.skip _)).append (ih₄.skip _)).perm
        hform.references_perm
  | ifThen _ _ _ _ _ _ ih ih₂ | whileStatement _ _ _ _ _ ih ih₂ =>
      exact ((ih.skip _).skip _).append (ih₂.skip _)
  | ifElse _ _ _ _ _ _ _ ih ih₂ ih₃ =>
      exact (((ih.skip _).skip _).append (ih₂.skip _)).append (ih₃.skip _)
  | print _ _ _ ih | ret _ _ _ ih | block _ _ _ ih | grouping _ _ _ ih => exact (ih.skip _).stop _
  | exprStmt _ _ ih => exact ih.stop _
  | forVar _ ih | forExpr _ ih | argument _ ih =>
      simpa [Symbol.references, Stmt.referencesEach, Expr.referencesEach] using ih
  | assign _ _ _ ih => exact (Counted.one _ _).append (ih.skip _)
  | set _ _ _ _ _ ih ih₂ => exact ih.append (((ih₂.skip _).skip _).skip _)
  | join _ _ hjoins ih ih₂ =>
      show Counted _ _ (Expr.references _) _
      rw [hjoins.references]
      exact ih.append (ih₂.skip _)
  | unary _ _ ih => exact ih.skip _
  | callBare _ _ _ ih =>
      exact (ih.stop _).perm
        (by simp [Symbol.references, Expr.references, Expr.referencesEach])
  | get _ _ _ ih => exact ih.stop _
  | callWith _ _ _ _ _ ih ih₂ => exact (ih.append (ih₂.skip _)).stop _
  | arguments _ _ _ ih ih₂ => exact ih.append (ih₂.skip _)
  | _ => assumption

/-! ### Places -/

/-- Tokens, each with its place in the list, counted from one, for a line. -/
def Token.placeEach (tokens : List Token) : List Token := moveEach (fun k _ => k) 1 tokens

/-- Trees are alike if the tokens of the second have the places of the tokens of the first. -/
def Likeness.places (tokens : List Token) : Likeness where
  token t t' := t'.kind = t.kind ∧ t'.lexeme = t.lexeme ∧
    (t'.line ≠ 0 → tokens[t'.line - 1]? = some t)
  id _ := True
  kind h := h.1
  lexeme h := h.2.1
  this := ⟨rfl, rfl, absurd rfl⟩

theorem Likeness.places_moves (front body rest : List Token) :
    (Likeness.places (front ++ body ++ rest)).Moves (fun k _ => k) (front.length + 1) body := by
  generalize htokens : front ++ body ++ rest = tokens
  induction body generalizing front with
  | nil => trivial
  | cons t body ih =>
      have hplace : tokens[front.length]? = some t := by simp [← htokens]
      have hrest := ih (front ++ [t]) (by simp [← htokens])
      rw [List.length_append] at hrest
      exact ⟨⟨rfl, rfl, fun _ => hplace⟩, hrest⟩

theorem Token.le_line_of_mem_moveEach {k : Nat} {ts : List Token} :
    ∀ t ∈ moveEach (fun k _ => k) k ts, k ≤ t.line := by
  induction ts generalizing k with
  | nil => simp [moveEach]
  | cons t ts ih =>
      intro u hu
      rcases List.mem_cons.mp hu with rfl | hu
      · exact Nat.le_refl k
      · exact Nat.le_of_succ_le (ih u hu)

theorem Token.moveEach_pairwise (k : Nat) (ts : List Token) :
    (moveEach (fun k _ => k) k ts).Pairwise (·.line < ·.line) := by
  induction ts generalizing k with
  | nil => exact .nil
  | cons t ts ih => exact .cons le_line_of_mem_moveEach (ih (k + 1))

theorem Token.takeWhile_moveEach (f : Nat → Token → Nat) (k : Nat) (ts : List Token) :
    (moveEach f k ts).takeWhile (!·.isEof) = moveEach f k (ts.takeWhile (!·.isEof)) := by
  induction ts generalizing k with
  | nil => rfl
  | cons t ts ih =>
      have hkind : ({ t with line := f k t } : Token).isEof = t.isEof := rfl
      simp only [moveEach, List.takeWhile_cons, hkind]
      cases t.isEof with
      | true => rfl
      | false =>
          simp only [Bool.not_false, if_true, moveEach]
          rw [ih]

/-- The tokens of a program, each with its place, are read as the same program. -/
theorem Parsed.ofTokens_placeEach {tokens : List Token} {first next : ExprId} {program : Program}
    (h : ofTokens tokens first = ⟨.ok program, next⟩) :
    ∃ placed, ofTokens (Token.placeEach tokens) first = ⟨.ok placed, next⟩ ∧
      Stmt.AlikeEach (.places tokens) program placed := by
  have hmoves := Likeness.places_moves [] (tokens.takeWhile (!·.isEof))
    (tokens.dropWhile (!·.isEof))
  rw [List.nil_append, List.takeWhile_append_dropWhile] at hmoves
  obtain ⟨placed, hplaced, halike⟩ :=
    (ofTokens_ok_iff.mp h).moved hmoves fun _ _ => trivial
  refine ⟨placed, ofTokens_ok_iff.mpr ?_, halike⟩
  rw [Token.placeEach, Token.takeWhile_moveEach]
  exact hplaced

/-! ### Sessions -/

namespace Session

variable {sources : List Source} {history : History} {s t : Session}

/-- A session goes on to what finished runs of further scripts lead to. -/
inductive GoesOn (s : Session) : Session → Prop where
  | here : GoesOn s s
  | run {t : Session} (steps : Nat) (source : Source) :
      GoesOn s t → (t.run steps source).1 ≠ .unfinished → GoesOn s (t.run steps source).2

/-- A run gives out new ids, and leaves what is known of the old ones. -/
theorem Ran.run_hop? (hran : s.Ran sources history) (n : Nat) (source : Source) :
    s.nextId ≤ (s.run n source).2.nextId ∧
      ∀ id < s.nextId, (s.run n source).2.hop? id = s.hop? id := by
  rcases hprepare : s.prepare source with ⟨errors | program, s'⟩
  · obtain ⟨hle, heq⟩ := prepare_error hprepare
    have hrun : (s.run n source).2 = s' := by
      rw [Session.run, hprepare]
      rfl
    rw [hrun]
    refine ⟨hle, fun id _ => ?_⟩
    rw [heq]
    rfl
  · obtain ⟨-, hnumbered, -, -⟩ := prepare_ok hprepare
    obtain ⟨hhops, hnextId⟩ := hran.run_table hprepare n
    rw [run_of_prepare hprepare n]
    refine ⟨Nat.le_trans hnumbered.le (Nat.le_of_eq hnextId.symm), fun id hid => ?_⟩
    have hsame : (Machine.run n (.ofProgram program s')).session.hop? id = s'.hop? id := by
      rw [hop?, hhops]
      rfl
    exact hsame.trans (hop?_of_prepare hprepare hid)

theorem Ran.goesOn (hran : s.Ran sources history) (h : s.GoesOn t) :
    (∃ more history', t.Ran more history') ∧ s.nextId ≤ t.nextId ∧
      ∀ id < s.nextId, t.hop? id = s.hop? id := by
  induction h with
  | here => exact ⟨⟨sources, history, hran⟩, Nat.le_refl _, fun _ _ => rfl⟩
  | run steps source _ hfinished ih =>
      obtain ⟨⟨more, history', hmore⟩, hle, hhop⟩ := ih
      obtain ⟨hle', hhop'⟩ := hmore.run_hop? steps source
      refine ⟨⟨_, _, hmore.run steps source hfinished⟩, Nat.le_trans hle hle', fun id hid => ?_⟩
      rw [hhop' id (Nat.lt_of_lt_of_le hid hle), hhop id hid]

end Session

/-- The references of a program that was read have the ids from the first one on, each a different
one, in the order of their places among the tokens. The hop count of an id that a finished run has
given out stays what it is while more scripts are run and after they are over. -/
theorem ids_are_lasting_keys :
    (∀ (tokens : List Token) (first next : ExprId) (program : Program),
      Parsed.ofTokens tokens first = ⟨.ok program, next⟩ →
      first ≤ next ∧
      ((Stmt.referencesEach program).map Prod.snd).Perm (List.range' first (next - first)) ∧
      ∃ placed, Parsed.ofTokens (Token.placeEach tokens) first = ⟨.ok placed, next⟩ ∧
        Stmt.AlikeEach (.places tokens) program placed ∧
        ∀ r ∈ Stmt.referencesEach placed, 1 ≤ r.1.line ∧
          ∀ r' ∈ Stmt.referencesEach placed, r.1.line < r'.1.line ↔ r.2 < r'.2) ∧
    ∀ (sources : List Source) (history : History) (s t : Session), s.Ran sources history →
      s.GoesOn t →
      s.nextId ≤ t.nextId ∧ ∀ id < s.nextId, t.hop? id = s.hop? id ∧
        ∀ (steps : Nat) (source : Source), (t.run steps source).2.hop? id = s.hop? id := by
  refine ⟨fun tokens first next program h => ?_, fun sources history s t hran hgoes => ?_⟩
  · have hderives := Parsed.ofTokens_ok_iff.mp h
    obtain ⟨placed, hplaced, halike⟩ := Parsed.ofTokens_placeEach h
    have hcounted := (Parsed.ofTokens_ok_iff.mp hplaced).counted
    rw [Token.placeEach, Token.takeWhile_moveEach] at hcounted
    refine ⟨hderives.numbered.le, hderives.counted.ids_perm, placed, hplaced, halike,
      fun r hr => ⟨?_, fun r' hr' => ?_⟩⟩
    · exact Token.le_line_of_mem_moveEach r.1 (hcounted.mem hr)
    · exact hcounted.line_lt_iff (Token.moveEach_pairwise 1 _) hr hr'
  · obtain ⟨⟨more, history', hmore⟩, hle, hhop⟩ := hran.goesOn hgoes
    refine ⟨hle, fun id hid => ⟨hhop id hid, fun steps source => ?_⟩⟩
    rw [(hmore.run_hop? steps source).2 id (Nat.lt_of_lt_of_le hid hle), hhop id hid]

/-- In `for(;a;b=c)this;` the ids follow the tokens, though the increment is carried out after the
body. The local reference of `{var b;b;}` keeps its hop count when a later script fails. -/
theorem ids_are_lasting_keys_loop :
    let word (lexeme : String) : Token := ⟨.identifier, lexeme, 7⟩
    let this : Token := ⟨.kwThis, "this", 7⟩
    let tokens : List Token := [⟨.kwFor, "for", 7⟩, ⟨.leftParen, "(", 7⟩, ⟨.semicolon, ";", 7⟩,
      word "a", ⟨.semicolon, ";", 7⟩, word "b", ⟨.equal, "=", 7⟩, word "c", ⟨.rightParen, ")", 7⟩,
      this, ⟨.semicolon, ";", 7⟩, ⟨.eof, "", 7⟩]
    let s := (Session.new .unlimited fun _ => 0).run 40 "\x7bvar b;b;\x7d".toUTF8.toList
    let t := s.2.run 40 "\x7bvar a;b;\x7d".toUTF8.toList
    (∃ program, Parsed.ofTokens tokens 3 = ⟨.ok program, 7⟩ ∧
      Stmt.referencesEach program = [(word "a", 3), (this, 6), (word "b", 4), (word "c", 5)] ∧
      ((Stmt.referencesEach program).map Prod.snd).Perm [3, 4, 5, 6]) ∧
    t.1 = .failed (Session.undefined ⟨.identifier, "b", 1⟩) ∧
      s.2.hop? 0 = some 0 ∧ t.2.hop? 0 = s.2.hop? 0 := by
  intro word this tokens s t
  obtain ⟨hread, hkept⟩ := ids_are_lasting_keys
  have hnext : (Parsed.ofTokens tokens 3).nextId = 7 := by decide +kernel
  have hreferences : (Parsed.ofTokens tokens 3).program.toOption.map Stmt.referencesEach =
      some [(word "a", 3), (this, 6), (word "b", 4), (word "c", 5)] := by decide +kernel
  have hfinished : s.1 ≠ .unfinished := by decide +kernel
  have hran := (Session.Ran.new .unlimited fun _ => 0).run 40 _ hfinished
  obtain ⟨-, hhop⟩ := hkept _ _ s.2 s.2 hran .here
  refine ⟨?_, by decide +kernel, by decide +kernel, (hhop 0 (by decide +kernel)).2 40 _⟩
  cases hprogram : (Parsed.ofTokens tokens 3).program with
  | error errors =>
      rw [hprogram] at hreferences
      cases hreferences
  | ok program =>
      rw [hprogram] at hreferences
      have hparsed : Parsed.ofTokens tokens 3 = ⟨.ok program, 7⟩ := by
        rw [← hprogram, ← hnext]
      exact ⟨program, hparsed, Option.some.inj hreferences, (hread tokens 3 7 program hparsed).2.1⟩

end ScriptLang
