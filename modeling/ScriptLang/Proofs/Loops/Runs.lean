import ScriptLang.Proofs.Loops.Unfolding
import ScriptLang.Proofs.Matching.Runs

/-! Runs of scripts whose loops are written with `while`. The tokens keep their lines, so such a
script is a list of tokens; it need not be the tokens of a text, where lines only grow. -/

namespace ScriptLang

/-! ### Running tokens -/

namespace Session

/-- Reads tokens as a script and checks its scoping rules. -/
def prepareTokens (tokens : List Token) (s : Session) :
    Except (List Diagnostic) Program × Session :=
  let parsed := Parsed.ofTokens tokens s.nextId
  let s := { s with nextId := parsed.nextId }
  match parsed.program with
  | .error errors => (.error (errors.map .parse), s)
  | .ok program =>
    match s.resolve program with
    | .error errors => (.error (errors.map .scope), s)
    | .ok s => (.ok program, s)

/-- Runs tokens as a script. -/
def runTokens (steps : Nat) (tokens : List Token) (s : Session) : Outcome × Session :=
  carryOut steps (s.prepareTokens tokens)

variable {s t : Session} {source : Source} {tokens : List Token} {program : Program}

theorem prepare_eq_prepareTokens (s : Session) (h : source.lexicalErrors = []) :
    s.prepare source = s.prepareTokens source.tokens := by
  simp only [prepare, load, prepareTokens, h, List.map_nil, List.isEmpty_nil, if_true,
    List.nil_append]
  cases (Parsed.ofTokens source.tokens s.nextId).program <;> rfl

/-- A text without lexical errors runs as its tokens do. -/
theorem run_eq_runTokens (s : Session) (h : source.lexicalErrors = []) (n : Nat) :
    s.run n source = s.runTokens n source.tokens := by
  rw [run, runTokens, prepare_eq_prepareTokens s h]

theorem prepareTokens_of_derives {body : List Token} {eof : Token} {next : ExprId}
    {hops : List (ExprId × Nat)} (h : Derives .declarations s.nextId body program next)
    (heof : eof.isEof = true) (hhops : Stmt.hopCounts program = .ok hops) :
    s.prepareTokens (body ++ [eof]) =
      (.ok program, { s with hops := HopTable.record s.hops hops, nextId := next }) := by
  have hparsed : Parsed.ofTokens (body ++ [eof]) s.nextId = ⟨.ok program, next⟩ :=
    (Parsed.ofTokens_eq_ok_iff h.isEof_eq_false heof).mpr h
  simp only [prepareTokens, hparsed]
  rw [resolve_eq_ok_iff.mpr ⟨hops, hhops, rfl⟩]

end Session

/-! ### Ids that change places -/

/-- Ids that change places stay above those that do not. -/
theorem StaysOutside.le_apply {σ : Equiv.Perm ExprId} {i j : ExprId} (h : StaysOutside σ i j)
    {id : ExprId} (hid : i ≤ id) : i ≤ σ id := by
  refine Nat.le_of_not_lt fun hlt => ?_
  have hfixed : σ (σ id) = σ id := h (σ id) (.inl hlt)
  rw [σ.injective hfixed] at hlt
  exact Nat.not_lt.mpr hid hlt

namespace Session

variable {s t : Session} {sources : List Source} {history : History} {source : Source}
  {program : Program} {σ : Equiv.Perm ExprId}

/-- The hop counts of a program whose ids have changed places. -/
theorem Ran.hop?_renumber (hran : s.Ran sources history) {hops : List (ExprId × Nat)}
    {next : ExprId} (hσ : StaysOutside σ s.nextId next) (id : ExprId) :
    (HopTable.record s.hops (hops.map fun x => (σ x.1, x.2)))[σ id]? =
      (HopTable.record s.hops hops)[id]? := by
  rw [HopTable.getElem?_record_renumber σ.injective, HopTable.getElem?_record]
  by_cases hid : id < s.nextId
  · rw [hσ id (.inl hid)]
  · have hnone := hran.hop?_eq_none (Nat.not_lt.mp hid)
    have hnone' := hran.hop?_eq_none (hσ.le_apply (Nat.not_lt.mp hid))
    simp only [hop?] at hnone hnone'
    rw [hnone, hnone']

/-- A program whose ids have changed places runs in the same way. -/
theorem Ran.run_renumber (hran : s.Ran sources history) (h : s.prepare source = (.ok program, t))
    {tokens : List Token} {t' : Session}
    (h' : s.prepareTokens tokens = (.ok (Stmt.renumberEach σ program), t'))
    (ht' : t' = { s with hops := t'.hops, nextId := t'.nextId })
    (hσ : StaysOutside σ s.nextId t.nextId) (hhops : ∀ id, t'.hop? (σ id) = t.hop? id) (n : Nat) :
    (s.runTokens n tokens).1 = (s.run n source).1 ∧
      (s.runTokens n tokens).2.sink = (s.run n source).2.sink := by
  have hplain : "" ≠ "this" ∧ "" ≠ "super" := by decide
  obtain ⟨μ, hold, hnew, hs⟩ := hran.rests hplain hplain
  obtain ⟨haccepted, -, -, ht⟩ := prepare_ok h
  let μ' := μ.add id σ (· ∈ Stmt.idsEach program) t.hop?
  have hpairs : μ'.Pairs id σ (Stmt.idsEach program) :=
    fun id hid => ⟨t.hop? id, .inr ⟨id, hid, rfl, rfl, rfl⟩⟩
  have hmatch := Stmt.renumberEach_matches program haccepted.wellFormed hpairs
  rw [Stmt.renumberEach_id] at hmatch
  have hsame : μ'.new = μ'.old := hnew.trans hold.symm
  have hkept (id : ExprId) (hid : id < s.nextId) : t'.hop? id = s.hop? id := by
    rw [← hop?_of_prepare h hid, ← hhops, hσ id (.inl hid)]
  have hstart := hs.ofProgram ht ht' (μ.add_extends _ _ _ _)
    (hs.hop?_of_add (fun _ => hop?_of_prepare h) hkept fun id _ => ⟨rfl, hhops id⟩) hmatch
  rw [run_of_prepare h, runTokens, h']
  exact ⟨(hstart.run n).outcome.eq hsame, (hstart.run n).sink⟩

end Session

/-- Let a session accept a script. At each `for` in it begins a loop. Let one of its loops be
written as `{ init while (condition) { body increment; } }`, with the same tokens for the parts and
any for what is added. The tokens are accepted as the same program, but for ids that change places,
and hop counts go along with their ids. Run in place of the script they print the same and end in
the same way. -/
theorem for_loops_are_while_loops {s t : Session} {sources : List Source} {history : History}
    (hran : s.Ran sources history) {source : Source} {program : Program}
    (h : s.prepare source = (.ok program, t)) :
    (∀ (pre rest : List Token) (keyword eof : Token), keyword.kind = .kwFor →
      source.tokens = pre ++ keyword :: rest ++ [eof] →
      ∃ (loop : ForLoop) (post : List Token), keyword :: rest = loop.tokens ++ post ∧
        loop.Ends post) ∧
    ∀ (loop : ForLoop) (pre post : List Token) (eof : Token) (m : WhileMarks),
      source.tokens = pre ++ loop.tokens ++ post ++ [eof] → loop.Ends post →
      ∃ (σ : Equiv.Perm ExprId) (t' : Session),
        s.prepareTokens (pre ++ loop.unfolded m ++ post ++ [eof]) =
          (.ok (Stmt.renumberEach σ program), t') ∧
        StaysOutside σ s.nextId t.nextId ∧ t'.nextId = t.nextId ∧
        (∀ id, t'.hop? (σ id) = t.hop? id) ∧
        ∀ n, (s.runTokens n (pre ++ loop.unfolded m ++ post ++ [eof])).1 = (s.run n source).1 ∧
          (s.runTokens n (pre ++ loop.unfolded m ++ post ++ [eof])).2.sink =
            (s.run n source).2.sink := by
  obtain ⟨-, next, hops, hderives, hcounts, ht⟩ := Session.prepare_eq_ok_iff.mp h
  have hbody {ts : List Token} {eof : Token} (htokens : source.tokens = ts ++ [eof]) :
      source.body = ts ∧ eof.isEof = true := by
    rw [source.tokens_eq] at htokens
    obtain ⟨hts, heof⟩ := List.append_inj' htokens rfl
    exact ⟨hts, by rw [← (List.cons.inj heof).1]; rfl⟩
  refine ⟨fun pre rest keyword eof hkeyword htokens => ?_,
    fun loop pre post eof m htokens hpost => ?_⟩
  · rw [(hbody htokens).1] at hderives
    exact hderives.exists_loop hkeyword
  · obtain ⟨hts, heof⟩ := hbody htokens
    rw [hts] at hderives
    obtain ⟨σ, hσ, hunfolded⟩ := hderives.unfold hpost m
    have hcounts' : Stmt.hopCounts (Stmt.renumberEach σ program) =
        .ok (hops.map fun x => (σ x.1, x.2)) := by
      rw [Stmt.hopCounts_renumber, hcounts]
      rfl
    have hprepare := Session.prepareTokens_of_derives hunfolded heof hcounts'
    have hhops (id : ExprId) : (HopTable.record s.hops (hops.map fun x => (σ x.1, x.2)))[σ id]? =
        t.hop? id := by
      rw [ht]
      exact hran.hop?_renumber hσ id
    have hnext : t.nextId = next := by rw [ht]
    rw [← hnext] at hσ
    exact ⟨σ, _, hprepare, hσ, hnext.symm, hhops, hran.run_renumber h hprepare rfl hσ hhops⟩

/-- `for(var a=true;a;a=false)print a;` and `{var a=true;while(a){print a;a=false;}}` print the
same. -/
theorem for_loops_are_while_loops_once :
    let s := Session.new .unlimited fun _ => 0
    let source : Source := "for(var a=true;a;a=false)print a;".toUTF8.toList
    let unfolded : Source :=
      "\x7bvar a=true;while(a)\x7bprint a;a=false;\x7d\x7d".toUTF8.toList
    ∃ program t t' σ, s.prepare source = (.ok program, t) ∧
      s.prepare unfolded = (.ok (Stmt.renumberEach σ program), t') ∧
      (∀ id, t'.hop? (σ id) = t.hop? id) ∧
      (s.run 60 unfolded).1 = .ok ∧ (s.run 60 unfolded).1 = (s.run 60 source).1 ∧
      (s.run 60 unfolded).2.sink.written = "true\n".toUTF8 ∧
      (s.run 60 unfolded).2.sink = (s.run 60 source).2.sink := by
  intro s source unfolded
  let word (kind : Kind) (lexeme : String) : Token := ⟨kind, lexeme, 1⟩
  let a := word .identifier "a"
  let semicolon := word .semicolon ";"
  let lparen := word .leftParen "("
  let rparen := word .rightParen ")"
  let lbrace := word .leftBrace "\x7b"
  let rbrace := word .rightBrace "\x7d"
  let loop : ForLoop :=
    { keyword := word .kwFor "for"
      lparen
      init := [word .kwVar "var", a, word .equal "=", word .kwTrue "true", semicolon]
      condition := [a]
      semicolon
      increment := [a, word .equal "=", word .kwFalse "false"]
      rparen
      body := [word .kwPrint "print", a, semicolon]
      dangling := false
      keyword_kind := rfl
      lparen_kind := rfl
      init_phrase := ⟨0, _, _, .forVar (.varInit rfl rfl rfl (.of_primary (.trueWord rfl)) rfl)⟩
      condition_phrase := ⟨0, _, _, .present (.name rfl)⟩
      semicolon_kind := rfl
      increment_phrase :=
        ⟨0, _, _, .present (.assign rfl rfl (.of_primary (.falseWord rfl)))⟩
      rparen_kind := rfl
      body_phrase := ⟨0, _, _, .print rfl (.name rfl) rfl⟩ }
  let m : WhileMarks :=
    ⟨⟨word .kwWhile "while", rfl⟩, ⟨lparen, rfl⟩, ⟨word .kwTrue "true", rfl⟩, ⟨rparen, rfl⟩,
      ⟨lbrace, rfl⟩, ⟨semicolon, rfl⟩, ⟨rbrace, rfl⟩, ⟨lbrace, rfl⟩, ⟨rbrace, rfl⟩⟩
  have htokens : source.tokens = [] ++ loop.tokens ++ [] ++ [word .eof ""] := by decide +kernel
  have htokens' : unfolded.tokens = [] ++ loop.unfolded m ++ [] ++ [word .eof ""] := by
    decide +kernel
  have hlexical : unfolded.lexicalErrors = [] := by decide +kernel
  obtain ⟨program, t, hprepare, -⟩ := Session.exists_of_prepare s source (fun _ _ => true)
    (by decide +kernel)
  obtain ⟨σ, t', hprepare', -, -, hhops, hruns⟩ :=
    (for_loops_are_while_loops (.new .unlimited _) hprepare).2 loop [] [] _ m htokens nofun
  rw [← htokens', ← Session.prepare_eq_prepareTokens s hlexical] at hprepare'
  obtain ⟨houtcome, hsink⟩ := hruns 60
  rw [← htokens', ← Session.run_eq_runTokens s hlexical] at houtcome hsink
  exact ⟨program, t, t', σ, hprepare, hprepare', hhops, by decide +kernel, houtcome,
    by decide +kernel, hsink⟩

end ScriptLang
