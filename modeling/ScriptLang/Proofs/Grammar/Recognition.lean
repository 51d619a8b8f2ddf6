import ScriptLang.Proofs.Grammar.Completeness

/-! Reading a whole program recognizes the grammar: what it accepts are the phrases of the
grammar, and what it returns for them are their trees. -/

namespace ScriptLang

/-- The budget is never used up: a program is always read to its end, and is a phrase if no error
was noted on the way. -/
theorem Parser.program_ends (body : List Token) (eof : Token) (first : ExprId) :
    ∃ program c, Parser.program (Parsed.budget body.length) [] ⟨body, eof, first, []⟩ =
      .ok program c ∧ first ≤ c.nextId ∧
      (c.errors = [] → Derives .declarations first body program c.nextId) := by
  have h := Parser.program_reads (Parsed.budget body.length) [] ⟨body, eof, first, []⟩
  cases hread : Parser.program (Parsed.budget body.length) [] ⟨body, eof, first, []⟩ with
  | ok program c =>
      rw [hread] at h
      obtain ⟨rest, hprogram, ⟨ts, htook, -, hderives⟩, hend⟩ := h
      obtain rfl : program = rest := by simpa using hprogram
      obtain rfl : body = ts := by simpa [hend] using htook.rest
      exact ⟨program, c, rfl, htook.ids, hderives⟩
  | fail e c =>
      rw [hread] at h
      exact h.elim
  | exhausted =>
      rw [hread] at h
      have hbudget : Parsed.budget body.length < 16 * body.length + 13 := h
      simp only [Parsed.budget] at hbudget
      omega

namespace Parsed

/-- What reading tokens gives: the tree of a phrase made of those before the end token, or
errors. -/
theorem ofTokens_spec (tokens : List Token) (first : ExprId) :
    first ≤ (ofTokens tokens first).nextId ∧
      (∀ program, (ofTokens tokens first).program = .ok program →
        Derives .declarations first (tokens.takeWhile (!·.isEof)) program
          (ofTokens tokens first).nextId) ∧
      ∀ errors, (ofTokens tokens first).program = .error errors → errors ≠ [] := by
  obtain ⟨program, c, hread, hle, hderives⟩ := Parser.program_ends
    (tokens.takeWhile (!·.isEof)) ((tokens.find? Token.isEof).getD ⟨.eof, "", 0⟩) first
  have hparsed : ofTokens tokens first =
      ⟨if c.errors.isEmpty then .ok program else .error c.errors.reverse, c.nextId⟩ := by
    simp [ofTokens, hread]
  rw [hparsed]
  by_cases herrors : c.errors = []
  · refine ⟨hle, fun program' haccepted => ?_, fun errors hrejected => ?_⟩
    · obtain rfl : program = program' := by simpa [herrors] using haccepted
      exact hderives herrors
    · simp [herrors] at hrejected
  · refine ⟨hle, fun program' haccepted => ?_, fun errors hrejected => ?_⟩
    · simp [herrors] at haccepted
    · obtain rfl : c.errors.reverse = errors := by simpa [herrors] using hrejected
      simpa using herrors

/-- Tokens are read as a tree if those before the end token are a phrase that stands for it. -/
theorem ofTokens_ok_iff {tokens : List Token} {first next : ExprId} {program : Program} :
    ofTokens tokens first = ⟨.ok program, next⟩ ↔
      Derives .declarations first (tokens.takeWhile (!·.isEof)) program next := by
  refine ⟨fun haccepted => ?_, fun h => ?_⟩
  · have hderives := (ofTokens_spec tokens first).2.1
    rw [haccepted] at hderives
    exact hderives program rfl
  · have hread := (Parser.completes h).1 (budget (tokens.takeWhile (!·.isEof)).length) []
      ((tokens.find? Token.isEof).getD ⟨.eof, "", 0⟩) (by simp only [budget]; omega)
    simp [ofTokens, hread]

theorem takeWhile_body {body : List Token} {eof : Token} (hbody : ∀ t ∈ body, t.isEof = false)
    (heof : eof.isEof = true) : (body ++ [eof]).takeWhile (!·.isEof) = body := by
  rw [List.takeWhile_append_of_pos (by simpa using hbody)]
  simp [heof]

theorem ofTokens_eq_ok_iff {body : List Token} {eof : Token} {first next : ExprId}
    {program : Program} (hbody : ∀ t ∈ body, t.isEof = false) (heof : eof.isEof = true) :
    ofTokens (body ++ [eof]) first = ⟨.ok program, next⟩ ↔
      Derives .declarations first body program next := by
  rw [ofTokens_ok_iff, takeWhile_body hbody heof]

end Parsed

/-- A list of tokens with its one end token last is accepted exactly if the tokens before the end
are derivable as declarations, and the tree and the next id are then those of the derivation. If
they are not derivable, errors are reported. -/
theorem parses_iff_derives (body : List Token) (eof : Token) (first : ExprId)
    (hbody : ∀ t ∈ body, t.isEof = false) (heof : eof.isEof = true) :
    (∀ program next, Parsed.ofTokens (body ++ [eof]) first = ⟨.ok program, next⟩ ↔
      Derives .declarations first body program next) ∧
    ((¬ ∃ program next, Derives .declarations first body program next) →
      ∃ errors, errors ≠ [] ∧ (Parsed.ofTokens (body ++ [eof]) first).program = .error errors) := by
  refine ⟨fun program next => Parsed.ofTokens_eq_ok_iff hbody heof, fun hnone => ?_⟩
  obtain ⟨-, hderives, herrors⟩ := Parsed.ofTokens_spec (body ++ [eof]) first
  rw [Parsed.takeWhile_body hbody heof] at hderives
  cases hparsed : (Parsed.ofTokens (body ++ [eof]) first).program with
  | ok program => exact absurd ⟨program, _, hderives program hparsed⟩ hnone
  | error errors => exact ⟨errors, herrors errors hparsed, rfl⟩

theorem Derives.of_primary {i j : ExprId} {ts : List Token} {e : Expr}
    (h : Derives .primary i ts e j) : Derives .expression i ts e j :=
  .operation <| .tighter <| .tighter <| .tighter <| .tighter <| .tighter <| .tighter <|
    .operand <| .call <| .callee h

theorem Derives.name {i : ExprId} {t : Token} (ht : t.kind = .identifier) :
    Derives .expression i [t] (.variable i t) (i + 1) :=
  .of_primary (.reference ht)

/-- `if (a) if (b) a; else b;` gives the `else` to the inner `if`. -/
theorem parses_iff_derives_dangling_else :
    let word (kind : Kind) (lexeme : String) : Token := ⟨kind, lexeme, 1⟩
    let a := word .identifier "a"
    let b := word .identifier "b"
    let semicolon := word .semicolon ";"
    let when (t : Token) (ts : List Token) :=
      word .kwIf "if" :: word .leftParen "(" :: [t] ++ word .rightParen ")" :: ts
    let body := when a (when b [a, semicolon] ++ word .kwElse "else" :: [b, semicolon])
    (∀ t ∈ body, t.isEof = false) ∧ Parsed.ofTokens (body ++ [word .eof ""]) 0 =
      ⟨.ok [.ifThen (.variable 0 a) (.ifElse (.variable 1 b) (.expression (.variable 2 a))
        (.expression (.variable 3 b)))], 4⟩ := by
  intro word a b semicolon when body
  have hbody : ∀ t ∈ body, t.isEof = false := by
    simp [body, when, word, a, b, semicolon, Token.isEof]
  have hstatement (i : ExprId) (t : Token) (ht : t.kind = .identifier) :
      Derives (.statement false) i [t, semicolon] (.expression (.variable i t)) (i + 1) :=
    .exprStatement (.exprStmt (.name ht) rfl)
  have hinner : Derives (.statement false) 1
      (when b [a, semicolon] ++ word .kwElse "else" :: [b, semicolon]) _ 4 :=
    .ifElse rfl rfl (.name rfl) rfl (hstatement 2 a rfl) rfl (hstatement 3 b rfl)
  have houter : Derives (.statement true) 0 body _ 4 := .ifThen false rfl rfl (.name rfl) rfl hinner
  have hprogram := Derives.declarations (.statement true houter) .noDeclarations
  rw [List.append_nil] at hprogram
  exact ⟨hbody, ((parses_iff_derives body (word .eof "") 0 hbody rfl).1 _ 4).mpr hprogram⟩

end ScriptLang
