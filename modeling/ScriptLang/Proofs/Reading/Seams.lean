import ScriptLang.Proofs.Grammar.Recognition
import ScriptLang.Proofs.Reading.Kinship

/-! Declarations one after another. A list of declarations that is read without an error leaves no
trace in how the tokens after it are read: the parser looks at one token past the end of a
declaration, and there only for an `else`. -/

namespace ScriptLang

theorem Reply.Kindred.eq_of_noting {α : Type} {r r' : Reply α}
    (h : r.Kindred (ExactKinship.noting []).toKinship Eq r') (hr : r ≠ .exhausted) : r' = r := by
  cases r with
  | exhausted => exact absurd rfl hr
  | ok a c =>
      cases r' with
      | ok a' c' =>
          obtain ⟨rfl, rfl⟩ := h
          simp [Cursor.noting]
      | fail e' c' | exhausted => exact h.elim
  | fail e c =>
      cases r' with
      | fail e' c' =>
          obtain ⟨rfl, rfl⟩ := h
          simp [Cursor.noting]
      | ok a' c' | exhausted => exact h.elim

/-- What declarations stand in, one after another. -/
inductive Listing where
  | program
  | block

namespace Listing

/-- Reads declarations up to the end of what they stand in. -/
def read : Listing → Nat → List Stmt → Parser (List Stmt)
  | .program => Parser.program
  | .block => Parser.block

/-- Whether nothing is left in it. -/
def ended : Listing → Parser Bool
  | .program => Parser.atEnd
  | .block => Parser.nextOrEnd .rightBrace

/-- Takes what ends it. -/
def close : Listing → Parser Unit
  | .program => pure ()
  | .block => do
    let _ ← Parser.expect .rightBrace .noBraceAfterBlock

variable (listing : Listing)

theorem read_succ (n : Nat) (front : List Stmt) : listing.read (n + 1) front = (do
    if ← listing.ended then
      listing.close
      pure front.reverse
    else
      let s ← Parser.recover (Parser.declaration n)
      listing.read n (s.toList ++ front)) := by
  cases listing with
  | program =>
      refine bind_congr fun found => ?_
      cases found with
      | true => rfl
      | false => exact bind_congr fun s => by cases s <;> rfl
  | block =>
      refine bind_congr fun found => ?_
      cases found with
      | true => simp [close]
      | false => exact bind_congr fun s => by cases s <;> rfl

/-- Where something is left that does not end the list, a declaration is read. -/
theorem read_eq_recover {n : Nat} {c : Cursor} {t : Token} {rest : List Token}
    (hrest : c.rest = t :: rest) (ht : t.kind ≠ .rightBrace) (front : List Stmt) :
    listing.read (n + 1) front c = (do
      let s ← Parser.recover (Parser.declaration n)
      listing.read n (s.toList ++ front)) c := by
  have hmore : listing.ended c = .ok false c := by
    cases listing with
    | program => simp [ended, Parser.atEnd, hrest]
    | block => simp [ended, Parser.nextOrEnd, hrest, ht]
  rw [read_succ, Parser.bind_of_ok hmore]
  rfl

/-- The declarations before those that are read come before them, and do nothing else. -/
theorem read_append (n : Nat) (front before : List Stmt) :
    listing.read n (front ++ before) = (before.reverse ++ ·) <$> listing.read n front := by
  induction n generalizing front with
  | zero => cases listing <;> rfl
  | succ n ih =>
      rw [read_succ, read_succ, map_bind]
      refine bind_congr fun found => ?_
      cases found with
      | true => simp
      | false =>
          simp only [Bool.false_eq_true, if_false, map_bind]
          refine bind_congr fun s => ?_
          rw [← List.append_assoc, ih]

theorem read_kindred (K : ExactKinship) (m n : Nat) (front : List Stmt) :
    Parser.Kindred K.toKinship Eq (listing.read n front) (listing.read (m + n) front) := by
  cases listing with
  | program => exact Parser.program_kindred K m n front
  | block => exact Parser.block_kindred K m n front

/-- A larger budget changes nothing once a budget suffices. -/
theorem read_eq_of_le {n m : Nat} {front : List Stmt} {c : Cursor} (hle : n ≤ m)
    (h : listing.read n front c ≠ .exhausted) :
    listing.read m front c = listing.read n front c := by
  obtain ⟨k, rfl⟩ := Nat.exists_eq_add_of_le' hle
  have hkin : (ExactKinship.noting []).Kin c c := by simp [ExactKinship.noting, Cursor.noting]
  have hreply := listing.read_kindred (.noting []) k n front c c hkin
  exact hreply.eq_of_noting h

theorem read_of_le {n m : Nat} {front ss : List Stmt} {c d : Cursor} (hle : n ≤ m)
    (h : listing.read n front c = .ok ss d) : listing.read m front c = .ok ss d :=
  (listing.read_eq_of_le hle (by simp [h])).trans h

theorem read_ne_exhausted {n : Nat} {c : Cursor} (hn : 16 * c.rest.length + 13 ≤ n)
    (front : List Stmt) : listing.read n front c ≠ .exhausted := by
  intro hread
  cases listing with
  | program =>
      have hreads := Parser.program_reads n front c
      rw [show Parser.program n front c = .exhausted from hread] at hreads
      exact absurd hreads (Nat.not_lt.mpr hn)
  | block =>
      have hreads := (Parser.readsStatements n).block front c
      rw [show Parser.block n front c = .exhausted from hread] at hreads
      exact absurd hreads (Nat.not_lt.mpr hn)

end Listing

/-! ### Declarations that are read without an error -/

theorem Symbol.Opens.stops_else {ts : List Token} (h : Symbol.declarations.Opens ts)
    {rest : List Token} (hrest : Stops (· = .kwElse) rest) : Stops (· = .kwElse) (ts ++ rest) := by
  cases ts with
  | nil => exact hrest
  | cons t ts =>
      have hkind := h.1 t rfl
      refine .cons ?_ _
      revert hkind
      cases t.kind <;> first | exact fun _ => rfl | exact fun hkind => nomatch hkind

theorem Symbol.Opens.ne_rightBrace {t : Token} {ts : List Token}
    (h : Symbol.declaration.Opens (t :: ts)) : t.kind ≠ .rightBrace := by
  intro hkind
  have hbrace := h.1 t rfl
  rw [hkind] at hbrace
  cases hbrace

namespace Listing

variable (listing : Listing)

theorem read_of_declaration {i j : ExprId} {ts : List Token} {s : Stmt}
    (h : Derives .declaration i ts s j) {n : Nat} (hn : 16 * ts.length + 12 ≤ n)
    {rest : List Token} (hrest : Stops (· = .kwElse) rest) (front : List Stmt) (eof : Token)
    (errors : List SyntaxError) :
    listing.read (n + 1) front ⟨ts ++ rest, eof, i, errors⟩ =
      listing.read n (s :: front) ⟨rest, eof, j, errors⟩ := by
  have hread := Parser.completes h n rest eof errors hn hrest
  have hopens := h.opens
  cases ts with
  | nil => exact absurd rfl (hopens.2 rfl)
  | cons t ts =>
      rw [listing.read_eq_recover rfl hopens.ne_rightBrace]
      exact Parser.bind_of_ok (Parser.recover_of_ok hread)

/-- After declarations that are read without an error reading goes on as if it began there. -/
theorem read_of_declarations {i j : ExprId} {ts : List Token} {ss : List Stmt}
    (h : Derives .declarations i ts ss j) {n : Nat} (hn : 16 * ts.length + 13 ≤ n)
    {rest : List Token} (hrest : Stops (· = .kwElse) rest) (front : List Stmt) (eof : Token)
    (errors : List SyntaxError) :
    ∃ m, n ≤ m + ts.length ∧ listing.read n front ⟨ts ++ rest, eof, i, errors⟩ =
      listing.read m (ss.reverse ++ front) ⟨rest, eof, j, errors⟩ := by
  induction ss generalizing i ts n front with
  | nil =>
      cases h
      exact ⟨n, Nat.le_refl n, rfl⟩
  | cons s ss ih =>
      cases h with
      | @declarations _ ts _ k us _ _ hfirst hothers =>
          obtain ⟨n, rfl⟩ : ∃ n', n = n' + 1 := ⟨n - 1, by omega⟩
          simp only [List.length_append] at hn
          have hpos : 0 < ts.length := List.length_pos_iff.mpr (hfirst.opens.2 rfl)
          obtain ⟨m, hm, hread⟩ := ih hothers (by omega : _ ≤ n) (s :: front)
          refine ⟨m, by simp only [List.length_append]; omega, ?_⟩
          rw [List.append_assoc, listing.read_of_declaration hfirst (by omega)
            (hothers.opens.stops_else hrest), hread, List.reverse_cons, List.append_assoc]
          rfl

end Listing

/-! ### Programs -/

/-- A program is read to its end token, within every budget that is large enough. -/
theorem Parser.program_stops (body : List Token) (eof : Token) (first : ExprId) :
    ∃ ss c, (∀ n ≥ Parsed.budget body.length,
        Parser.program n [] ⟨body, eof, first, []⟩ = .ok ss c) ∧ c.rest = [] ∧ c.eof = eof := by
  obtain ⟨ss, c, hread, -⟩ := Parser.program_ends body eof first
  have hreads := Parser.program_reads (Parsed.budget body.length) [] ⟨body, eof, first, []⟩
  rw [hread] at hreads
  obtain ⟨-, -, ⟨ts, htook, -⟩, hend⟩ := hreads
  exact ⟨ss, c, fun n hn => Listing.program.read_of_le hn hread, hend, htook.eof⟩

namespace Parsed

/-- What comes after tokens without an end token decides what ends them. -/
theorem ofTokens_append {front : List Token} (hfront : ∀ t ∈ front, t.isEof = false)
    (tokens : List Token) : (front ++ tokens).takeWhile (!·.isEof) =
        front ++ tokens.takeWhile (!·.isEof) ∧
      (front ++ tokens).find? Token.isEof = tokens.find? Token.isEof := by
  constructor
  · rw [List.takeWhile_append_of_pos]
    simpa using hfront
  · rw [List.find?_append, List.find?_eq_none.mpr (by simpa using hfront), Option.none_or]

/-- A list of declarations before tokens is read before them, and changes neither what else is
read, nor an error, nor an id. -/
theorem ofTokens_of_declarations {first next : ExprId} {front : List Token} {ss : Program}
    (h : Derives .declarations first front ss next) (hfront : ∀ t ∈ front, t.isEof = false)
    {tokens : List Token} (helse : Stops (· = .kwElse) tokens) :
    ofTokens (front ++ tokens) first =
      ⟨(ofTokens tokens next).program.map (ss ++ ·), (ofTokens tokens next).nextId⟩ := by
  have hrest : Stops (· = .kwElse) (tokens.takeWhile (!·.isEof)) := by
    cases tokens with
    | nil => exact helse
    | cons t tokens =>
        rw [List.takeWhile_cons]
        split
        · exact helse
        · exact nofun
  obtain ⟨htake, hfind⟩ := ofTokens_append hfront tokens
  simp only [ofTokens, htake, hfind]
  generalize tokens.takeWhile (!·.isEof) = rest at hrest ⊢
  generalize (tokens.find? Token.isEof).getD ⟨.eof, "", 0⟩ = eof
  obtain ⟨others, c, hread, -, -⟩ := Parser.program_ends rest eof next
  obtain ⟨m, hm, hseam⟩ := Listing.program.read_of_declarations h
    (n := budget (front ++ rest).length)
    (by simp only [budget, List.length_append]; omega) hrest [] eof []
  have hle : budget rest.length ≤ m := by
    simp only [budget, List.length_append] at hm ⊢
    omega
  have hwhole : Parser.program (budget (front ++ rest).length) [] ⟨front ++ rest, eof, first, []⟩ =
      .ok (ss ++ others) c := by
    refine hseam.trans ?_
    rw [← List.nil_append (ss.reverse ++ []), Listing.read_append]
    refine (Parser.map_of_ok (Listing.program.read_of_le hle hread)).trans ?_
    simp
  rw [hwhole, hread]
  by_cases herrors : c.errors.isEmpty <;> simp [herrors, Except.map]

end Parsed

/-- Where some tokens are a program with the statements `ss` and `used` ids, any tokens after them
that do not begin with `else` are read as they are on their own, from the next id on: with the same
statements, now after `ss`, or with the same errors, and with the same next id. -/
theorem program_before_tokens (front tokens : List Token) (eof : Token) (first used : ExprId)
    (ss : Program) (hfront : ∀ t ∈ front, t.isEof = false) (heof : eof.isEof = true)
    (hread : Parsed.ofTokens (front ++ [eof]) first = ⟨.ok ss, first + used⟩)
    (helse : ∀ t ∈ tokens.head?, t.kind ≠ .kwElse) :
    Parsed.ofTokens (front ++ tokens) first =
      ⟨(Parsed.ofTokens tokens (first + used)).program.map (ss ++ ·),
        (Parsed.ofTokens tokens (first + used)).nextId⟩ :=
  Parsed.ofTokens_of_declarations ((Parsed.ofTokens_eq_ok_iff hfront heof).mp hread) hfront
    fun t ht => decide_eq_false (helse t ht)

/-- `if (a) b;` before `); c;`, where the first token is an error. -/
theorem program_before_tokens_rejected :
    let word (kind : Kind) (lexeme : String) : Token := ⟨kind, lexeme, 1⟩
    let a := word .identifier "a"
    let b := word .identifier "b"
    let semicolon := word .semicolon ";"
    let paren := word .rightParen ")"
    let eof := word .eof ""
    let front := word .kwIf "if" :: word .leftParen "(" :: [a] ++ paren :: [b, semicolon]
    let tokens := [paren, semicolon, word .identifier "c", semicolon, eof]
    Parsed.ofTokens (front ++ [eof]) 0 =
      ⟨.ok [.ifThen (.variable 0 a) (.expression (.variable 1 b))], 2⟩ ∧
    Parsed.ofTokens (front ++ tokens) 0 = ⟨.error [⟨paren, .noExpression⟩], 3⟩ := by
  intro word a b semicolon paren eof front tokens
  have hfront : ∀ t ∈ front, t.isEof = false := by
    simp [front, word, a, b, semicolon, paren, Token.isEof]
  have hbranch : Derives (.statement false) 1 [b, semicolon] (.expression (.variable 1 b)) 2 :=
    .exprStatement (.exprStmt (.name rfl) rfl)
  have hif : Derives (.statement true) 0 front _ 2 := .ifThen false rfl rfl (.name rfl) rfl hbranch
  have hprogram := Derives.declarations (.statement true hif) .noDeclarations
  rw [List.append_nil] at hprogram
  have hread : Parsed.ofTokens (front ++ [eof]) 0 =
      ⟨.ok [.ifThen (.variable 0 a) (.expression (.variable 1 b))], 0 + 2⟩ :=
    (Parsed.ofTokens_eq_ok_iff hfront rfl).mpr hprogram
  refine ⟨hread, (program_before_tokens front tokens eof 0 2 _ hfront rfl hread ?_).trans rfl⟩
  simp [tokens, paren, word]

end ScriptLang
