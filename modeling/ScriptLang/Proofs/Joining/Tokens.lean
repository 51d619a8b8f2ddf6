import ScriptLang.Proofs.Scanning

/-! The tokens of a script that goes on after a line end. A line end extends no piece before it,
except a string that is not closed yet, so the tokens are those of the two parts, the second part
moved down. -/

namespace ScriptLang

/-- A token this many lines further down. -/
def Token.down (t : Token) (lines : Nat) : Token := { t with line := t.line + lines }

namespace Piece

/-- A split of a script with more bytes after its end. -/
def Split.followed (s : Split) (more : List UInt8) : Split := (s.1, s.2 ++ more)

section Line

variable (b : UInt8) (rest more : List UInt8)

theorem takeWhile_line {p : UInt8 → Bool} (hp : p newline = false) :
    (rest ++ newline :: more).takeWhile p = rest.takeWhile p := by
  induction rest with
  | nil => simp [hp]
  | cons c rest ih => simp [List.takeWhile_cons, ih]

theorem dropWhile_line {p : UInt8 → Bool} (hp : p newline = false) :
    (rest ++ newline :: more).dropWhile p = rest.dropWhile p ++ newline :: more := by
  induction rest with
  | nil => simp [hp]
  | cons c rest ih =>
      simp only [List.cons_append, List.dropWhile_cons, ih]
      split <;> rfl

theorem withEqual_line (alone doubled : Kind) :
    withEqual alone doubled b (rest ++ newline :: more) =
      (withEqual alone doubled b rest).followed (newline :: more) := by
  have hne : newline ≠ byte '=' := by decide
  cases rest with
  | nil => simp [withEqual, hne, single, Split.followed]
  | cons c after =>
      simp only [List.cons_append, withEqual]
      split <;> rfl

theorem slash_line :
    slash b (rest ++ newline :: more) = (slash b rest).followed (newline :: more) := by
  have hne : newline ≠ byte '/' := by decide
  have hline : inLine newline = false := by decide
  cases rest with
  | nil => simp [slash, hne, single, Split.followed]
  | cons c after =>
      simp only [List.cons_append, slash, takeWhile_line _ _ hline, dropWhile_line _ _ hline]
      split <;> rfl

/-- A string goes on over the line end only if it is not closed before. -/
theorem string_line (h : (string b rest).1.shape ≠ .error .unterminatedString) :
    string b (rest ++ newline :: more) = (string b rest).followed (newline :: more) := by
  cases hdrop : rest.dropWhile inQuotes with
  | nil => simp [string, hdrop] at h
  | cons closing after =>
      have htake : (rest.takeWhile inQuotes).length ≠ rest.length := by
        have happ := List.takeWhile_append_dropWhile (p := inQuotes) (l := rest)
        have hlength := congrArg List.length happ
        simp only [hdrop, List.length_append, List.length_cons] at hlength
        omega
      simp [string, List.takeWhile_append, List.dropWhile_append, hdrop, htake, Split.followed]

theorem number_line :
    number b (rest ++ newline :: more) = (number b rest).followed (newline :: more) := by
  have hpoint : newline ≠ byte '.' := by decide
  have hdigit : isDigit newline = false := by decide
  simp only [number, takeWhile_line _ _ hdigit, dropWhile_line _ _ hdigit]
  cases rest.dropWhile isDigit with
  | nil => cases more <;> simp [hpoint, Split.followed]
  | cons point after =>
      cases after with
      | nil => simp [hdigit, Split.followed]
      | cons d tail =>
          simp only [List.cons_append, takeWhile_line _ _ hdigit, dropWhile_line _ _ hdigit]
          split <;> rfl

theorem word_line :
    word b (rest ++ newline :: more) = (word b rest).followed (newline :: more) := by
  have hword : isWordByte newline = false := by decide
  simp [word, takeWhile_line _ _ hword, dropWhile_line _ _ hword, Split.followed]

theorem unexpected_line :
    unexpected b (rest ++ newline :: more) = (unexpected b rest).followed (newline :: more) := by
  have hcontinuation : isContinuation newline = false := by decide
  simp only [unexpected, takeWhile_line _ _ hcontinuation, dropWhile_line _ _ hcontinuation]
  split <;> rfl

theorem split_line (h : (split b rest).1.shape ≠ .error .unterminatedString) :
    split b (rest ++ newline :: more) = (split b rest).followed (newline :: more) := by
  obtain ⟨form, hform, hsplit⟩ := split_form b
  rw [hsplit] at h
  rw [hsplit, hsplit]
  cases hform with
  | blank | punctuation => rfl
  | bang | equal | less | greater => exact withEqual_line b rest more _ _
  | slash => exact slash_line b rest more
  | string => exact string_line b rest more h
  | number => exact number_line b rest more
  | word => exact word_line b rest more
  | unexpected => exact unexpected_line b rest more

theorem split_newline : split newline rest = (⟨.skipped, [newline]⟩, rest) := by
  simp [split, isBlank, single]

end Line

theorem body_append (line : Nat) (ps qs : List Piece) :
    body line (ps ++ qs) =
      body line ps ++ body (line + newlines (ps.flatMap (·.bytes))) qs := by
  induction ps generalizing line with
  | nil => rfl
  | cons p ps ih => simp [body, ih, newlines, Nat.add_assoc]

end Piece

namespace ScanItem

/-- An item this many lines further down. -/
def down (lines : Nat) : ScanItem → ScanItem
  | .token t => .token (t.down lines)
  | .error e => .error { e with line := e.line + lines }

theorem token?_down (lines : Nat) (item : ScanItem) :
    (item.down lines).token? = item.token?.map (·.down lines) := by
  cases item <;> rfl

theorem error?_down (lines : Nat) (item : ScanItem) :
    (item.down lines).error? = none ↔ item.error? = none := by
  cases item <;> simp [down, error?]

end ScanItem

theorem Piece.item?_down (p : Piece) (line lines : Nat) :
    p.item? (line + lines) = (p.item? line).map (·.down lines) := by
  unfold item?
  split <;> rfl

theorem Piece.body_down (line lines : Nat) (ps : List Piece) :
    body (line + lines) ps = (body line ps).map (·.down lines) := by
  induction ps generalizing line with
  | nil => rfl
  | cons p ps ih =>
      have hline : line + lines + newlines p.bytes = line + newlines p.bytes + lines := by omega
      rw [body, body, hline, ih, item?_down, List.map_append]
      cases p.item? (line + newlines p.bytes) <;> rfl

namespace Source

variable {source first more : Source}

theorem pieces_line (h : ∀ p ∈ first.pieces, p.shape ≠ .error .unterminatedString) :
    (first ++ newline :: more).pieces = first.pieces ++ ⟨.skipped, [newline]⟩ :: more.pieces := by
  induction hn : first.length using Nat.strongRecOn generalizing first with
  | ind n ih =>
      subst hn
      cases first with
      | nil => rw [List.nil_append, pieces_cons, Piece.split_newline, pieces_nil, List.nil_append]
      | cons b rest =>
          rw [pieces_cons] at h
          have hsplit := Piece.split_line b rest more (h _ (by simp))
          have hrest := ih _ (Piece.split_snd_length b rest) (fun p hp => h p (by simp [hp])) rfl
          rw [List.cons_append, pieces_cons, hsplit, pieces_cons, Piece.Split.followed]
          simp [hrest]

/-! ### Line ends between scripts -/

/-- Without lexical errors no piece is one. -/
theorem shape_ne_error (h : first.lexicalErrors = []) (cause : LexicalCause) :
    ∀ p ∈ first.pieces, p.shape ≠ .error cause := by
  have hbody (ps : List Piece) (line : Nat)
      (herrors : ∀ item ∈ Piece.body line ps, item.error? = none) :
      ∀ p ∈ ps, p.shape ≠ .error cause := by
    induction ps generalizing line with
    | nil => simp
    | cons p ps ih =>
        simp only [Piece.body, List.mem_append, or_imp, forall_and] at herrors
        intro q hq hshape
        rcases List.mem_cons.mp hq with rfl | hq
        · have hitem (line : Nat) : q.item? line = some (.error ⟨line, cause⟩) := by
            simp only [Piece.item?, hshape]
          cases herrors.1 _ (Option.mem_toList.mpr (hitem _))
        · exact ih _ herrors.2 q hq hshape
  exact hbody first.pieces 1 (lexicalErrors_eq_nil_iff.mp h)

theorem pieceBody_line (h : first.lexicalErrors = []) :
    Piece.body 1 (first ++ newline :: more).pieces = Piece.body 1 first.pieces ++
      (Piece.body 1 more.pieces).map (·.down (newlines first + 1)) := by
  have hone : newlines [newline] = 1 := rfl
  rw [pieces_line (shape_ne_error h _), Piece.body_append, pieces_bytes, ← Piece.body_down]
  simp [Piece.body, Piece.item?, hone, Nat.add_assoc]

/-- A script that goes on after a line end has the tokens of both parts. -/
theorem body_line (h : first.lexicalErrors = []) :
    (first ++ newline :: more).body =
      first.body ++ more.body.map (·.down (newlines first + 1)) := by
  simp only [body, pieceBody_line h, List.filterMap_append, List.filterMap_map, List.map_filterMap]
  congr
  funext item
  exact item.token?_down _

theorem lexicalErrors_line (h : first.lexicalErrors = []) :
    (first ++ newline :: more).lexicalErrors = [] ↔ more.lexicalErrors = [] := by
  rw [lexicalErrors_eq_nil_iff, lexicalErrors_eq_nil_iff, pieceBody_line h]
  simp only [List.mem_append, List.mem_map, or_imp, forall_and, forall_exists_index, and_imp,
    forall_apply_eq_imp_iff₂, ScanItem.error?_down]
  exact ⟨And.right, fun hmore => ⟨lexicalErrors_eq_nil_iff.mp h, hmore⟩⟩

/-- Empty lines. -/
def blank (lines : Nat) : Source := List.replicate lines newline

/-- Empty lines before a script only move it down. -/
theorem blank_append (lines : Nat) (more : Source) :
    (blank lines ++ more).body = more.body.map (·.down lines) ∧
      ((blank lines ++ more).lexicalErrors = [] ↔ more.lexicalErrors = []) := by
  induction lines with
  | zero => exact ⟨(List.map_id _).symm, Iff.rfl⟩
  | succ lines ih =>
      have hnil : lexicalErrors [] = [] := by simp [lexicalErrors_eq_nil_iff, Piece.body]
      have hsplit : blank (lines + 1) ++ more = [] ++ newline :: (blank lines ++ more) := rfl
      rw [hsplit, body_line hnil, lexicalErrors_line hnil, ih.1, List.map_map]
      refine ⟨?_, ih.2⟩
      simp [body, Piece.body, newlines, Token.down, Function.comp_def, Nat.add_assoc]

end Source

end ScriptLang
