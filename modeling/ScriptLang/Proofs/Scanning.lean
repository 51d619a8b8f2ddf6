import ScriptLang.Scan

/-! The tokens of a script, piece by piece. -/

namespace ScriptLang

/-- A name that is none of the words a method finds its instance and superclass under. -/
def Token.IsPlain (t : Token) : Prop := t.lexeme ≠ "this" ∧ t.lexeme ≠ "super"

/-- A token whose kind and text fit, as far as names go. -/
structure Token.Fits (t : Token) : Prop where
  plain : t.kind = .identifier → t.IsPlain
  this : t.kind = .kwThis → t.lexeme = "this"
  super : t.kind = .kwSuper → t.lexeme = "super"

theorem Kind.mem_keywords_of_ofWord {word : String} {kind : Kind} (h : ofWord word = kind)
    (hkind : kind ≠ .identifier) : (word, kind) ∈ keywords := by
  unfold ofWord at h
  cases hlookup : keywords.lookup word with
  | none =>
      rw [hlookup] at h
      exact absurd h.symm hkind
  | some found =>
      obtain rfl : found = kind := by simpa [hlookup] using h
      obtain ⟨front, rest, hsplit, -⟩ := List.lookup_eq_some_iff.mp hlookup
      simp [hsplit]

/-- A word is a name unless it is a keyword, and then its kind is its own. -/
theorem Token.fits_of_word (word : String) (line : Nat) : Fits ⟨Kind.ofWord word, word, line⟩ where
  plain h := by
    have hthis : Kind.ofWord "this" ≠ .identifier := by decide
    have hsuper : Kind.ofWord "super" ≠ .identifier := by decide
    exact ⟨fun hword => hthis (hword ▸ h), fun hword => hsuper (hword ▸ h)⟩
  this h := by
    have := Kind.mem_keywords_of_ofWord h (by decide)
    simpa [Kind.keywords] using this
  super h := by
    have := Kind.mem_keywords_of_ofWord h (by decide)
    simpa [Kind.keywords] using this

/-- The kinds of words. -/
def Kind.isWord (kind : Kind) : Bool :=
  kind = .identifier || kind = .kwThis || kind = .kwSuper

theorem Token.fits_of_not_isWord {kind : Kind} (h : kind.isWord = false) (lexeme : String)
    (line : Nat) : Fits ⟨kind, lexeme, line⟩ := by
  simp only [Kind.isWord, Bool.or_eq_false_iff, decide_eq_false_iff_not] at h
  exact ⟨fun hkind => absurd hkind h.1.1, fun hkind => absurd hkind h.1.2,
    fun hkind => absurd hkind h.2⟩

theorem Kind.ofWord_ne_eof (word : String) : Kind.ofWord word ≠ .eof := by
  intro h
  have := Kind.mem_keywords_of_ofWord h (by decide)
  simp [Kind.keywords] at this

theorem newlines_append (a b : List UInt8) : newlines (a ++ b) = newlines a + newlines b :=
  List.count_append

namespace Piece

theorem punctuation?_kind {b : UInt8} {kind : Kind} (h : punctuation? b = some kind) :
    kind.isWord = false ∧ kind ≠ .eof := by
  have hite {condition : Prop} [Decidable condition] {k : Kind} {o : Option Kind}
      (hk : k.isWord = false ∧ k ≠ .eof) (ho : o = some kind → kind.isWord = false ∧ kind ≠ .eof) :
      (if condition then some k else o) = some kind → kind.isWord = false ∧ kind ≠ .eof := by
    split
    · rintro ⟨⟩
      exact hk
    · exact ho
  revert h
  unfold punctuation?
  iterate 10 refine hite ⟨rfl, nofun⟩ ?_
  exact nofun

theorem withEqual_shape (alone doubled : Kind) (b : UInt8) (rest : List UInt8) :
    (withEqual alone doubled b rest).1.shape = .token alone ∨
      (withEqual alone doubled b rest).1.shape = .token doubled := by
  unfold withEqual
  repeat' split
  · exact .inl rfl
  · exact .inr rfl
  · exact .inl rfl

/-- The token of a piece is no word and not the end token, or its text decides its kind. -/
theorem split_kind (b : UInt8) (rest : List UInt8) {kind : Kind}
    (h : (split b rest).1.shape = .token kind) :
    kind.isWord = false ∧ kind ≠ .eof ∨
      kind = Kind.ofWord (Utf8.decode (split b rest).1.bytes) := by
  obtain ⟨form, hform, hsplit⟩ := split_form b
  rw [hsplit] at h ⊢
  cases hform with
  | blank => cases h
  | punctuation hkind =>
      cases h
      exact .inl (punctuation?_kind hkind)
  | bang | equal | less | greater =>
      rcases withEqual_shape _ _ b rest with hshape | hshape <;> cases hshape.symm.trans h <;>
        exact .inl ⟨rfl, nofun⟩
  | slash =>
      unfold slash at h
      repeat' split at h
      all_goals
        cases h <;> exact .inl ⟨rfl, nofun⟩
  | string =>
      unfold string at h
      simp only at h
      split at h <;> cases h
      exact .inl ⟨rfl, nofun⟩
  | number =>
      unfold number at h
      simp only at h
      repeat' split at h
      all_goals
        cases h
        exact .inl ⟨rfl, nofun⟩
  | word => exact .inr (Shape.token.inj h).symm
  | unexpected =>
      unfold unexpected at h
      split at h <;> cases h

/-- The items of pieces that begin on `line`. -/
def body : Nat → List Piece → List ScanItem
  | _, [] => []
  | line, p :: ps =>
    (p.item? (line + newlines p.bytes)).toList ++ body (line + newlines p.bytes) ps

theorem mem_body {line : Nat} {ps : List Piece} {item : ScanItem} (h : item ∈ body line ps) :
    ∃ p ∈ ps, ∃ last, p.item? last = some item := by
  induction ps generalizing line with
  | nil => cases h
  | cons p ps ih =>
      rcases List.mem_append.mp h with h | h
      · exact ⟨p, List.mem_cons_self, _, Option.mem_toList.mp h⟩
      · obtain ⟨q, hq, hitem⟩ := ih h
        exact ⟨q, List.mem_cons_of_mem p hq, hitem⟩

end Piece

namespace ScanItem

def token? : ScanItem → Option Token
  | .token t => some t
  | .error _ => none

def error? : ScanItem → Option LexicalError
  | .token _ => none
  | .error e => some e

end ScanItem

namespace Source

variable {source : Source}

theorem pieces_bytes (source : Source) : source.pieces.flatMap (·.bytes) = source := by
  induction hn : source.length using Nat.strongRecOn generalizing source with
  | ind n ih =>
      subst hn
      cases source with
      | nil => simp
      | cons b rest =>
          have hrest := ih _ (Piece.split_snd_length b rest) _ rfl
          rw [pieces_cons, List.flatMap_cons, hrest]
          exact (Piece.split_tiles b rest).1

theorem mem_pieces {p : Piece} (h : p ∈ source.pieces) : ∃ b rest, p = (Piece.split b rest).1 := by
  induction hn : source.length using Nat.strongRecOn generalizing source with
  | ind n ih =>
      subst hn
      cases source with
      | nil => simp at h
      | cons b rest =>
          rw [pieces_cons] at h
          rcases List.mem_cons.mp h with rfl | h
          · exact ⟨b, rest, rfl⟩
          · exact ih _ (Piece.split_snd_length b rest) h rfl

theorem foldl_push_finish (ps : List Piece) (line : Nat) (front : List ScanItem) :
    (ps.foldl ScanState.push ⟨line, front⟩).finish = front.reverse ++ (Piece.body line ps ++
      [.token ⟨.eof, "", line + newlines (ps.flatMap (·.bytes))⟩]) := by
  induction ps generalizing line front with
  | nil => simp [ScanState.finish, Piece.body, newlines]
  | cons p ps ih =>
      rw [List.foldl_cons, ScanState.push, ih, List.flatMap_cons, newlines_append]
      cases h : p.item? (line + newlines p.bytes) <;> simp [Piece.body, h, Nat.add_assoc]

theorem scan_eq (source : Source) : source.scan =
    Piece.body 1 source.pieces ++ [.token ⟨.eof, "", 1 + newlines source⟩] := by
  rw [scan, foldl_push_finish, pieces_bytes, List.reverse_nil, List.nil_append]

/-- The tokens of a script before its end token. -/
def body (source : Source) : List Token := (Piece.body 1 source.pieces).filterMap (·.token?)

theorem tokens_eq (source : Source) :
    source.tokens = source.body ++ [⟨.eof, "", 1 + newlines source⟩] := by
  have htokens : source.tokens = source.scan.filterMap (·.token?) := rfl
  rw [htokens, scan_eq, List.filterMap_append]
  rfl

theorem mem_tokens {t : Token} (h : t ∈ source.body) : t ∈ source.tokens := by
  rw [source.tokens_eq]
  exact List.mem_append_left _ h

theorem lexicalErrors_eq_nil_iff :
    source.lexicalErrors = [] ↔ ∀ item ∈ Piece.body 1 source.pieces, item.error? = none := by
  have herrors : source.lexicalErrors = source.scan.filterMap (·.error?) := rfl
  rw [herrors, scan_eq, List.filterMap_eq_nil_iff]
  simp [ScanItem.error?, or_imp, forall_and]

theorem mem_body {t : Token} (h : t ∈ source.body) : ∃ b rest,
    (Piece.split b rest).1.shape = .token t.kind ∧
      t.lexeme = Utf8.decode (Piece.split b rest).1.bytes := by
  obtain ⟨item, hitem, htoken⟩ := List.mem_filterMap.mp h
  obtain ⟨p, hp, line, hitem⟩ := Piece.mem_body hitem
  obtain ⟨b, rest, rfl⟩ := mem_pieces hp
  refine ⟨b, rest, ?_⟩
  unfold Piece.item? at hitem
  split at hitem <;> cases hitem <;> cases htoken
  exact ⟨‹_›, rfl⟩

theorem isEof_of_mem_body {t : Token} (h : t ∈ source.body) : t.isEof = false := by
  obtain ⟨b, rest, hshape, -⟩ := mem_body h
  refine decide_eq_false ?_
  rcases Piece.split_kind b rest hshape with ⟨-, hne⟩ | hword
  · exact hne
  · rw [hword]
    exact Kind.ofWord_ne_eof _

/-- The tokens of a script have kinds that fit their text. -/
theorem tokens_fit (source : Source) : ∀ t ∈ source.tokens, t.Fits := by
  intro t ht
  rw [tokens_eq] at ht
  rcases List.mem_append.mp ht with ht | ht
  · obtain ⟨b, rest, hshape, hlexeme⟩ := mem_body ht
    obtain ⟨kind, lexeme, line⟩ := t
    rcases Piece.split_kind b rest hshape with ⟨hsymbol, -⟩ | hword
    · exact Token.fits_of_not_isWord hsymbol lexeme line
    · obtain rfl : lexeme = _ := hlexeme
      obtain rfl : kind = _ := hword
      exact Token.fits_of_word _ line
  · rw [List.mem_singleton.mp ht]
    exact Token.fits_of_not_isWord rfl "" _

end Source

end ScriptLang
