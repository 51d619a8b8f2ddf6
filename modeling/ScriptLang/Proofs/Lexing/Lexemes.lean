import ScriptLang.Proofs.Lexing.Decoding
import ScriptLang.Proofs.Lexing.Scanner

/-! Tokens written out. The texts of the tokens of a script, with a space between any two, are a
script with the same tokens: a space ends every token, and a string that was read from bytes which
are no text is written as the text that stands for them. -/

namespace ScriptLang

def space : UInt8 := byte ' '

/-! ### The bytes of lexemes -/

namespace Utf8

theorem chars_ascii {b : UInt8} (hb : b < 0x80) (bytes : List UInt8) :
    chars .idle (b :: bytes) = Char.ofNat b.toNat :: chars .idle bytes :=
  chars_append_ascii hb bytes [] (show State.idle.Reached from trivial)

/-- A string between its quotes is decoded like its contents. -/
theorem decode_quoted (contents : List UInt8) :
    decode (quote :: contents ++ [quote]) = "\"" ++ decode contents ++ "\"" := by
  have hquote : quote < 0x80 := by decide
  have hchar : Char.ofNat quote.toNat = '"' := by decide
  have hclosing : chars .idle (contents ++ [quote]) = chars .idle contents ++ ['"'] := by
    rw [chars_append_ascii hquote [] contents (show State.idle.Reached from trivial), hchar]
    rfl
  have hquoted : chars .idle (quote :: contents ++ [quote]) =
      '"' :: (chars .idle contents ++ ['"']) := by
    rw [List.cons_append, chars_ascii hquote, hclosing, hchar]
  rw [decode_eq, decode_eq, hquoted]
  simp [String.ofList_cons, String.ofList_append, String.append_assoc]

/-- ASCII bytes are the bytes of the text they are decoded to. -/
theorem encode_decode_ascii {bytes : List UInt8} (h : ∀ b ∈ bytes, b < 0x80) :
    encode (decode bytes).toList = bytes := by
  rw [decode_eq, String.toList_ofList]
  induction bytes with
  | nil => rfl
  | cons b bytes ih =>
      obtain ⟨hb, hbytes⟩ := List.forall_mem_cons.mp h
      have hlow : b.toNat < 128 := by simpa using UInt8.lt_iff_toNat_lt.mp hb
      have hascii : (Char.ofNat b.toNat).toNat < 128 := by
        rwa [toNat_ofNat_char (.inl (by omega))]
      rw [chars_ascii hb, encode_cons, utf8EncodeChar_ascii hascii, byte_ofNat hb, ih hbytes]
      rfl

end Utf8

namespace Piece

/-- A token is a string between quotes, or all its bytes are ASCII. -/
theorem Written.string_or_ascii {kind : Kind} {bytes : List UInt8}
    (h : Written ⟨.token kind, bytes⟩) :
    (∃ contents, quote ∉ contents ∧ kind = .string (Utf8.decode contents) ∧
      bytes = quote :: contents ++ [quote]) ∨ ∀ b ∈ bytes, b < 0x80 := by
  have hmark : ∀ m ∈ Kind.marks, ∀ b ∈ ascii m.1, b < 0x80 := by decide +kernel
  have hkeyword : ∀ r ∈ Kind.keywords, ∀ b ∈ ascii r.1, b < 0x80 := by decide +kernel
  have hdigit {b : UInt8} (hb : isDigit b) : b < 0x80 := begins_lt (begins_of_isDigit hb)
  cases h with
  | mark h => exact .inr (hmark _ h)
  | string hcontents => exact .inl ⟨_, hcontents, rfl, rfl⟩
  | whole h => exact .inr fun b hb => hdigit (h b hb)
  | decimal hwhole hfraction =>
      right
      intro b hb
      rcases List.mem_append.mp hb with hb | hb
      · exact hdigit (hwhole b hb)
      · rcases List.mem_cons.mp hb with rfl | hb
        · decide
        · exact hdigit (hfraction b hb)
  | keyword h => exact .inr (hkeyword _ h)
  | identifier hfirst hmore =>
      right
      intro b hb
      rcases List.mem_cons.mp hb with rfl | hb
      · exact begins_lt (begins_of_isLetter hfirst)
      · exact isWordByte_lt (hmore b hb)

/-- Only strings are written between quotes. -/
theorem Written.string_bytes {s : String} {bytes : List UInt8}
    (h : Written ⟨.token (.string s), bytes⟩) :
    ∃ contents, s = Utf8.decode contents ∧ bytes = quote :: contents ++ [quote] := by
  cases h with
  | string => exact ⟨_, rfl, rfl⟩
  | mark h => simp [Kind.marks] at h
  | keyword h => simp [Kind.keywords] at h

/-- The text of a token, as bytes again, is a way to write that token. -/
theorem Written.respelled {kind : Kind} {bytes : List UInt8} (h : Written ⟨.token kind, bytes⟩) :
    Written ⟨.token kind, encode (Utf8.decode bytes).toList⟩ := by
  rcases h.string_or_ascii with ⟨contents, hcontents, rfl, rfl⟩ | hascii
  · have hidle : Utf8.State.idle.Reached := trivial
    have hquote : quote ∉ encode (Utf8.decode contents).toList := by
      intro hmem
      obtain ⟨c, hc, hbyte⟩ := List.mem_flatMap.mp hmem
      obtain ⟨hlow, hbytes⟩ := eq_of_mem_utf8EncodeChar hbyte (by decide)
      rw [hbytes, List.mem_singleton] at hbyte
      obtain rfl : '"' = c := byte_injective (by decide) hlow hbyte
      rw [Utf8.decode_eq, String.toList_ofList] at hc
      exact hcontents (Utf8.quote_of_mem_chars hidle hc)
    have hwritten := Written.string hquote
    rw [Utf8.decode_encode] at hwritten
    rw [Utf8.decode_quoted]
    simpa [encode, quote, utf8EncodeChar_ascii] using hwritten
  · rwa [Utf8.encode_decode_ascii hascii]

/-! ### Spaces end tokens -/

/-- Only blanks, comments and strings have a space in them. -/
theorem Written.space_mem {p : Piece} (h : p.Written) (hspace : space ∈ p.bytes) :
    p.bytes.length = 1 ∨ (∃ text, p.bytes = byte '/' :: byte '/' :: text) ∨
      ∃ contents, quote ∉ contents ∧ p.bytes = quote :: contents ++ [quote] := by
  have hmark : ∀ m ∈ Kind.marks, space ∉ ascii m.1 := by decide
  have hkeyword : ∀ r ∈ Kind.keywords, space ∉ ascii r.1 := by decide
  have hdigit : isDigit space = false := by decide
  have hletter : isLetter space = false := by decide
  have hword : isWordByte space = false := by decide
  have hpoint : space ≠ byte '.' := by decide
  cases h with
  | blank => exact .inl rfl
  | comment => exact .inr (.inl ⟨_, rfl⟩)
  | string hcontents => exact .inr (.inr ⟨_, hcontents, rfl⟩)
  | mark h => exact absurd hspace (hmark _ h)
  | keyword h => exact absurd hspace (hkeyword _ h)
  | whole h => simpa [hdigit] using h space hspace
  | decimal hwhole hfraction =>
      rcases List.mem_append.mp hspace with hmem | hmem
      · simpa [hdigit] using hwhole space hmem
      · rcases List.mem_cons.mp hmem with heq | hmem
        · exact absurd heq hpoint
        · simpa [hdigit] using hfraction space hmem
  | identifier hfirst hmore =>
      rcases List.mem_cons.mp hspace with rfl | hmem
      · simp [hletter] at hfirst
      · simpa [hword] using hmore space hmem

/-- What begins with two slashes is a comment. -/
theorem Written.skipped_of_slashes {p : Piece} (h : p.Written) {text : List UInt8}
    (hbytes : p.bytes = byte '/' :: byte '/' :: text) : p.shape = .skipped := by
  have hextends := h.split_extends hbytes []
  have hcomment : (split (byte '/') (byte '/' :: text ++ [])).1 =
      ⟨.skipped, byte '/' :: byte '/' :: text.takeWhile inLine⟩ := by
    rw [List.append_nil]
    rfl
  have hlength : (text.takeWhile inLine).length ≤ text.length :=
    (List.takeWhile_prefix inLine).length_le
  rw [hcomment] at hextends
  rw [← hextends.eq (by simpa [hbytes] using hlength)]

/-- A token is the longest piece before a space. -/
theorem Written.longest_of_space {p : Piece} (h : p.Written) (hshape : p.shape ≠ .skipped)
    (rest : List UInt8) : p.Longest (space :: rest) := by
  refine ⟨h, fun q hq hbegin => ?_⟩
  by_contra hlength
  obtain ⟨more, hmore⟩ : p.bytes ++ [space] <+: q.bytes := by
    refine List.prefix_of_prefix_length_le ⟨rest, by simp⟩ hbegin ?_
    simp only [List.length_append, List.length_singleton]
    omega
  obtain ⟨b, tail, hbytes⟩ := h.exists_cons
  have hspace : space ∈ q.bytes := by simp [← hmore]
  rcases hq.space_mem hspace with hone | ⟨text, htext⟩ | ⟨contents, hcontents, hstring⟩
  · rw [← hmore, hbytes] at hone
    simp at hone
  · rw [← hmore, hbytes] at htext
    obtain ⟨rfl, hrest⟩ := List.cons.inj (by simpa using htext)
    cases tail with
    | nil => exact absurd (List.cons.inj hrest).1 (by decide)
    | cons c tail =>
        obtain ⟨rfl, -⟩ := List.cons.inj hrest
        exact hshape (h.skipped_of_slashes hbytes)
  · -- The closing quote of `p` would be among the contents of `q`.
    rw [← hmore, hbytes] at hstring
    obtain ⟨rfl, hrest⟩ := List.cons.inj (by simpa using hstring)
    have htail : tail <+: contents := by
      refine List.prefix_of_prefix_length_le ⟨space :: more, hrest⟩ (List.prefix_append _ _) ?_
      have hlengths := congrArg List.length hrest
      simp only [List.length_append, List.length_cons, List.length_nil] at hlengths
      omega
    exact hcontents (htail.subset (h.ends_quote hbytes))

end Piece

/-! ### Scripts of lexemes -/

namespace Token

/-- A token whose text, as bytes, is a way to write it. -/
def IsSpelled (t : Token) : Prop := Piece.Written ⟨.token t.kind, encode t.lexeme.toList⟩

/-- What a token is apart from its line: its kind, with the contents of a string and the value of
a number, and its text. -/
def content (t : Token) : Kind × String := (t.kind, t.lexeme)

/-- The texts of tokens with a space between any two. -/
def spaced (ts : List Token) : String := " ".intercalate (ts.map (·.lexeme))

/-- A token and the space behind it. -/
def pieces (t : Token) : List Piece :=
  [⟨.token t.kind, encode t.lexeme.toList⟩, ⟨.skipped, [space]⟩]

/-- The end token has no text, so each of the others has a space behind it. -/
theorem encode_spaced (ts : List Token) {last : Token} (hlast : last.lexeme = "") :
    encode (spaced (ts ++ [last])).toList = (ts.flatMap pieces).flatMap (·.bytes) := by
  induction ts with
  | nil => simp [spaced, hlast, encode]
  | cons t ts ih =>
      obtain ⟨next, more, hmore⟩ : ∃ next more, ts ++ [last] = next :: more :=
        List.exists_cons_of_ne_nil (by simp)
      have hspaced : spaced (t :: ts ++ [last]) = t.lexeme ++ " " ++ spaced (ts ++ [last]) := by
        rw [List.cons_append, hmore]
        exact String.intercalate_cons_cons
      have hspace : encode [' '] = [space] := by decide
      have hbytes : encode (spaced (t :: ts ++ [last])).toList =
          encode t.lexeme.toList ++ encode [' '] ++ encode (spaced (ts ++ [last])).toList := by
        rw [hspaced]
        simp [encode]
      rw [hbytes, ih, hspace]
      simp [pieces]

/-- Spelled tokens with spaces behind them are read one by one. -/
theorem pieces_of_isSpelled {ts : List Token} (h : ∀ t ∈ ts, t.IsSpelled) :
    Source.pieces ((ts.flatMap pieces).flatMap (·.bytes)) = ts.flatMap pieces := by
  induction ts with
  | nil => simp
  | cons t ts ih =>
      obtain ⟨ht, hts⟩ := List.forall_mem_cons.mp h
      have htoken := fun rest => Piece.First.pieces_append (.inl (ht.longest_of_space nofun rest))
      have hspace (rest : List UInt8) :
          Source.pieces (space :: rest) = ⟨.skipped, [space]⟩ :: Source.pieces rest := by
        rw [Source.pieces_cons]
        rfl
      simp only [List.flatMap_cons, pieces, List.cons_append, List.nil_append]
      rw [htoken, hspace]
      exact congrArg _ (congrArg _ (ih hts))

/-- The items of tokens with spaces behind them are these tokens, on whatever lines. -/
theorem body_pieces (ts : List Token) (line : Nat) :
    ∃ again : List Token, Piece.body line (ts.flatMap pieces) = again.map .token ∧
      again.map content = ts.map content := by
  induction ts generalizing line with
  | nil => exact ⟨[], rfl, rfl⟩
  | cons t ts ih =>
      obtain ⟨again, hbody, hcontent⟩ :=
        ih (line + newlines (encode t.lexeme.toList) + newlines [space])
      refine ⟨⟨t.kind, t.lexeme, line + newlines (encode t.lexeme.toList)⟩ :: again, ?_, ?_⟩
      · simp [pieces, Piece.body, Piece.item?, Utf8.decode_encode, hbody]
      · simp [content, hcontent]

end Token

namespace Source

theorem written_of_mem_body {source : Source} {t : Token} (h : t ∈ source.body) :
    ∃ bytes, Piece.Written ⟨.token t.kind, bytes⟩ ∧ t.lexeme = Utf8.decode bytes := by
  obtain ⟨b, rest, hshape, hlexeme⟩ := mem_body h
  refine ⟨_, ?_, hlexeme⟩
  rw [← hshape]
  rcases Piece.split_fits b rest with hwritten | hstray
  · exact hwritten
  · cases hp : (Piece.split b rest).1 with
    | mk shape bytes =>
        rw [hp] at hshape hstray
        cases hshape
        cases hstray

theorem isSpelled_of_mem_body {source : Source} {t : Token} (h : t ∈ source.body) :
    t.IsSpelled := by
  obtain ⟨bytes, hwritten, hlexeme⟩ := written_of_mem_body h
  rw [Token.IsSpelled, hlexeme]
  exact hwritten.respelled

/-- The text of a string is its contents between quotes, whatever bytes it was read from. -/
theorem lexeme_of_string {source : Source} {t : Token} (h : t ∈ source.tokens) {s : String}
    (hkind : t.kind = .string s) : t.lexeme = "\"" ++ s ++ "\"" := by
  rw [tokens_eq] at h
  rcases List.mem_append.mp h with h | h
  · obtain ⟨bytes, hwritten, hlexeme⟩ := written_of_mem_body h
    rw [hkind] at hwritten
    obtain ⟨contents, rfl, rfl⟩ := hwritten.string_bytes
    rw [hlexeme, Utf8.decode_quoted]
  · cases List.mem_singleton.mp h
    cases hkind

end Source

/-- The texts of the tokens of a script, of any bytes whatever, with a space between any two are a
script without lexical errors that has the same tokens on other lines. The text of a string is its
contents between quotes. -/
theorem scan_spaced_lexemes (source : Source) :
    let again : Source := (Token.spaced source.tokens).toUTF8.data.toList
    again.lexicalErrors = [] ∧
    again.tokens.map Token.content = source.tokens.map Token.content ∧
    ∀ t ∈ source.tokens, ∀ s, t.kind = .string s → t.lexeme = "\"" ++ s ++ "\"" := by
  intro again
  have hagain : again.pieces = source.body.flatMap Token.pieces := by
    have hend : (⟨.eof, "", 1 + newlines source⟩ : Token).lexeme = "" := rfl
    have hbytes : again = (source.body.flatMap Token.pieces).flatMap (·.bytes) := by
      rw [← Token.encode_spaced source.body hend, ← Source.tokens_eq, ← encode_toList]
    rw [hbytes, Token.pieces_of_isSpelled fun _ => Source.isSpelled_of_mem_body]
  obtain ⟨tokens, hbody, hcontent⟩ := Token.body_pieces source.body 1
  refine ⟨?_, ?_, fun t ht s => Source.lexeme_of_string ht⟩
  · rw [Source.lexicalErrors_eq_nil_iff, hagain, hbody]
    intro item hitem
    obtain ⟨t, -, rfl⟩ := List.mem_map.mp hitem
    rfl
  · have htokens : again.body = tokens := by
      rw [Source.body, hagain, hbody, List.filterMap_map]
      exact List.filterMap_some
    rw [Source.tokens_eq, Source.tokens_eq, htokens, List.map_append, List.map_append, hcontent]
    rfl

end ScriptLang
