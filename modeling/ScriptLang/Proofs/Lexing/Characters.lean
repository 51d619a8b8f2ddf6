import ScriptLang.Proofs.Lexing.Forms

/-! Scripts that are UTF-8 text. Pieces end where characters end, so that each character outside
strings and comments which begins no piece is one stray span. -/

namespace ScriptLang

/-- The bytes of some characters. -/
def encode (chars : List Char) : List UInt8 := chars.flatMap String.utf8EncodeChar

/-- Where a character stands. -/
inductive Region where
  | code
  | string
  | comment

/-- The characters of a text outside strings and comments, each with the line it ends on. -/
def outside : Region → Nat → List Char → List (Nat × Char)
  | _, _, [] => []
  | .code, line, '/' :: '/' :: cs => outside .comment line cs
  | .code, line, c :: cs =>
    if c = '"' then outside .string line cs
    else if c = '\n' then (line + 1, c) :: outside .code (line + 1) cs
    else (line, c) :: outside .code line cs
  | .string, line, c :: cs =>
    if c = '"' then outside .code line cs
    else outside .string (if c = '\n' then line + 1 else line) cs
  | .comment, line, c :: cs =>
    if c = '\n' then (line + 1, c) :: outside .code (line + 1) cs else outside .comment line cs

/-- A character that no piece begins with. -/
def IsStray (c : Char) : Prop := ∀ p : Piece, p.Written → ¬ String.utf8EncodeChar c <+: p.bytes

theorem encode_cons (c : Char) (cs : List Char) :
    encode (c :: cs) = String.utf8EncodeChar c ++ encode cs := List.flatMap_cons

theorem isContinuation_iff {b : UInt8} : isContinuation b ↔ 128 ≤ b.toNat ∧ b.toNat ≤ 191 := by
  simp [isContinuation, UInt8.le_iff_toNat_le]

theorem toNat_ofNat_lt {n : Nat} (h : n < 256) : (UInt8.ofNat n).toNat = n :=
  UInt8.toNat_ofNat'.trans (Nat.mod_eq_of_lt h)

theorem utf8EncodeChar_ascii {c : Char} (hc : c.toNat < 128) :
    String.utf8EncodeChar c = [byte c] := by
  have hascii : c.val.toNat ≤ 127 := Nat.le_of_lt_succ hc
  simp only [String.utf8EncodeChar, hascii, if_true]
  rfl

/-- A character is one ASCII byte, or a byte that begins it and bytes that continue it. -/
theorem utf8EncodeChar_cases (c : Char) :
    c.toNat < 128 ∧ String.utf8EncodeChar c = [byte c] ∨
      ∃ b more, String.utf8EncodeChar c = b :: more ∧ 192 ≤ b.toNat ∧
        ∀ d ∈ more, isContinuation d := by
  have hlead {n : Nat} (hlow : 192 ≤ n) (hhigh : n < 256) : 192 ≤ (UInt8.ofNat n).toNat := by
    rwa [toNat_ofNat_lt hhigh]
  have hmore (n : Nat) : isContinuation (.ofNat (n % 64 + 128)) := by
    rw [isContinuation_iff, toNat_ofNat_lt] <;> omega
  by_cases hascii : c.val.toNat ≤ 127
  · have hc : c.toNat < 128 := Nat.lt_succ_of_le hascii
    exact .inl ⟨hc, utf8EncodeChar_ascii hc⟩
  · right
    simp only [String.utf8EncodeChar, hascii, if_false]
    split_ifs
    all_goals
      refine ⟨_, _, rfl, hlead (by omega) (by omega), ?_⟩
      simp only [List.forall_mem_cons, hmore, List.not_mem_nil, false_imp_iff, implies_true,
        and_self]

/-- The only ASCII byte of a character is the character. -/
theorem eq_of_mem_utf8EncodeChar {c : Char} {b : UInt8} (h : b ∈ String.utf8EncodeChar c)
    (hb : b < 0x80) : c.toNat < 128 ∧ String.utf8EncodeChar c = [byte c] := by
  rcases utf8EncodeChar_cases c with hascii | ⟨d, more, hbytes, hlead, hmore⟩
  · exact hascii
  · have hlow : b.toNat < 128 := by simpa using UInt8.lt_iff_toNat_lt.mp hb
    rw [hbytes] at h
    rcases List.mem_cons.mp h with rfl | h
    · omega
    · have := isContinuation_iff.mp (hmore b h)
      omega

/-- An ASCII byte in the bytes of a text is a character of the text. -/
theorem encode_eq_append {chars : List Char} {front after : List UInt8} {b : UInt8}
    (h : encode chars = front ++ b :: after) (hb : b < 0x80) : ∃ seg c rest,
      chars = seg ++ c :: rest ∧ b = byte c ∧ c.toNat < 128 ∧ front = encode seg ∧
        after = encode rest := by
  induction chars generalizing front with
  | nil => simp [encode] at h
  | cons c chars ih =>
      rw [encode_cons] at h
      have hlater (more : List UInt8) (hrest : encode chars = more ++ b :: after)
          (hfront : front = String.utf8EncodeChar c ++ more) : ∃ seg d rest,
            c :: chars = seg ++ d :: rest ∧ b = byte d ∧ d.toNat < 128 ∧ front = encode seg ∧
              after = encode rest := by
        obtain ⟨seg, d, rest, rfl, hbyte, hd, rfl, hafter⟩ := ih hrest
        exact ⟨c :: seg, d, rest, rfl, hbyte, hd, hfront, hafter⟩
      rcases List.append_eq_append_iff.mp h with ⟨more, hfront, hrest⟩ | ⟨more, hc, hrest⟩
      · exact hlater more hrest hfront
      · cases more with
        | nil => exact hlater [] hrest.symm (by simp [hc])
        | cons d more =>
            obtain ⟨rfl, hafter⟩ := List.cons.inj hrest
            have hmem : b ∈ String.utf8EncodeChar c := by simp [hc]
            obtain ⟨hascii, hbyte⟩ := eq_of_mem_utf8EncodeChar hmem hb
            rw [hbyte] at hc
            obtain ⟨rfl, hone⟩ : front = [] ∧ [byte c] = b :: more := by
              cases front with
              | nil => exact ⟨rfl, hc⟩
              | cons e front => simp at hc
            cases hone
            exact ⟨[], c, chars, rfl, rfl, hascii, rfl, hafter⟩

theorem encode_eq_cons {chars : List Char} {after : List UInt8} {b : UInt8}
    (h : encode chars = b :: after) (hb : b < 0x80) :
    ∃ c rest, chars = c :: rest ∧ b = byte c ∧ c.toNat < 128 ∧ after = encode rest := by
  have happ : encode chars = [] ++ b :: after := h
  obtain ⟨seg, c, rest, rfl, hbyte, hc, hseg, hafter⟩ := encode_eq_append happ hb
  cases seg with
  | nil => exact ⟨c, rest, rfl, hbyte, hc, hafter⟩
  | cons d seg => simp [encode, String.utf8EncodeChar_ne_nil] at hseg

theorem toNat_byte {c : Char} (hc : c.toNat < 128) : (byte c).toNat = c.toNat :=
  toNat_ofNat_lt (by omega)

theorem byte_injective {c d : Char} (hc : c.toNat < 128) (hd : d.toNat < 128)
    (h : byte c = byte d) : c = d := by
  have hnat := congrArg UInt8.toNat h
  rw [toNat_byte hc, toNat_byte hd] at hnat
  rw [← Char.ofNat_toNat c, ← Char.ofNat_toNat d, hnat]

theorem newlines_byte {c : Char} (hc : c.toNat < 128) :
    newlines [byte c] = if c = '\n' then 1 else 0 := by
  by_cases hline : c = '\n'
  · subst hline
    rfl
  · have hne : byte c ≠ newline := fun h => hline (byte_injective hc (by decide) h)
    simp [newlines, hne, hline]

theorem newlines_utf8EncodeChar (c : Char) :
    newlines (String.utf8EncodeChar c) = if c = '\n' then 1 else 0 := by
  rcases utf8EncodeChar_cases c with ⟨hascii, hbytes⟩ | ⟨b, more, hbytes, hlead, hmore⟩
  · rw [hbytes, newlines_byte hascii]
  · have hline : c ≠ '\n' := by
      rintro rfl
      cases hbytes
      exact absurd hlead (by decide)
    rw [if_neg hline, newlines, List.count_eq_zero, hbytes, List.mem_cons]
    rintro (rfl | hmem)
    · exact absurd hlead (by decide)
    · exact absurd (hmore _ hmem) (by decide)

/-! ### Characters that begin nothing -/

theorem isStray_iff (c : Char) :
    IsStray c ↔ ∀ b ∈ (String.utf8EncodeChar c).head?, Piece.begins b = false := by
  constructor
  · intro h b hb
    apply Bool.eq_false_iff.mpr
    intro hbegins
    obtain ⟨p, hp, hhead⟩ := Piece.exists_written_of_begins hbegins
    have hmem : b ∈ String.utf8EncodeChar c := List.mem_of_head? hb
    obtain ⟨hascii, hbyte⟩ := eq_of_mem_utf8EncodeChar hmem (Piece.begins_lt hbegins)
    apply h p hp
    obtain ⟨tail, htail⟩ := List.head?_eq_some_iff.mp hhead
    rw [hbyte] at hb ⊢
    cases hb
    rw [htail]
    exact List.prefix_append [byte c] tail
  · intro h p hp hbegin
    obtain ⟨b, hb, hbegins⟩ := hp.begins
    obtain ⟨after, hafter⟩ := hbegin
    obtain ⟨d, more, hc⟩ := List.exists_cons_of_ne_nil (String.utf8EncodeChar_ne_nil (c := c))
    rw [← hafter, hc] at hb
    simp [h b (by rw [hc]; exact hb)] at hbegins

instance : DecidablePred IsStray := fun c =>
  decidable_of_iff ((String.utf8EncodeChar c).head?.all fun b => !Piece.begins b) (by
    simp [isStray_iff, Option.all_eq_true])

/-- The lines of the characters that begin nothing, outside strings and comments. -/
def strayLines (line : Nat) (chars : List Char) : List Nat :=
  ((outside .code line chars).filter fun place => IsStray place.2).map Prod.fst

/-! ### Stray characters, piece by piece -/

section Outside

variable {line : Nat} {c : Char} {chars rest seg : List Char}

theorem outside_code (hquote : c ≠ '"') (hslash : c = '/' → rest.head? ≠ some '/') :
    outside .code line (c :: rest) = (line + newlines (String.utf8EncodeChar c), c) ::
      outside .code (line + newlines (String.utf8EncodeChar c)) rest := by
  rw [newlines_utf8EncodeChar, outside]
  · by_cases hline : c = '\n' <;> simp [hquote, hline]
  · rintro cs rfl rfl
    exact hslash rfl rfl

theorem outside_string (hseg : '"' ∉ seg) : outside .string line (seg ++ '"' :: rest) =
    outside .code (line + newlines (encode seg)) rest := by
  induction seg generalizing line with
  | nil => rfl
  | cons c seg ih =>
      rw [List.mem_cons, not_or] at hseg
      rw [List.cons_append, outside, if_neg (Ne.symm hseg.1), ih hseg.2, encode_cons,
        newlines_append, newlines_utf8EncodeChar]
      split <;> simp [Nat.add_assoc]

theorem outside_quote : outside .code line ('"' :: rest) = outside .string line rest := rfl

theorem outside_string_end (hseg : '"' ∉ seg) : outside .string line seg = [] := by
  induction seg generalizing line with
  | nil => rfl
  | cons c seg ih =>
      rw [List.mem_cons, not_or] at hseg
      rw [outside, if_neg (Ne.symm hseg.1), ih hseg.2]

theorem outside_comment (hseg : '\n' ∉ seg) (hrest : ∀ c ∈ rest.head?, c = '\n') :
    outside .comment line (seg ++ rest) = outside .code line rest := by
  induction seg with
  | nil =>
      cases rest with
      | nil => rfl
      | cons c rest =>
          obtain rfl := hrest c rfl
          rfl
  | cons c seg ih =>
      rw [List.mem_cons, not_or] at hseg
      rw [List.cons_append, outside, if_neg (Ne.symm hseg.1), ih hseg.2]

theorem strayLines_cons (hquote : c ≠ '"') (hslash : c = '/' → rest.head? ≠ some '/') :
    strayLines line (c :: rest) =
      (if IsStray c then [line + newlines (String.utf8EncodeChar c)] else []) ++
        strayLines (line + newlines (String.utf8EncodeChar c)) rest := by
  rw [strayLines, outside_code hquote hslash]
  by_cases hstray : IsStray c <;> simp [strayLines, hstray]

end Outside

namespace Piece

/-- The bytes of the pieces that are neither strings nor comments, slashes apart. -/
def isInner (b : UInt8) : Bool := begins b && b != quote && b != byte '/'

theorem isInner_of_isBlank {b : UInt8} (h : isBlank b) : isInner b :=
  forall_byte (P := fun b => isBlank b → isInner b) (by decide +kernel) b h

theorem isInner_of_isWordByte {b : UInt8} (h : isWordByte b) : isInner b :=
  forall_byte (P := fun b => isWordByte b → isInner b) (by decide +kernel) b h

theorem isInner_of_isDigit {b : UInt8} (h : isDigit b) : isInner b :=
  isInner_of_isWordByte (by simp [isWordByte, h])

/-- How far a piece at the beginning of a text takes its characters: to the end of a character,
with one stray character if the piece is one, and with none otherwise. -/
def Passes (p : Piece) (after : List UInt8) (chars : List Char) : Prop :=
  ∃ rest, after = encode rest ∧ ∀ line, strayLines line chars =
    (if p.shape = .error .unexpectedCharacter then [line + newlines p.bytes] else []) ++
      strayLines (line + newlines p.bytes) rest

variable {p : Piece} {after : List UInt8} {chars : List Char}

theorem strayLines_inner {bytes : List UInt8} (h : encode chars = bytes ++ after)
    (hbytes : ∀ b ∈ bytes, isInner b) : ∃ rest, after = encode rest ∧
      ∀ line, strayLines line chars = strayLines (line + newlines bytes) rest := by
  induction bytes generalizing chars with
  | nil => exact ⟨chars, h.symm, fun _ => rfl⟩
  | cons b bytes ih =>
      obtain ⟨hb, hmore⟩ := List.forall_mem_cons.mp hbytes
      simp only [isInner, Bool.and_eq_true, bne_iff_ne] at hb
      obtain ⟨⟨hbegins, hquote⟩, hslash⟩ := hb
      obtain ⟨c, rest, rfl, rfl, hc, hrest⟩ := encode_eq_cons h (begins_lt hbegins)
      obtain ⟨last, hlast, hlines⟩ := ih hrest.symm hmore
      refine ⟨last, hlast, fun line => ?_⟩
      have hstray : ¬IsStray c := by
        simp [isStray_iff, utf8EncodeChar_ascii hc, hbegins]
      have hnewlines : newlines (byte c :: bytes) = newlines [byte c] + newlines bytes :=
        newlines_append [byte c] bytes
      rw [strayLines_cons (ne_of_apply_ne byte hquote) fun h => absurd (congrArg byte h) hslash,
        if_neg hstray, hlines, utf8EncodeChar_ascii hc, hnewlines, List.nil_append, Nat.add_assoc]

theorem passes_inner (h : encode chars = p.bytes ++ after) (hbytes : ∀ b ∈ p.bytes, isInner b)
    (hshape : p.shape ≠ .error .unexpectedCharacter) : p.Passes after chars := by
  obtain ⟨rest, hrest, hlines⟩ := strayLines_inner h hbytes
  refine ⟨rest, hrest, fun line => ?_⟩
  rw [if_neg hshape, hlines, List.nil_append]

/-- A slash that no slash follows is a character of its own. -/
theorem passes_slash (h : encode chars = byte '/' :: after)
    (hlongest : Longest ⟨.token .slash, [byte '/']⟩ after) :
    Passes ⟨.token .slash, [byte '/']⟩ after chars := by
  obtain ⟨c, rest, rfl, hbyte, hc, hrest⟩ := encode_eq_cons h (by decide)
  obtain rfl : '/' = c := byte_injective (by decide) hc hbyte
  refine ⟨rest, hrest, fun line => ?_⟩
  have hnext : rest.head? ≠ some '/' := by
    intro hnext
    obtain ⟨more, rfl⟩ := List.head?_eq_some_iff.mp hnext
    have hcomment : Written ⟨.skipped, [byte '/', byte '/']⟩ := .comment List.not_mem_nil
    have := hlongest.longest _ hcomment ⟨encode more, by rw [hrest]; rfl⟩
    simp at this
  have hstray : ¬IsStray '/' := by decide
  rw [strayLines_cons (by decide) fun _ => hnext, if_neg hstray]
  rfl

/-- A span up to a line end or to the end of a text is a span of characters. -/
theorem exists_line_end {span : List UInt8} (h : encode chars = span ++ after)
    (hafter : ∀ b ∈ after.head?, b = newline) : ∃ seg rest, chars = seg ++ rest ∧
      span = encode seg ∧ after = encode rest ∧ ∀ c ∈ rest.head?, c = '\n' := by
  cases after with
  | nil => exact ⟨chars, [], by simp, by simpa using h.symm, rfl, nofun⟩
  | cons b after =>
      obtain rfl := hafter b rfl
      obtain ⟨seg, c, rest, rfl, hbyte, hc, hspan, hrest⟩ := encode_eq_append h (by decide)
      obtain rfl : '\n' = c := byte_injective (by decide) hc hbyte
      refine ⟨seg, '\n' :: rest, rfl, hspan, ?_, by simp⟩
      rw [hrest]
      rfl

/-- A longest comment ends before a line end or with its script. -/
theorem Longest.head_of_comment {text : List UInt8} (htext : newline ∉ text)
    (h : Longest ⟨.skipped, byte '/' :: byte '/' :: text⟩ after) :
    ∀ b ∈ after.head?, b = newline := by
  intro b hb
  obtain ⟨tail, rfl⟩ := List.head?_eq_some_iff.mp hb
  by_contra hne
  have hcomment : Written ⟨.skipped, byte '/' :: byte '/' :: (text ++ [b])⟩ :=
    .comment (by simp [htext, Ne.symm hne])
  have hlength := h.longest _ hcomment ⟨tail, by simp⟩
  simp only [List.length_cons, List.length_append, List.length_nil] at hlength
  omega

theorem passes_comment {text : List UInt8} (htext : newline ∉ text)
    (hlongest : Longest ⟨.skipped, byte '/' :: byte '/' :: text⟩ after)
    (h : encode chars = byte '/' :: byte '/' :: text ++ after) :
    Passes ⟨.skipped, byte '/' :: byte '/' :: text⟩ after chars := by
  obtain ⟨c, more, rfl, hbyte, hc, hmore⟩ := encode_eq_cons h (by decide)
  obtain rfl : '/' = c := byte_injective (by decide) hc hbyte
  obtain ⟨c, comment, rfl, hbyte, hc, hcomment⟩ := encode_eq_cons hmore.symm (by decide)
  obtain rfl : '/' = c := byte_injective (by decide) hc hbyte
  obtain ⟨seg, rest, rfl, rfl, hafter, hnext⟩ :=
    exists_line_end hcomment.symm (hlongest.head_of_comment htext)
  refine ⟨rest, hafter, fun line => ?_⟩
  have hseg : '\n' ∉ seg := by
    intro hmem
    exact htext (List.mem_flatMap.mpr ⟨'\n', hmem, by decide⟩)
  have hnone : newlines (byte '/' :: byte '/' :: encode seg) = 0 := by
    rw [newlines, List.count_eq_zero]
    simpa using ⟨by decide, htext⟩
  rw [if_neg (by simp), strayLines, outside, outside_comment hseg hnext, hnone]
  rfl

theorem passes_string {contents : List UInt8} (hcontents : quote ∉ contents)
    (h : encode chars = quote :: contents ++ [quote] ++ after) :
    Passes ⟨.token (.string (Utf8.decode contents)), quote :: contents ++ [quote]⟩ after chars := by
  obtain ⟨c, more, rfl, hbyte, hc, hmore⟩ := encode_eq_cons h (by decide)
  obtain rfl : '"' = c := byte_injective (by decide) hc hbyte
  have hclosing : encode more = contents ++ quote :: after := by simpa using hmore.symm
  obtain ⟨seg, c, rest, rfl, hbyte, hc, rfl, hafter⟩ := encode_eq_append hclosing (by decide)
  obtain rfl : '"' = c := byte_injective (by decide) hc hbyte
  refine ⟨rest, hafter, fun line => ?_⟩
  have hseg : '"' ∉ seg := by
    intro hmem
    exact hcontents (List.mem_flatMap.mpr ⟨'"', hmem, by decide⟩)
  have hnewlines : newlines (quote :: encode seg ++ [quote]) = newlines (encode seg) := by
    rw [List.cons_append, newlines, List.count_cons_of_ne (by decide), List.count_append]
    rfl
  rw [if_neg (by simp), strayLines, outside_quote, outside_string hseg, hnewlines]
  rfl

theorem Written.passes (hp : p.Written) (hlongest : p.Longest after)
    (h : encode chars = p.bytes ++ after) : p.Passes after chars := by
  have hmark : ∀ m ∈ Kind.marks, m.1 ≠ "/" → (ascii m.1).all isInner := by decide
  have hslash : ∀ m ∈ Kind.marks, m.1 = "/" → m.2 = .slash := by decide
  have hkeyword : ∀ r ∈ Kind.keywords, (ascii r.1).all isInner := by decide
  have hpoint : isInner (byte '.') := by decide
  cases hp with
  | blank hc =>
      have hinner := isInner_of_isBlank (isBlank_byte hc)
      exact passes_inner h (List.forall_mem_singleton.mpr hinner) nofun
  | comment htext => exact passes_comment htext hlongest h
  | @mark text kind hmem =>
      by_cases htext : text = "/"
      · obtain rfl : kind = .slash := hslash _ hmem htext
        subst htext
        exact passes_slash h hlongest
      · exact passes_inner h (List.all_eq_true.mp (hmark _ hmem htext)) nofun
  | string hcontents => exact passes_string hcontents h
  | whole hwhole => exact passes_inner h (fun b hb => isInner_of_isDigit (hwhole b hb)) nofun
  | decimal hwhole hfraction =>
      apply passes_inner h _ nofun
      intro b hb
      rcases List.mem_append.mp hb with hb | hb
      · exact isInner_of_isDigit (hwhole b hb)
      · rcases List.mem_cons.mp hb with rfl | hb
        · exact hpoint
        · exact isInner_of_isDigit (hfraction b hb)
  | keyword hmem => exact passes_inner h (List.all_eq_true.mp (hkeyword _ hmem)) nofun
  | identifier hfirst hmore =>
      apply passes_inner h _ nofun
      intro b hb
      rcases List.mem_cons.mp hb with rfl | hb
      · exact isInner_of_isWordByte (by simp [isWordByte, hfirst])
      · exact isInner_of_isWordByte (hmore b hb)

theorem passes_unterminated {contents : List UInt8} (hcontents : quote ∉ contents)
    (h : encode chars = quote :: contents) :
    Passes ⟨.error .unterminatedString, quote :: contents⟩ [] chars := by
  obtain ⟨c, seg, rfl, hbyte, hc, rfl⟩ := encode_eq_cons h (by decide)
  obtain rfl : '"' = c := byte_injective (by decide) hc hbyte
  refine ⟨[], rfl, fun line => ?_⟩
  have hseg : '"' ∉ seg := by
    intro hmem
    exact hcontents (List.mem_flatMap.mpr ⟨'"', hmem, by decide⟩)
  rw [strayLines, outside_quote, outside_string_end hseg]
  rfl

/-- A stray character: a first byte that begins nothing, up to the next first byte. -/
theorem passes_stray {b : UInt8} {more : List UInt8} (hb : begins b = false) {c : Char}
    {rest : List Char} (hc : String.utf8EncodeChar c = b :: more) :
    Passes ⟨.error .unexpectedCharacter, b :: more⟩ (encode rest) (c :: rest) := by
  refine ⟨rest, rfl, fun line => ?_⟩
  have hstray : IsStray c := by simpa [isStray_iff, hc] using hb
  have hquote : c ≠ '"' := by
    rintro rfl
    exact absurd hstray (by decide)
  have hslash : c ≠ '/' := by
    rintro rfl
    exact absurd hstray (by decide)
  rw [strayLines_cons hquote fun h => absurd h hslash, if_pos hstray, hc, if_pos rfl]

theorem begins_of_not_stray {b : UInt8} (h : ∀ q : Piece, q.Written → q.bytes.head? ≠ some b) :
    begins b = false := by
  apply Bool.eq_false_iff.mpr
  intro hbegins
  obtain ⟨q, hq, hhead⟩ := exists_written_of_begins hbegins
  exact h q hq hhead

/-- A span of one class ends where something stands that is not of the class. -/
theorem append_inj_of_class {α : Type} {p : α → Bool} {a b c d : List α} (h : a ++ b = c ++ d)
    (ha : ∀ x ∈ a, p x) (hb : ∀ x ∈ b.head?, p x = false) (hc : ∀ x ∈ c, p x)
    (hd : ∀ x ∈ d.head?, p x = false) : a = c ∧ b = d := by
  have hstop {l : List α} (hl : ∀ x ∈ l.head?, p x = false) : l.takeWhile p = [] := by
    cases l with
    | nil => rfl
    | cons x l => simp [hl x rfl]
  have htake := congrArg (List.takeWhile p) h
  rw [List.takeWhile_append_of_pos ha, List.takeWhile_append_of_pos hc, hstop hb, hstop hd,
    List.append_nil, List.append_nil] at htake
  subst htake
  exact ⟨rfl, List.append_cancel_left h⟩

theorem head_encode (chars : List Char) :
    ∀ b ∈ (encode chars).head?, isContinuation b = false := by
  cases chars with
  | nil => exact nofun
  | cons c chars =>
      intro b hb
      rw [encode_cons] at hb
      rw [Bool.eq_false_iff, Ne, isContinuation_iff]
      rcases utf8EncodeChar_cases c with ⟨hc, hbytes⟩ | ⟨d, more, hbytes, hlead, -⟩
      · rw [hbytes] at hb
        cases hb
        rw [toNat_byte hc]
        omega
      · rw [hbytes] at hb
        cases hb
        omega

theorem Stray.passes (hp : p.Stray after) (h : encode chars = p.bytes ++ after) :
    p.Passes after chars := by
  cases hp with
  | unterminated hcontents => exact passes_unterminated hcontents (by simpa using h)
  | byte hlow hnone =>
      obtain ⟨c, rest, rfl, rfl, hc, rfl⟩ := encode_eq_cons h hlow
      exact passes_stray (begins_of_not_stray hnone) (utf8EncodeChar_ascii hc)
  | @character b more _ hhigh hmore hrest =>
      have hbegins : begins b = false := by
        apply Bool.eq_false_iff.mpr
        intro hbegins
        exact UInt8.not_lt.mpr hhigh (begins_lt hbegins)
      cases chars with
      | nil => simp [encode] at h
      | cons c rest =>
          rw [encode_cons] at h
          rcases utf8EncodeChar_cases c with ⟨hc, hbytes⟩ | ⟨d, tail, hbytes, -, htail⟩
          · rw [hbytes] at h
            obtain ⟨rfl, -⟩ := List.cons.inj h
            have hlow := UInt8.le_iff_toNat_le.mp hhigh
            rw [toNat_byte hc] at hlow
            exact absurd hlow (Nat.not_le.mpr hc)
          · rw [hbytes] at h
            obtain ⟨rfl, htails⟩ := List.cons.inj h
            obtain ⟨rfl, rfl⟩ := append_inj_of_class htails htail (head_encode rest) hmore hrest
            exact passes_stray hbegins hbytes

theorem First.passes (hp : p.First after) (h : encode chars = p.bytes ++ after) :
    p.Passes after chars := by
  rcases hp with hp | hp
  · exact hp.written.passes hp h
  · exact hp.passes h

end Piece

/-- The line of an unexpected character. -/
def ScanItem.unexpected? : ScanItem → Option Nat
  | .error ⟨line, .unexpectedCharacter⟩ => some line
  | _ => none

theorem Piece.unexpected?_item? (p : Piece) (line : Nat) :
    (p.item? line).toList.filterMap (·.unexpected?) =
      if p.shape = .error .unexpectedCharacter then [line] else [] := by
  unfold item?
  split
  · simp [*]
  · simp [*, ScanItem.unexpected?]
  · rename_i cause hshape
    cases cause <;> simp [hshape, ScanItem.unexpected?]

/-- The unexpected characters of a text are its stray characters. -/
theorem Source.unexpected_body (chars : List Char) (line : Nat) :
    (Piece.body line (pieces (encode chars))).filterMap (·.unexpected?) =
      strayLines line chars := by
  induction hn : (encode chars).length using Nat.strongRecOn generalizing chars line with
  | ind n ih =>
      subst hn
      cases hsource : encode chars with
      | nil =>
          cases chars with
          | nil => simp [Piece.body, strayLines, outside]
          | cons c chars => simp [encode, String.utf8EncodeChar_ne_nil] at hsource
      | cons b rest =>
          have htiles := (Piece.split_tiles b rest).1
          have hlength := Piece.split_snd_length b rest
          rw [← hsource] at htiles hlength
          obtain ⟨last, hlast, hlines⟩ := (Piece.split_first b rest).passes htiles.symm
          rw [pieces_cons, Piece.body, List.filterMap_append, Piece.unexpected?_item?, hlines,
            hlast, ih _ (hlast ▸ hlength) last _ rfl]

end ScriptLang
