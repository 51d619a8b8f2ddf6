import ScriptLang.Proofs.Joining.Tokens
import ScriptLang.Proofs.Lexing.Forms
import ScriptLang.Proofs.Renaming.Phrases

/-! Scripts in which some words are replaced by another word. A word ends before a byte that is in
no word, and any other piece before it ends in the same way before any letter, so the script falls
into the same pieces, up to these words. -/

namespace ScriptLang

/-! ### What follows a piece -/

/-- Bytes that are the same up to where both end or both have a letter. -/
inductive LooksLike : List UInt8 → List UInt8 → Prop where
  | nil : LooksLike [] []
  | letter {b c : UInt8} (rest rest' : List UInt8) : isLetter b → isLetter c →
      LooksLike (b :: rest) (c :: rest')
  | cons (b : UInt8) {rest rest' : List UInt8} : LooksLike rest rest' →
      LooksLike (b :: rest) (b :: rest')

/-- A point and a digit, with which a number goes on. -/
def PointDigit (rest : List UInt8) : Prop := ∃ d more, rest = byte '.' :: d :: more ∧ isDigit d

/-- A class of bytes that has all letters or none. -/
def Uniform (p : UInt8 → Bool) : Prop := ∀ b c, isLetter b → isLetter c → p b = p c

theorem uniform_of_letter {p : UInt8 → Bool} {v : Bool} (h : ∀ b, isLetter b → p b = v) :
    Uniform p := by
  intro b c hb hc
  rw [h b hb, h c hc]

theorem uniform_isDigit : Uniform isDigit :=
  uniform_of_letter fun _ => Piece.isDigit_of_isLetter

theorem uniform_isWordByte : Uniform isWordByte :=
  uniform_of_letter fun b hb => by rw [isWordByte, hb, Bool.true_or]

theorem uniform_inLine : Uniform inLine :=
  uniform_of_letter (forall_byte (P := fun b => isLetter b → inLine b = true) (by decide +kernel))

theorem uniform_isContinuation : Uniform isContinuation :=
  uniform_of_letter
    (forall_byte (P := fun b => isLetter b → isContinuation b = false) (by decide +kernel))

section Spans

variable {p : UInt8 → Bool} {tail rest : List UInt8}

theorem span_of_head (h : ∀ c ∈ rest.head?, p c = false) :
    rest.takeWhile p = [] ∧ rest.dropWhile p = rest := by
  cases rest with
  | nil => exact ⟨rfl, rfl⟩
  | cons c more =>
      have hc : ¬p c := by simp [h c rfl]
      exact ⟨List.takeWhile_cons_of_neg hc, List.dropWhile_cons_of_neg hc⟩

theorem head_of_span (h : (tail ++ rest).takeWhile p = tail) :
    ∀ c ∈ rest.head?, p c = false := by
  have htail : ∀ c ∈ tail, p c := fun c hc => List.mem_takeWhile_imp (h ▸ hc)
  rw [List.takeWhile_append_of_pos htail, List.append_right_eq_self] at h
  intro c hc
  obtain ⟨more, rfl⟩ := List.head?_eq_some_iff.mp hc
  simpa [List.takeWhile_cons] using h

end Spans

namespace LooksLike

variable {rest rest' : List UInt8}

theorem head (h : LooksLike rest rest') {p : UInt8 → Bool} (hp : Uniform p)
    (hrest : ∀ c ∈ rest.head?, p c = false) : ∀ c ∈ rest'.head?, p c = false := by
  cases h with
  | nil => exact hrest
  | letter _ _ hb hc =>
      rintro _ ⟨⟩
      rw [hp _ _ hc hb]
      exact hrest _ rfl
  | cons => exact hrest

/-- A span of a class that ends here ends before anything that looks like it. -/
theorem span {tail : List UInt8} (h : LooksLike rest rest') {p : UInt8 → Bool} (hp : Uniform p)
    (htake : (tail ++ rest).takeWhile p = tail) :
    (tail ++ rest').takeWhile p = tail ∧ (tail ++ rest').dropWhile p = rest' := by
  have htail : ∀ c ∈ tail, p c := fun c hc => List.mem_takeWhile_imp (htake ▸ hc)
  have hrest := span_of_head (h.head hp (head_of_span htake))
  rw [List.takeWhile_append_of_pos htail, List.dropWhile_append_of_pos htail, hrest.1, hrest.2,
    List.append_nil]
  exact ⟨rfl, rfl⟩

theorem not_pointDigit (h : LooksLike rest rest') (hrest : ¬PointDigit rest) :
    ¬PointDigit rest' := by
  rintro ⟨d, more, rfl, hd⟩
  cases h with
  | letter _ _ _ hpoint => exact absurd hpoint (by decide)
  | cons _ h =>
      cases h with
      | letter _ _ _ hletter => exact absurd hd (by simp [Piece.isDigit_of_isLetter hletter])
      | cons _ h => exact hrest ⟨d, _, rfl, hd⟩

theorem append (front : List UInt8) (h : LooksLike rest rest') :
    LooksLike (front ++ rest) (front ++ rest') := by
  induction front with
  | nil => exact h
  | cons b front ih => exact .cons b ih

end LooksLike

namespace Piece

section Local

variable {b : UInt8} {tail rest rest' : List UInt8} {shape : Shape}

theorem single_local {s : Shape} (tail : List UInt8)
    (hsplit : single s b (tail ++ rest) = (⟨shape, b :: tail⟩, rest)) :
    single s b (tail ++ rest') = (⟨shape, b :: tail⟩, rest') := by
  simp only [single, Prod.mk.injEq, Piece.mk.injEq] at hsplit
  obtain ⟨⟨rfl, htail⟩, -⟩ := hsplit
  cases htail
  rfl

theorem withEqual_alone (alone doubled : Kind) (hrest : ∀ c ∈ rest.head?, (c == byte '=') = false) :
    withEqual alone doubled b rest = single (.token alone) b rest := by
  cases rest with
  | nil => rfl
  | cons c more =>
      have hc : c ≠ byte '=' := by simpa using hrest c rfl
      rw [withEqual, if_neg hc]

theorem slash_alone (hrest : ∀ c ∈ rest.head?, (c == byte '/') = false) :
    slash b rest = single (.token .slash) b rest := by
  cases rest with
  | nil => rfl
  | cons c more =>
      have hc : c ≠ byte '/' := by simpa using hrest c rfl
      rw [slash, if_neg hc]

theorem number_decimal {digits more : List UInt8} {e : UInt8} (hdigits : ∀ c ∈ digits, isDigit c)
    (he : isDigit e) : number b (digits ++ byte '.' :: e :: more) =
      (⟨.token (.number (Number.ofDigits (b :: digits) (e :: more.takeWhile isDigit))),
        b :: digits ++ byte '.' :: e :: more.takeWhile isDigit⟩, more.dropWhile isDigit) := by
  have hpoint : ¬isDigit (byte '.') := by decide
  simp only [number, List.takeWhile_append_of_pos hdigits, List.dropWhile_append_of_pos hdigits,
    List.takeWhile_cons_of_neg hpoint, List.dropWhile_cons_of_neg hpoint, he, and_self, if_true,
    List.append_nil]

theorem number_whole {digits : List UInt8} (hdigits : ∀ c ∈ digits, isDigit c)
    (hrest : ∀ c ∈ rest.head?, isDigit c = false) (hpoint : ¬PointDigit rest) :
    number b (digits ++ rest) =
      (⟨.token (.number (Number.ofDigits (b :: digits) [])), b :: digits⟩, rest) := by
  have htake := span_of_head hrest
  simp only [number, List.takeWhile_append_of_pos hdigits, List.dropWhile_append_of_pos hdigits,
    htake.1, htake.2, List.append_nil]
  split
  · rename_i point d more
    rw [if_neg]
    rintro ⟨rfl, hd⟩
    exact hpoint ⟨d, more, rfl, hd⟩
  · rfl

variable (h : LooksLike rest rest')
include h

theorem withEqual_local {alone doubled : Kind}
    (hsplit : withEqual alone doubled b (tail ++ rest) = (⟨shape, b :: tail⟩, rest)) :
    withEqual alone doubled b (tail ++ rest') = (⟨shape, b :: tail⟩, rest') := by
  have huniform : Uniform (· == byte '=') :=
    uniform_of_letter (forall_byte (P := fun b => isLetter b → (b == byte '=') = false)
      (by decide +kernel))
  cases tail with
  | nil =>
      have hrest : ∀ c ∈ rest.head?, (c == byte '=') = false := by
        intro c hc
        obtain ⟨more, rfl⟩ := List.head?_eq_some_iff.mp hc
        by_contra hequal
        rw [List.nil_append, withEqual, if_pos (by simpa using hequal)] at hsplit
        cases hsplit
      rw [List.nil_append, withEqual_alone _ _ hrest] at hsplit
      rw [List.nil_append, withEqual_alone _ _ (h.head huniform hrest)]
      exact single_local [] hsplit
  | cons c tail =>
      by_cases hc : c = byte '='
      · rw [List.cons_append, withEqual, if_pos hc] at hsplit ⊢
        cases hsplit
        rfl
      · rw [List.cons_append, withEqual, if_neg hc] at hsplit
        cases hsplit

theorem slash_local (hsplit : slash b (tail ++ rest) = (⟨shape, b :: tail⟩, rest)) :
    slash b (tail ++ rest') = (⟨shape, b :: tail⟩, rest') := by
  have huniform : Uniform (· == byte '/') :=
    uniform_of_letter (forall_byte (P := fun b => isLetter b → (b == byte '/') = false)
      (by decide +kernel))
  cases tail with
  | nil =>
      have hrest : ∀ c ∈ rest.head?, (c == byte '/') = false := by
        intro c hc
        obtain ⟨more, rfl⟩ := List.head?_eq_some_iff.mp hc
        by_contra hslash
        rw [List.nil_append, slash, if_pos (by simpa using hslash)] at hsplit
        cases hsplit
      rw [List.nil_append, slash_alone hrest] at hsplit
      rw [List.nil_append, slash_alone (h.head huniform hrest)]
      exact single_local [] hsplit
  | cons c tail =>
      by_cases hc : c = byte '/'
      · rw [List.cons_append, slash, if_pos hc] at hsplit ⊢
        simp only [Prod.mk.injEq, Piece.mk.injEq, List.cons.injEq, true_and] at hsplit
        obtain ⟨⟨rfl, htake⟩, -⟩ := hsplit
        obtain ⟨htake', hdrop'⟩ := h.span uniform_inLine htake
        rw [htake', hdrop']
      · rw [List.cons_append, slash, if_neg hc] at hsplit
        cases hsplit

/-- A string is closed before what follows it, or nothing follows it. -/
theorem string_local (hsplit : string b (tail ++ rest) = (⟨shape, b :: tail⟩, rest)) :
    string b (tail ++ rest') = (⟨shape, b :: tail⟩, rest') := by
  have hcontents : ∀ c ∈ (tail ++ rest).takeWhile inQuotes, inQuotes c :=
    fun c => List.mem_takeWhile_imp
  have hclosing := List.head?_dropWhile_not inQuotes (tail ++ rest)
  unfold string at hsplit
  simp only at hsplit
  split at hsplit
  · rename_i hdrop
    obtain rfl : rest = [] := (congrArg Prod.snd hsplit).symm
    cases h
    rw [string, hdrop]
    exact hsplit
  · rename_i closing after hdrop
    simp only [Prod.mk.injEq, Piece.mk.injEq, List.cons_append, List.cons.injEq, true_and] at hsplit
    obtain ⟨⟨rfl, htail⟩, rfl⟩ := hsplit
    rw [hdrop] at hclosing
    generalize (tail ++ after).takeWhile inQuotes = contents at *
    subst htail
    have hquote : ¬inQuotes closing := by simpa using hclosing
    simp [string, List.takeWhile_append_of_pos hcontents, List.dropWhile_append_of_pos hcontents,
      List.takeWhile_cons_of_neg hquote, List.dropWhile_cons_of_neg hquote]

/-- A number goes on only with a digit, or with a point and a digit. -/
theorem number_local (hsplit : number b (tail ++ rest) = (⟨shape, b :: tail⟩, rest)) :
    number b (tail ++ rest') = (⟨shape, b :: tail⟩, rest') := by
  have hdigits : ∀ c ∈ (tail ++ rest).takeWhile isDigit, isDigit c :=
    fun c => List.mem_takeWhile_imp
  have hafter := List.head?_dropWhile_not isDigit (tail ++ rest)
  have happ := List.takeWhile_append_dropWhile (p := isDigit) (l := tail ++ rest)
  generalize (tail ++ rest).takeWhile isDigit = digits at *
  generalize (tail ++ rest).dropWhile isDigit = after at *
  rw [← happ] at hsplit
  by_cases hpoint : PointDigit after
  · obtain ⟨e, more, rfl, he⟩ := hpoint
    rw [number_decimal hdigits he] at hsplit
    simp only [Prod.mk.injEq, Piece.mk.injEq, List.cons_append, List.cons.injEq,
      true_and] at hsplit
    obtain ⟨⟨rfl, rfl⟩, rfl⟩ := hsplit
    have hfraction : (more.takeWhile isDigit ++ more.dropWhile isDigit).takeWhile isDigit =
        more.takeWhile isDigit := by rw [List.takeWhile_append_dropWhile]
    obtain ⟨htake, hdrop⟩ := h.span uniform_isDigit hfraction
    simp only [List.append_assoc, List.cons_append]
    rw [number_decimal hdigits he, htake, hdrop, List.cons_append]
  · have hhead : ∀ c ∈ after.head?, isDigit c = false := by
      intro c hc
      rw [hc] at hafter
      simpa using hafter
    rw [number_whole hdigits hhead hpoint] at hsplit
    simp only [Prod.mk.injEq, Piece.mk.injEq, List.cons.injEq, true_and] at hsplit
    obtain ⟨⟨rfl, rfl⟩, rfl⟩ := hsplit
    exact number_whole hdigits (h.head uniform_isDigit hhead) (h.not_pointDigit hpoint)

theorem word_local (hsplit : word b (tail ++ rest) = (⟨shape, b :: tail⟩, rest)) :
    word b (tail ++ rest') = (⟨shape, b :: tail⟩, rest') := by
  simp only [word, Prod.mk.injEq, Piece.mk.injEq, List.cons.injEq, true_and] at hsplit
  obtain ⟨⟨rfl, htake⟩, -⟩ := hsplit
  obtain ⟨htake', hdrop'⟩ := h.span uniform_isWordByte htake
  rw [word, htake', hdrop', htake]

theorem unexpected_local (hsplit : unexpected b (tail ++ rest) = (⟨shape, b :: tail⟩, rest)) :
    unexpected b (tail ++ rest') = (⟨shape, b :: tail⟩, rest') := by
  unfold unexpected at hsplit ⊢
  split
  · rename_i hb
    rw [if_pos hb] at hsplit
    exact single_local _ hsplit
  · rename_i hb
    rw [if_neg hb] at hsplit
    simp only [Prod.mk.injEq, Piece.mk.injEq, List.cons.injEq, true_and] at hsplit
    obtain ⟨⟨rfl, htake⟩, -⟩ := hsplit
    obtain ⟨htake', hdrop'⟩ := h.span uniform_isContinuation htake
    rw [htake', hdrop']

/-- The first piece stays where what follows it looks the same. -/
theorem split_local (hsplit : split b (tail ++ rest) = (⟨shape, b :: tail⟩, rest)) :
    split b (tail ++ rest') = (⟨shape, b :: tail⟩, rest') := by
  obtain ⟨form, hform, heq⟩ := split_form b
  rw [heq] at hsplit ⊢
  cases hform with
  | blank | punctuation => exact single_local _ hsplit
  | bang | equal | less | greater => exact withEqual_local h hsplit
  | slash => exact slash_local h hsplit
  | string => exact string_local h hsplit
  | number => exact number_local h hsplit
  | word => exact word_local h hsplit
  | unexpected => exact unexpected_local h hsplit

end Local

end Piece

/-! ### Words -/

/-- A word that is read as this name. -/
structure Piece.IsWord (name : String) (p : Piece) : Prop where
  written : p.Written
  shape : p.shape = .token .identifier
  text : Utf8.decode p.bytes = name

/-- A text that can be written as a name. -/
def IsName (name : String) : Prop := ∃ p : Piece, p.IsWord name

/-- Pieces that are the same, or one word for another. -/
inductive Piece.Reworded (old new : String) : Piece → Piece → Prop where
  | same (p : Piece) : Reworded old new p p
  | word {p p' : Piece} : p.IsWord old → p'.IsWord new → Reworded old new p p'

/-- A script with the same pieces as another, except that some words are replaced by a word. -/
def Source.Reworded (old new : String) (source source' : Source) : Prop :=
  List.Forall₂ (Piece.Reworded old new) source.pieces source'.pieces

namespace Piece

theorem Written.identifier_bytes {p : Piece} (h : p.Written)
    (hshape : p.shape = .token .identifier) :
    ∃ b more, p.bytes = b :: more ∧ isLetter b ∧ ∀ c ∈ more, isWordByte c := by
  have hmarks : ∀ m ∈ Kind.marks, m.2 ≠ .identifier := by decide
  have hkeywords : ∀ r ∈ Kind.keywords, r.2 ≠ .identifier := by decide
  cases h with
  | mark hmark => exact absurd (Shape.token.inj hshape) (hmarks _ hmark)
  | keyword hkeyword => exact absurd (Shape.token.inj hshape) (hkeywords _ hkeyword)
  | identifier hfirst hmore => exact ⟨_, _, rfl, hfirst, hmore⟩
  | _ => cases hshape

namespace IsWord

variable {name : String} {p : Piece} (h : p.IsWord name)
include h

theorem newlines_eq : newlines p.bytes = 0 := by
  obtain ⟨b, more, hbytes, hb, hmore⟩ := h.written.identifier_bytes h.shape
  have hnewline : isWordByte newline = false := by decide
  rw [newlines, List.count_eq_zero, hbytes]
  intro hmem
  rcases List.mem_cons.mp hmem with rfl | hmem
  · exact absurd hb (by decide)
  · exact absurd (hmore _ hmem) (by simp [hnewline])

/-- A word is read as a whole where no byte of a word follows. -/
theorem split_eq {b : UInt8} {more rest : List UInt8} (hbytes : p.bytes = b :: more)
    (hrest : ∀ c ∈ rest.head?, isWordByte c = false) : split b (more ++ rest) = (p, rest) := by
  obtain ⟨_, _, hsame, hb, hmore⟩ := h.written.identifier_bytes h.shape
  rw [hbytes] at hsame
  cases hsame
  have hspan := span_of_head hrest
  have hword : split b (more ++ rest) =
      (⟨.token (Kind.ofWord (Utf8.decode (b :: more))), b :: more⟩, rest) := by
    rw [split_letter hb, word, List.takeWhile_append_of_pos hmore,
      List.dropWhile_append_of_pos hmore, hspan.1, hspan.2, List.append_nil]
  have hextends := h.written.split_extends hbytes rest
  rw [hword] at hextends
  rw [hword]
  exact Prod.ext (hextends.eq (by rw [hbytes])) rfl

/-- No byte of a word follows a word that is read as a whole. -/
theorem head_of_split {b : UInt8} {more rest : List UInt8} (hbytes : p.bytes = b :: more)
    (hsplit : split b (more ++ rest) = (p, rest)) : ∀ c ∈ rest.head?, isWordByte c = false := by
  obtain ⟨_, _, hsame, hb, -⟩ := h.written.identifier_bytes h.shape
  rw [hbytes] at hsame
  cases hsame
  rw [split_letter hb] at hsplit
  have hword := congrArg (fun s : Split => s.1.bytes) hsplit
  simp only [word, hbytes] at hword
  exact head_of_span (List.cons.inj hword).2

end IsWord

theorem reworded_looksLike {old new : String} {ps ps' : List Piece}
    (h : List.Forall₂ (Reworded old new) ps ps') :
    LooksLike (ps.flatMap (·.bytes)) (ps'.flatMap (·.bytes)) := by
  induction h with
  | nil => exact .nil
  | cons hp _ ih =>
      rw [List.flatMap_cons, List.flatMap_cons]
      cases hp with
      | same => exact ih.append _
      | word hold hnew =>
          obtain ⟨b, more, hbytes, hb, -⟩ := hold.written.identifier_bytes hold.shape
          obtain ⟨c, more', hbytes', hc, -⟩ := hnew.written.identifier_bytes hnew.shape
          rw [hbytes, hbytes']
          exact .letter _ _ hb hc

end Piece

namespace Source

theorem pieces_eq_cons {source : Source} {p : Piece} {ps : List Piece}
    (h : source.pieces = p :: ps) : ∃ b tail, p.bytes = b :: tail ∧
      Piece.split b (tail ++ ps.flatMap (·.bytes)) = (p, ps.flatMap (·.bytes)) ∧
      pieces (ps.flatMap (·.bytes)) = ps := by
  cases source with
  | nil => simp at h
  | cons b rest =>
      rw [pieces_cons] at h
      obtain ⟨hp, hps⟩ := List.cons.inj h
      have hbytes := pieces_bytes (Piece.split b rest).2
      rw [hps] at hbytes
      obtain ⟨htiles, hne⟩ := Piece.split_tiles b rest
      rw [hp] at htiles hne
      obtain ⟨c, tail, hcons⟩ := List.exists_cons_of_ne_nil hne
      rw [hcons, List.cons_append, ← hbytes] at htiles
      obtain ⟨rfl, hrest⟩ := List.cons.inj htiles
      refine ⟨c, tail, hcons, ?_, by rw [hbytes, hps]⟩
      rw [hrest, hbytes, ← hp]

/-- Pieces of a script with other words are the pieces of the script that they make. -/
theorem pieces_reworded {old new : String} {ps ps' : List Piece}
    (h : List.Forall₂ (Piece.Reworded old new) ps ps')
    (hps : pieces (ps.flatMap (·.bytes)) = ps) : pieces (ps'.flatMap (·.bytes)) = ps' := by
  induction h with
  | nil => simp
  | @cons p p' ps ps' hp htail ih =>
      obtain ⟨b, tail, hbytes, hsplit, hrest⟩ := pieces_eq_cons hps
      have hlooks := Piece.reworded_looksLike htail
      rw [List.flatMap_cons]
      cases hp with
      | same =>
          have hshape : p = ⟨p.shape, b :: tail⟩ := by rw [← hbytes]
          rw [hshape] at hsplit
          rw [hbytes, List.cons_append, pieces_cons, Piece.split_local hlooks hsplit, ih hrest,
            ← hshape]
      | word hold hnew =>
          obtain ⟨c, more, hbytes'⟩ := hnew.written.exists_cons
          have hhead := hlooks.head uniform_isWordByte (hold.head_of_split hbytes hsplit)
          rw [hbytes', List.cons_append, pieces_cons, hnew.split_eq hbytes' hhead, ih hrest]

end Source

/-! ### Tokens of scripts with other words -/

namespace Piece

theorem body_of_skipped {p : Piece} (h : p.shape = .skipped) (line : Nat) (ps : List Piece) :
    body line (p :: ps) = body (line + newlines p.bytes) ps := by
  simp [body, item?, h]

theorem body_of_token {p : Piece} {kind : Kind} (h : p.shape = .token kind) (line : Nat)
    (ps : List Piece) : body line (p :: ps) =
      .token ⟨kind, Utf8.decode p.bytes, line + newlines p.bytes⟩ ::
        body (line + newlines p.bytes) ps := by
  simp [body, item?, h]

/-- Where tokens are reworded, the pieces that they come from can be. -/
theorem exists_reworded {old new : String} (hnew : IsName new) {ps : List Piece}
    (hps : ∀ p ∈ ps, p.Written) (line : Nat) {ts' : List Token}
    (h : Token.RewordedEach old new ((body line ps).filterMap (·.token?)) ts') :
    ∃ ps', List.Forall₂ (Reworded old new) ps ps' ∧ (∀ p ∈ ps', p.Written) ∧
      (body line ps').filterMap (·.token?) = ts' := by
  induction ps generalizing line ts' with
  | nil =>
      cases h
      exact ⟨[], .nil, nofun, rfl⟩
  | cons p ps ih =>
      obtain ⟨hp, hps⟩ := List.forall_mem_cons.mp hps
      cases hshape : p.shape with
      | skipped =>
          rw [body_of_skipped hshape] at h
          obtain ⟨ps', hwords, hwritten, hbody⟩ := ih hps _ h
          refine ⟨p :: ps', .cons (.same p) hwords, List.forall_mem_cons.mpr ⟨hp, hwritten⟩, ?_⟩
          rw [body_of_skipped hshape, hbody]
      | error cause => cases hp <;> cases hshape
      | token kind =>
          rw [body_of_token hshape] at h
          cases h with
          | cons ht htail =>
              obtain ⟨ps', hwords, hwritten, hbody⟩ := ih hps _ htail
              cases ht with
              | same =>
                  refine ⟨p :: ps', .cons (.same p) hwords,
                    List.forall_mem_cons.mpr ⟨hp, hwritten⟩, ?_⟩
                  rw [body_of_token hshape]
                  exact congrArg (_ :: ·) hbody
              | word hkind htext =>
                  obtain ⟨q, hq⟩ := hnew
                  obtain rfl : kind = .identifier := hkind
                  have hword : p.IsWord old := ⟨hp, hshape, htext⟩
                  rw [hword.newlines_eq] at hbody ⊢
                  refine ⟨q :: ps', .cons (.word hword hq) hwords,
                    List.forall_mem_cons.mpr ⟨hq.written, hwritten⟩, ?_⟩
                  rw [body_of_token hq.shape, hq.newlines_eq, hq.text]
                  exact congrArg (_ :: ·) hbody

/-- Pieces that are written are no errors. -/
theorem error?_of_written {ps : List Piece} (hps : ∀ p ∈ ps, p.Written) {line : Nat} :
    ∀ item ∈ body line ps, item.error? = none := by
  intro item hitem
  obtain ⟨p, hp, last, hlast⟩ := mem_body hitem
  have hwritten := hps p hp
  unfold item? at hlast
  split at hlast
  · cases hlast
  · cases hlast
    rfl
  · cases hwritten <;> contradiction

end Piece

namespace Source

theorem written_of_lexicalErrors {source : Source} (h : source.lexicalErrors = []) :
    ∀ p ∈ source.pieces, p.Written := by
  intro p hp
  have hshape := fun cause => shape_ne_error h cause p hp
  obtain ⟨b, rest, rfl⟩ := mem_pieces hp
  rcases Piece.split_fits b rest with hwritten | hstray
  · exact hwritten
  · generalize Piece.split b rest = s at *
    obtain ⟨q, after⟩ := s
    cases hstray <;> exact absurd rfl (hshape _)

/-- Tokens of an accepted script that are reworded are the tokens of the script with these words
replaced. -/
theorem exists_reworded {old new : String} (hnew : IsName new) {source : Source}
    (hlexical : source.lexicalErrors = []) {ts' : List Token}
    (h : Token.RewordedEach old new source.body ts') :
    ∃ source', source.Reworded old new source' ∧ source'.lexicalErrors = [] ∧
      source'.body = ts' := by
  obtain ⟨ps', hwords, hwritten, hbody⟩ :=
    Piece.exists_reworded hnew (written_of_lexicalErrors hlexical) 1 h
  have hpieces : pieces (ps'.flatMap (·.bytes)) = ps' :=
    pieces_reworded hwords (by rw [pieces_bytes])
  refine ⟨ps'.flatMap (·.bytes), ?_, ?_, ?_⟩
  · rw [Source.Reworded, hpieces]
    exact hwords
  · rw [lexicalErrors_eq_nil_iff, hpieces]
    exact Piece.error?_of_written hwritten
  · rw [body, hpieces, hbody]

end Source

end ScriptLang
