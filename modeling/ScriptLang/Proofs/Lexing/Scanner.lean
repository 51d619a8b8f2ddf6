import ScriptLang.Proofs.Lexing.Characters

/-! Scanning takes the longest piece that stands at the beginning of what is left of a script, and
a span that begins no piece where there is none. -/

namespace ScriptLang

theorem Piece.First.pieces_append {p : Piece} {rest : List UInt8} (h : p.First rest) :
    Source.pieces (p.bytes ++ rest) = p :: Source.pieces rest := by
  obtain ⟨b, tail, hbytes⟩ := h.exists_cons
  rw [hbytes, List.cons_append, Source.pieces_cons, h.split_eq hbytes]

namespace Source

/-- `Scans front rest items`: where `front` has been read of a script and `rest` has not, `items`
are still to come. -/
inductive Scans : List UInt8 → List UInt8 → List ScanItem → Prop where
  | done {front : List UInt8} : Scans front [] [.token ⟨.eof, "", 1 + newlines front⟩]
  | skipped {front span rest : List UInt8} {items : List ScanItem}
      (hspan : Piece.Longest ⟨.skipped, span⟩ rest) (hrest : Scans (front ++ span) rest items) :
      Scans front (span ++ rest) items
  | token {front span rest : List UInt8} {items : List ScanItem} {kind : Kind}
      (hspan : Piece.Longest ⟨.token kind, span⟩ rest) (hrest : Scans (front ++ span) rest items) :
      Scans front (span ++ rest)
        (.token ⟨kind, Utf8.decode span, 1 + newlines (front ++ span)⟩ :: items)
  | error {front span rest : List UInt8} {items : List ScanItem} {cause : LexicalCause}
      (hspan : Piece.Stray ⟨.error cause, span⟩ rest) (hrest : Scans (front ++ span) rest items) :
      Scans front (span ++ rest) (.error ⟨1 + newlines (front ++ span), cause⟩ :: items)

/-- The items of `rest` after `front`. -/
def itemsAfter (front rest : List UInt8) : List ScanItem :=
  Piece.body (1 + newlines front) (pieces rest) ++
    [.token ⟨.eof, "", 1 + newlines (front ++ rest)⟩]

theorem scan_eq_itemsAfter (source : Source) : source.scan = itemsAfter [] source :=
  scan_eq source

theorem itemsAfter_append {p : Piece} {rest : List UInt8} (h : p.First rest)
    (front : List UInt8) : itemsAfter front (p.bytes ++ rest) =
      (p.item? (1 + newlines (front ++ p.bytes))).toList ++ itemsAfter (front ++ p.bytes) rest := by
  simp only [itemsAfter, h.pieces_append, Piece.body, newlines_append, Nat.add_assoc,
    List.append_assoc]

theorem Scans.eq {front rest : List UInt8} {items : List ScanItem} (h : Scans front rest items) :
    itemsAfter front rest = items := by
  induction h with
  | done => simp [itemsAfter, Piece.body]
  | skipped hspan _ ih => rw [itemsAfter_append (.inl hspan), ih, Piece.item?]; rfl
  | token hspan _ ih => rw [itemsAfter_append (.inl hspan), ih, Piece.item?]; rfl
  | error hspan _ ih => rw [itemsAfter_append (.inr hspan), ih, Piece.item?]; rfl

theorem scans_of_first {p : Piece} {front rest : List UInt8} {items : List ScanItem}
    (h : p.First rest) (hrest : Scans (front ++ p.bytes) rest items) :
    Scans front (p.bytes ++ rest)
      ((p.item? (1 + newlines (front ++ p.bytes))).toList ++ items) := by
  obtain ⟨shape, bytes⟩ := p
  rcases h with h | h
  · cases shape with
    | skipped => exact .skipped h hrest
    | token kind => exact .token h hrest
    | error cause => cases h.written
  · cases h with
    | unterminated hcontents => exact .error (.unterminated hcontents) hrest
    | byte hlow hnone => exact .error (.byte hlow hnone) hrest
    | character hhigh hmore hstop => exact .error (.character hhigh hmore hstop) hrest

theorem scans_itemsAfter (front rest : List UInt8) : Scans front rest (itemsAfter front rest) := by
  induction hn : rest.length using Nat.strongRecOn generalizing front rest with
  | ind n ih =>
      subst hn
      cases rest with
      | nil =>
          simpa [itemsAfter, Piece.body] using @Scans.done front
      | cons b tail =>
          have hfirst := Piece.split_first b tail
          have hrest := ih _ (Piece.split_snd_length b tail)
            (front ++ (Piece.split b tail).1.bytes) _ rfl
          have hscans := scans_of_first hfirst hrest
          rwa [← itemsAfter_append hfirst, (Piece.split_tiles b tail).1] at hscans

end Source

theorem encode_toList (text : String) : text.toUTF8.data.toList = encode text.toList := by
  rw [String.toUTF8_eq_toByteArray, ← String.utf8Encode_toList]
  exact List.toList_data_toByteArray

/-- The items of a script are those of its longest pieces and of the spans that begin none, each
with the line it ends on, and one end token. In a text the unexpected characters are those
outside strings and comments that begin no piece. -/
theorem scan_takes_longest_pieces :
    (∀ (source : Source) (items : List ScanItem),
      source.scan = items ↔ Source.Scans [] source items) ∧
    ∀ text : String, (Source.scan text.toUTF8.data.toList).filterMap (·.unexpected?) =
      ((outside .code 1 text.toList).filter fun place => IsStray place.2).map Prod.fst := by
  constructor
  · intro source items
    rw [Source.scan_eq_itemsAfter]
    constructor
    · rintro rfl
      exact Source.scans_itemsAfter [] source
    · exact Source.Scans.eq
  · intro text
    rw [encode_toList, Source.scan_eq, List.filterMap_append, Source.unexpected_body]
    exact List.append_nil _

end ScriptLang
