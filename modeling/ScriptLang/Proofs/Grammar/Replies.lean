import ScriptLang.Proofs.Grammar

/-! What a parser may do from a cursor. A reply is described by what holds of its value and
cursor, of the cursor of a failure, and of a budget that ran out; such descriptions follow the
binds of a parser from its first token to its last. -/

namespace ScriptLang

namespace Cursor

/-- From `c` to `d` exactly the tokens `ts` are taken, no error is dropped and no id given back. -/
structure Took (c : Cursor) (ts : List Token) (d : Cursor) : Prop where
  eof : d.eof = c.eof
  rest : c.rest = ts ++ d.rest
  errors : c.errors <:+ d.errors
  ids : c.nextId ≤ d.nextId

/-- From `c` to `d` some tokens are taken. -/
def Leads (c d : Cursor) : Prop := ∃ ts, c.Took ts d

namespace Took

theorem refl (c : Cursor) : c.Took [] c := ⟨rfl, rfl, List.suffix_rfl, Nat.le_refl _⟩

theorem trans {c d e : Cursor} {ts us : List Token} (h : c.Took ts d) (h' : d.Took us e) :
    c.Took (ts ++ us) e where
  eof := h'.eof.trans h.eof
  rest := by rw [h.rest, h'.rest, List.append_assoc]
  errors := h.errors.trans h'.errors
  ids := Nat.le_trans h.ids h'.ids

theorem one {c : Cursor} {t : Token} {rest : List Token} (h : c.rest = t :: rest) :
    c.Took [t] { c with rest } :=
  ⟨rfl, h, List.suffix_rfl, Nat.le_refl _⟩

/-- A number that is handed out takes no token. -/
theorem fresh (c : Cursor) : c.Took [] { c with nextId := c.nextId + 1 } :=
  ⟨rfl, rfl, List.suffix_rfl, Nat.le_succ _⟩

theorem errors_nil {c d : Cursor} {ts : List Token} (h : c.Took ts d) (hd : d.errors = []) :
    c.errors = [] :=
  List.suffix_nil.mp (hd ▸ h.errors)

theorem length {c d : Cursor} {ts : List Token} (h : c.Took ts d) :
    c.rest.length = ts.length + d.rest.length := by
  rw [h.rest, List.length_append]

theorem leads {c d : Cursor} {ts : List Token} (h : c.Took ts d) : c.Leads d := ⟨ts, h⟩

end Took

namespace Leads

theorem refl (c : Cursor) : c.Leads c := (Took.refl c).leads

theorem trans {c d e : Cursor} (h : c.Leads d) (h' : d.Leads e) : c.Leads e := by
  obtain ⟨ts, h⟩ := h
  obtain ⟨us, h'⟩ := h'
  exact (h.trans h').leads

theorem record {c d : Cursor} (h : c.Leads d) (e : SyntaxError) : c.Leads (d.record e) := by
  obtain ⟨ts, h⟩ := h
  exact ⟨ts, h.eof, h.rest, h.errors.trans (List.suffix_cons e d.errors), h.ids⟩

end Leads

theorem boundary_suffix (previous : Token) (ts : List Token) : boundary previous ts <:+ ts := by
  induction ts generalizing previous with
  | nil => exact List.suffix_rfl
  | cons t rest ih =>
      unfold boundary
      split
      · exact List.suffix_rfl
      · split
        all_goals first
          | exact List.suffix_rfl
          | exact (ih t).trans (List.suffix_cons t rest)

/-- Recovery takes at least the token of the error, if there is one. -/
theorem synchronize_took (c : Cursor) :
    ∃ ts, c.Took ts c.synchronize ∧ (c.rest ≠ [] → ts ≠ []) := by
  obtain ⟨rest, eof, i, errors⟩ := c
  cases rest with
  | nil => exact ⟨[], Took.refl _, fun h => absurd rfl h⟩
  | cons t rest =>
      obtain ⟨front, hfront⟩ := boundary_suffix t rest
      refine ⟨t :: front, ⟨rfl, ?_, List.suffix_rfl, Nat.le_refl _⟩,
        fun _ => List.cons_ne_nil t front⟩
      simp [synchronize, hfront]

end Cursor

namespace Reply

/-- A reply whose value and cursor satisfy `good`, or whose failure is at a cursor that satisfies
`bad`, or whose budget ran out under the condition `out`. -/
def Satisfies {α : Type} (good : α → Cursor → Prop) (bad : Cursor → Prop) (out : Prop) :
    Reply α → Prop
  | .ok a d => good a d
  | .fail _ d => bad d
  | .exhausted => out

theorem Satisfies.mono {α : Type} {good good' : α → Cursor → Prop} {bad bad' : Cursor → Prop}
    {out out' : Prop} {r : Reply α} (h : r.Satisfies good bad out)
    (hgood : ∀ a d, good a d → good' a d) (hbad : ∀ d, bad d → bad' d) (hout : out → out') :
    r.Satisfies good' bad' out' := by
  cases r with
  | ok a d => exact hgood a d h
  | fail e d => exact hbad d h
  | exhausted => exact hout h

end Reply

namespace Parser

section Rules

variable {α β : Type} {good : β → Cursor → Prop} {bad : Cursor → Prop} {out : Prop} {c : Cursor}

theorem satisfies_bind {p : Parser α} {f : α → Parser β} {M : α → Cursor → Prop}
    (hp : (p c).Satisfies M bad out)
    (hf : ∀ a d, M a d → (f a d).Satisfies good bad out) :
    ((p >>= f) c).Satisfies good bad out := by
  rw [bind_apply]
  cases h : p c with
  | ok a d =>
      rw [h] at hp
      exact hf a d hp
  | fail e d =>
      rw [h] at hp
      exact hp
  | exhausted =>
      rw [h] at hp
      exact hp

theorem satisfies_map {p : Parser α} {f : α → β}
    (hp : (p c).Satisfies (fun a d => good (f a) d) bad out) :
    ((f <$> p) c).Satisfies good bad out := by
  rw [map_eq_pure_bind]
  exact satisfies_bind hp fun a d h => h

theorem satisfies_takeIf {accepts : Kind → Bool} {f : Option Token → Parser β}
    (hsome : ∀ t rest, c.rest = t :: rest → accepts t.kind = true →
      (f (some t) { c with rest }).Satisfies good bad out)
    (hnone : (∀ t ∈ c.rest.head?, accepts t.kind = false) → (f none c).Satisfies good bad out) :
    ((takeIf accepts >>= f) c).Satisfies good bad out := by
  obtain ⟨rest, eof, i, errors⟩ := c
  rw [bind_apply]
  cases rest with
  | nil => exact hnone (by simp)
  | cons t rest =>
      cases h : accepts t.kind with
      | true => simpa [takeIf, h] using hsome t rest rfl h
      | false => simpa [takeIf, h] using hnone (by simpa using h)

theorem satisfies_take? {kind : Kind} {f : Option Token → Parser β}
    (hsome : ∀ t rest, c.rest = t :: rest → t.kind = kind →
      (f (some t) { c with rest }).Satisfies good bad out)
    (hnone : (∀ t ∈ c.rest.head?, t.kind ≠ kind) → (f none c).Satisfies good bad out) :
    ((take? kind >>= f) c).Satisfies good bad out :=
  satisfies_takeIf (fun t rest h ht => hsome t rest h (of_decide_eq_true ht))
    fun h => hnone fun t ht => of_decide_eq_false (h t ht)

theorem satisfies_expect {kind : Kind} {cause : SyntaxCause} {f : Token → Parser β}
    (hbad : bad c)
    (hf : ∀ t rest, c.rest = t :: rest → t.kind = kind →
      (f t { c with rest }).Satisfies good bad out) :
    ((expect kind cause >>= f) c).Satisfies good bad out := by
  obtain ⟨rest, eof, i, errors⟩ := c
  rw [bind_apply]
  cases rest with
  | nil => exact hbad
  | cons t rest =>
      by_cases h : t.kind = kind
      · simpa [expect, h] using hf t rest rfl h
      · simpa [expect, h, Reply.Satisfies] using hbad

theorem satisfies_next {kind : Kind} {f : Bool → Parser β}
    (htrue : (f true c).Satisfies good bad out)
    (hfalse : (∀ t ∈ c.rest.head?, t.kind ≠ kind) → (f false c).Satisfies good bad out) :
    ((next kind >>= f) c).Satisfies good bad out := by
  obtain ⟨rest, eof, i, errors⟩ := c
  rw [bind_apply]
  cases rest with
  | nil => exact hfalse (by simp)
  | cons t rest =>
      by_cases h : t.kind = kind
      · simpa [next, h] using htrue
      · simpa [next, h] using hfalse (by simpa using h)

theorem satisfies_unlessNext {kind : Kind} {default : β} {p : Parser β} (hdefault : good default c)
    (hp : (p c).Satisfies good bad out) :
    (unlessNext kind default p c).Satisfies good bad out :=
  satisfies_next hdefault fun _ => hp

theorem satisfies_nextOrEnd {kind : Kind} {f : Bool → Parser β}
    (htrue : (f true c).Satisfies good bad out)
    (hfalse : ∀ t rest, c.rest = t :: rest → t.kind ≠ kind → (f false c).Satisfies good bad out) :
    ((nextOrEnd kind >>= f) c).Satisfies good bad out := by
  obtain ⟨rest, eof, i, errors⟩ := c
  rw [bind_apply]
  cases rest with
  | nil => exact htrue
  | cons t rest =>
      by_cases h : t.kind = kind
      · simpa [nextOrEnd, h] using htrue
      · simpa [nextOrEnd, h] using hfalse t rest rfl h

theorem satisfies_atEnd {f : Bool → Parser β}
    (htrue : c.rest = [] → (f true c).Satisfies good bad out)
    (hfalse : c.rest ≠ [] → (f false c).Satisfies good bad out) :
    ((atEnd >>= f) c).Satisfies good bad out := by
  obtain ⟨rest, eof, i, errors⟩ := c
  rw [bind_apply]
  cases rest with
  | nil => exact htrue rfl
  | cons t rest => exact hfalse (List.cons_ne_nil t rest)

theorem satisfies_limit {tooMany : Bool} {cause : SyntaxCause} {f : Unit → Parser β}
    (hf : ∀ d, c.Took [] d → d.nextId = c.nextId → d.rest = c.rest →
      (d.errors = [] → tooMany = false) → (f () d).Satisfies good bad out) :
    ((limit tooMany cause >>= f) c).Satisfies good bad out := by
  rw [bind_apply]
  cases tooMany with
  | false => exact hf c (.refl c) rfl rfl fun _ => rfl
  | true =>
      exact hf (c.record ⟨c.peek, cause⟩) ⟨rfl, rfl, List.suffix_cons _ _, Nat.le_refl _⟩ rfl rfl
        fun h => absurd h (List.cons_ne_nil _ _)

/-- A declaration that fails is noted, and recovery takes its tokens. -/
theorem satisfies_recover {p : Parser α} {f : Option α → Parser β} {M : α → Cursor → Prop}
    (hp : (p c).Satisfies M c.Leads out)
    (hsome : ∀ a d, M a d → (f (some a) d).Satisfies good bad out)
    (hnone : ∀ d ts, c.Took ts d → (c.rest ≠ [] → ts ≠ []) → d.errors ≠ [] →
      (f none d).Satisfies good bad out) :
    ((recover p >>= f) c).Satisfies good bad out := by
  rw [bind_apply]
  unfold recover
  cases h : p c with
  | ok a d =>
      rw [h] at hp
      exact hsome a d hp
  | exhausted =>
      rw [h] at hp
      exact hp
  | fail e d =>
      rw [h] at hp
      obtain ⟨ts, hts⟩ := hp.record e
      obtain ⟨us, hus, hne⟩ := (d.record e).synchronize_took
      refine hnone _ (ts ++ us) (hts.trans hus) ?_ ?_
      · intro hc hnil
        obtain ⟨rfl, rfl⟩ := List.append_eq_nil_iff.mp hnil
        exact hne (by simpa [hts.rest] using hc) rfl
      · intro herr
        exact List.cons_ne_nil e d.errors (hus.errors_nil herr)

end Rules

end Parser

end ScriptLang
