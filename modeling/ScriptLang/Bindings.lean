/-! Finite maps from names. A name that is bound again keeps its place. -/

namespace ScriptLang

/-- Names and what they stand for. Of two entries of a name the first counts. -/
structure Bindings (α : Type) where
  entries : List (String × α)
deriving Repr

namespace Bindings

variable {α : Type}

def empty : Bindings α := ⟨[]⟩

/-- The first entry of a name. -/
def findEntry (name : String) : List (String × α) → Option α
  | [] => none
  | (key, x) :: rest => if key = name then some x else findEntry name rest

/-- What a name stands for. -/
def get? (b : Bindings α) (name : String) : Option α := findEntry name b.entries

def contains (b : Bindings α) (name : String) : Bool := (b.get? name).isSome

/-- The entries with `name` bound to `a`. -/
def insertEntry (name : String) (a : α) : List (String × α) → List (String × α)
  | [] => [(name, a)]
  | (key, x) :: rest =>
    if key = name then (key, a) :: rest else (key, x) :: insertEntry name a rest

/-- Binds a name, in place of what it stood for before. -/
def insert (b : Bindings α) (name : String) (a : α) : Bindings α :=
  ⟨insertEntry name a b.entries⟩

theorem findEntry_insertEntry (name other : String) (a : α) (entries : List (String × α)) :
    findEntry other (insertEntry name a entries) =
      if name = other then some a else findEntry other entries := by
  induction entries with
  | nil => rfl
  | cons entry rest ih =>
      obtain ⟨key, x⟩ := entry
      by_cases hk : key = name
      · subst hk
        by_cases ho : key = other <;> simp [insertEntry, findEntry, ho]
      · by_cases ho : key = other
        · subst ho
          simp [insertEntry, findEntry, hk, Ne.symm hk]
        · simp [insertEntry, findEntry, hk, ho, ih]

@[simp]
theorem get?_empty (name : String) : (empty : Bindings α).get? name = none := rfl

theorem get?_insert (b : Bindings α) (name other : String) (a : α) :
    (b.insert name a).get? other = if name = other then some a else b.get? other :=
  findEntry_insertEntry name other a b.entries

@[simp]
theorem get?_insert_self (b : Bindings α) (name : String) (a : α) :
    (b.insert name a).get? name = some a := by
  simp [get?_insert]

theorem contains_insert (b : Bindings α) (name other : String) (a : α) :
    (b.insert name a).contains other = (decide (name = other) || b.contains other) := by
  rw [contains, contains, get?_insert]
  split <;> simp [*]

end Bindings

end ScriptLang
