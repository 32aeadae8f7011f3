/-!
Tables in insertion order. A key occurs at most once in a table built by `insert` and `erase`;
writing to a key that is present keeps its place, and a new key goes to the end.
-/
namespace CallByNeed

structure Table (κ : Type) (α : Type) where
  entries : List (κ × α) := []
deriving Inhabited

namespace Table

variable {κ α : Type} [DecidableEq κ]

def empty : Table κ α := ⟨[]⟩

def get? (t : Table κ α) (k : κ) : Option α := (t.entries.find? (·.1 = k)).map (·.2)

def contains (t : Table κ α) (k : κ) : Bool := (t.get? k).isSome

def keys (t : Table κ α) : List κ := t.entries.map (·.1)

def values (t : Table κ α) : List α := t.entries.map (·.2)

def put (k : κ) (a : α) : List (κ × α) → List (κ × α)
  | [] => [(k, a)]
  | (k', a') :: rest => if k' = k then (k, a) :: rest else (k', a') :: put k a rest

def insert (t : Table κ α) (k : κ) (a : α) : Table κ α := ⟨put k a t.entries⟩

def erase (t : Table κ α) (k : κ) : Table κ α := ⟨t.entries.eraseP (·.1 = k)⟩

def ofList (entries : List (κ × α)) : Table κ α :=
  entries.foldl (fun t e => t.insert e.1 e.2) empty

@[simp] theorem get?_empty (k : κ) : (empty : Table κ α).get? k = none := rfl

theorem find?_put (k q : κ) (a : α) (entries : List (κ × α)) :
    (put k a entries).find? (·.1 = q) =
      if k = q then some (k, a) else entries.find? (·.1 = q) := by
  induction entries with
  | nil => by_cases h : k = q <;> simp [put, h]
  | cons e rest ih =>
    obtain ⟨k', a'⟩ := e
    by_cases hk : k' = k
    · subst hk
      by_cases h : k' = q <;> simp [put, h]
    · by_cases h : k = q
      · subst h
        simp [put, hk, ih]
      · by_cases h' : k' = q
        · subst h'
          simp [put, hk, h]
        · simp [put, hk, h, h', ih]

/-- Reading after a write gives the written value at its key and the old one elsewhere. -/
theorem get?_insert (t : Table κ α) (k q : κ) (a : α) :
    (t.insert k a).get? q = if k = q then some a else t.get? q := by
  by_cases h : k = q <;> simp [get?, insert, find?_put, h]

end Table
end CallByNeed
