/-
  Treewalk.Table — lists of keyed entries in the order in which the keys first came. A later entry
  for a key takes the place of the earlier one.
-/

namespace Treewalk

/-- Entries by key, in order of entry. -/
abbrev Table (α : Type) := List (String × α)

namespace Table

def get? {α : Type} : Table α → String → Option α
  | [], _ => none
  | (k, v) :: rest, key => if k = key then some v else get? rest key

def put {α : Type} : Table α → String → α → Table α
  | [], key, value => [(key, value)]
  | (k, v) :: rest, key, value => if k = key then (k, value) :: rest else (k, v) :: put rest key value

def keys {α : Type} (t : Table α) : List String := t.map (·.1)

@[simp] theorem get?_put {α : Type} (t : Table α) (key k : String) (value : α) :
    get? (put t key value) k = if key = k then some value else get? t k := by
  induction t with
  | nil => simp [put, get?]
  | cons e rest ih =>
    obtain ⟨j, v⟩ := e
    by_cases h : j = key <;> by_cases hk : j = k <;> grind [put, get?]

end Table

end Treewalk
