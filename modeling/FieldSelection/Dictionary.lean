/-!
# Dictionaries

A dictionary holds one entry a key, in ascending order of the keys. Inserting a key that
is there replaces its entry, so of several entries for a key the last one counts.
-/

namespace FieldSelection

/-- Entries in ascending order of their keys. -/
abbrev Dictionary (α : Type) := List (String × α)

namespace Dictionary

variable {α : Type}

/-- The dictionary with an entry added, or replaced if the key is there. -/
def insert (key : String) (value : α) : Dictionary α → Dictionary α
  | [] => [(key, value)]
  | (k, v) :: rest =>
    if key < k then (key, value) :: (k, v) :: rest
    else if key = k then (key, value) :: rest
    else (k, v) :: insert key value rest

/-- The dictionary of a list of entries, the later of which win. -/
def ofList (entries : List (String × α)) : Dictionary α :=
  entries.foldl (fun d (key, value) => insert key value d) []

/-- The entry of a key. -/
def get? (d : Dictionary α) (key : String) : Option α := List.lookup key d

/-- The dictionary without the entry of a key. -/
def erase (d : Dictionary α) (key : String) : Dictionary α := d.filter (·.1 != key)

/-- The keys in ascending order. -/
def keys (d : Dictionary α) : List String := d.map Prod.fst

@[simp] theorem get?_nil (key : String) : get? ([] : Dictionary α) key = none := rfl

theorem get?_cons (k : String) (v : α) (d : Dictionary α) (key : String) :
    get? ((k, v) :: d) key = if key = k then some v else d.get? key := by
  rw [get?, List.lookup_cons]
  by_cases h : key = k
  · simp [h]
  · have : (key == k) = false := by simpa using h
    simp [h, this, get?]

theorem get?_insert (d : Dictionary α) (key k : String) (value : α) :
    (d.insert key value).get? k = if k = key then some value else d.get? k := by
  induction d with
  | nil => simp [insert, get?_cons]
  | cons entry rest ih =>
    obtain ⟨k', v'⟩ := entry
    simp only [insert]
    split
    · simp [get?_cons]
    · split
      · subst_vars
        by_cases h : k = k' <;> simp [get?_cons, h]
      · by_cases h : k = k'
        · subst h
          have : ¬ k = key := fun h => by simp_all
          simp [get?_cons, this]
        · simp [get?_cons, h, ih]

end Dictionary

end FieldSelection
