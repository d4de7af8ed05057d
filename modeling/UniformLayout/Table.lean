/-!
# Finite maps

A table is an association list whose first entry of a key counts. `Table.insert` keeps the entries
in ascending order of their keys, so a table that grows by insertion lists its keys sorted, each
once.

Main statements: `Table.lookup_insert_self`, `Table.lookup_insert_of_ne` and
`Table.lookup_isSome_iff`.
-/

namespace UniformLayout

abbrev Table (κ α : Type) := List (κ × α)

namespace Table

variable {κ α : Type} [BEq κ] [LT κ] [DecidableLT κ]

/-- Sets the value of a key: in the place of its old entry, or in front of the first greater key. -/
def insert (key : κ) (value : α) : Table κ α → Table κ α
  | [] => [(key, value)]
  | entry :: rest =>
    if key == entry.1 then (key, value) :: rest
    else if key < entry.1 then (key, value) :: entry :: rest
    else entry :: insert key value rest

def keys (table : Table κ α) : List κ := table.map Prod.fst

theorem lookup_insert_self [LawfulBEq κ] (key : κ) (value : α) (table : Table κ α) :
    (insert key value table).lookup key = some value := by
  induction table with
  | nil => simp [insert]
  | cons entry rest ih =>
    obtain ⟨k, v⟩ := entry
    simp only [insert]
    by_cases h : key == k
    · simp [h]
    · by_cases hlt : key < k <;> simp [h, hlt, List.lookup_cons, ih]

theorem lookup_insert_of_ne [LawfulBEq κ] {key other : κ} (h : other ≠ key) (value : α)
    (table : Table κ α) : (insert key value table).lookup other = table.lookup other := by
  have hne : (other == key) = false := by simpa using h
  induction table with
  | nil => simp [insert, List.lookup_cons, hne]
  | cons entry rest ih =>
    obtain ⟨k, v⟩ := entry
    simp only [insert]
    split
    · rename_i he
      have : key = k := eq_of_beq he
      simp [List.lookup_cons, ← this, hne]
    · split <;> simp [List.lookup_cons, hne, ih]

omit [LT κ] [DecidableLT κ] in
/-- A key has a value exactly when it is among the keys. -/
theorem lookup_isSome_iff [LawfulBEq κ] {table : Table κ α} {key : κ} :
    (table.lookup key).isSome ↔ key ∈ table.keys := by
  simp only [List.lookup_isSome_iff, keys, List.mem_map, beq_iff_eq]
  exact ⟨fun ⟨entry, hm, he⟩ => ⟨entry, hm, he.symm⟩, fun ⟨entry, hm, he⟩ => ⟨entry, hm, he.symm⟩⟩

end Table

end UniformLayout
