import UniformLayout.Toml.Value

/-!
# Tables in the making

While a document is read, its tables are open in different ways. A table that a header names may be
entered by longer headers, a table that dotted keys made may be extended by dotted keys, and a
table that longer headers imply may still get its own header. A value, inline tables included, is
closed. Each key of a table is given once.

Main statement: `Tree.atPath_openTable_twice`.
-/

namespace UniformLayout.Toml

/-- How a table came to be. -/
inductive Origin where
  /-- A longer header names the table on its way. -/
  | implied
  /-- A header names the table. -/
  | header
  /-- Dotted keys name the table on their way. -/
  | dotted
  deriving DecidableEq, Repr

/-- What a key stands for while the document is read. -/
inductive Tree where
  | closed (value : Toml)
  | table (origin : Origin) (entries : List (String × Tree))
  /-- The tables of a list that headers in double brackets make. -/
  | tables (list : List (List (String × Tree)))

abbrev Entries := List (String × Tree)

namespace Tree

def replace (key : String) (tree : Tree) (entries : Entries) : Entries :=
  entries.map fun entry => if entry.1 == key then (key, tree) else entry

/-- Changes the table that a path leads to, from a table of the given origin on. Tables that are
missing on the way are made: dotted keys make dotted tables and do not enter a table that has a
header, headers make implied tables and enter any. In a list of tables the last one is meant. -/
def atPath (isDotted : Bool) (change : Origin → Entries → Option Entries) :
    (path : List String) → Origin → Entries → Option Entries
  | [], origin, entries => change origin entries
  | key :: rest, _, entries =>
    match entries.lookup key with
    | none => do
      let origin : Origin := if isDotted then .dotted else .implied
      return entries ++ [(key, table origin (← atPath isDotted change rest origin []))]
    | some (closed _) => none
    | some (table origin inner) => do
      if isDotted && origin == .header then none
      return replace key (table origin (← atPath isDotted change rest origin inner)) entries
    | some (tables list) => do
      let last ← atPath isDotted change rest .header (← list.getLast?)
      return replace key (tables (list.dropLast ++ [last])) entries

def insertNew (key : String) (value : Toml) (entries : Entries) : Option Entries :=
  match entries.lookup key with
  | none => some (entries ++ [(key, closed value)])
  | some _ => none

/-- Gives a dotted key its value. The table at the end of the path has to be one that dotted keys
made, unless the path is empty. -/
def insertAt (path : List String) (key : String) (value : Toml) (entries : Entries) :
    Option Entries :=
  let insert (origin : Origin) (inner : Entries) : Option Entries :=
    if path.isEmpty || origin == .dotted then insertNew key value inner else none
  atPath true insert path .header entries

/-- Opens the table of a header, which is new or implied. -/
def openTable (key : String) (entries : Entries) : Option Entries :=
  match entries.lookup key with
  | none => some (entries ++ [(key, table .header [])])
  | some (table .implied inner) => some (replace key (table .header inner) entries)
  | some _ => none

/-- Opens another table in the list of a header in double brackets. -/
def openElement (key : String) (entries : Entries) : Option Entries :=
  match entries.lookup key with
  | none => some (entries ++ [(key, tables [[]])])
  | some (tables list) => some (replace key (tables (list ++ [[]])) entries)
  | some _ => none

mutual

def toToml : Tree → Toml
  | closed value => value
  | table _ entries => .table (entriesToToml entries)
  | tables list => .array (tablesToToml list)

def entriesToToml : List (String × Tree) → List (String × Toml)
  | [] => []
  | (key, tree) :: rest => (key, tree.toToml) :: entriesToToml rest

def tablesToToml : List (List (String × Tree)) → List Toml
  | [] => []
  | entries :: rest => .table (entriesToToml entries) :: tablesToToml rest

end

theorem lookup_append_of_none {key : String} {entries : Entries} (h : entries.lookup key = none)
    (tree : Tree) : List.lookup key (entries ++ [(key, tree)]) = some tree := by
  rw [List.lookup_append, h]
  simp

theorem lookup_replace {key : String} {entries : Entries} {old : Tree}
    (h : entries.lookup key = some old) (tree : Tree) :
    (replace key tree entries).lookup key = some tree := by
  induction entries with
  | nil => simp at h
  | cons entry rest ih =>
    obtain ⟨k, t⟩ := entry
    simp only [replace, List.map_cons]
    by_cases hk : k = key
    · simp [hk]
    · have hne : (key == k) = false := by simpa using Ne.symm hk
      have hne' : (k == key) = false := by simpa using hk
      rw [List.lookup_cons, hne] at h
      rw [hne', if_neg Bool.false_ne_true, List.lookup_cons, hne]
      exact ih h

theorem openTable_twice {key : String} {entries after : Entries}
    (h : openTable key entries = some after) : openTable key after = none := by
  unfold openTable at h
  split at h
  · rename_i hl
    simp only [Option.some.injEq] at h
    subst h
    simp [openTable, lookup_append_of_none hl]
  · rename_i inner hl
    simp only [Option.some.injEq] at h
    subst h
    simp [openTable, lookup_replace hl]
  · simp at h

/-- A table has only one header. -/
theorem atPath_openTable_twice {key : String} {path : List String} {origin other : Origin}
    {entries after : Entries}
    (h : atPath false (fun _ => openTable key) path origin entries = some after) :
    atPath false (fun _ => openTable key) path other after = none := by
  induction path generalizing origin other entries after with
  | nil => exact openTable_twice h
  | cons first rest ih =>
    simp only [atPath] at h
    split at h
    · rename_i hl
      simp only [Option.bind_eq_bind, Option.bind_eq_some_iff, Option.pure_def,
        Option.some.injEq] at h
      obtain ⟨inner, hi, rfl⟩ := h
      simp [atPath, lookup_append_of_none hl, ih hi]
    · simp at h
    · rename_i inner hl
      simp only [Bool.false_and, Bool.false_eq_true, if_false, Option.bind_eq_bind,
        Option.pure_def, Option.bind_eq_some_iff, Option.some.injEq] at h
      obtain ⟨inner', hi, rfl⟩ := h
      simp [atPath, lookup_replace hl, ih hi]
    · rename_i list hl
      simp only [Option.bind_eq_bind, Option.pure_def, Option.bind_eq_some_iff,
        Option.some.injEq] at h
      obtain ⟨last, hlast, last', hi, rfl⟩ := h
      simp [atPath, lookup_replace hl, ih hi]

end Tree

end UniformLayout.Toml
