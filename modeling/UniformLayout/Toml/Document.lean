import UniformLayout.Toml.DateTime
import UniformLayout.Toml.Number
import UniformLayout.Toml.Quoted
import UniformLayout.Toml.Tree

/-!
# TOML documents

A document is a list of statements, one a line: headers and pairs of a key and a value. A header
opens a table, and the pairs behind it belong to that table. Arrays and inline tables nest up to
`maxDepth`.

Main statement: `Toml.Draft.add?_table_twice`.
-/

namespace UniformLayout

namespace Toml

open Reader

/-! ## Keys and values -/

/-- Arrays and inline tables nest less deep than this, and dotted keys have fewer parts. -/
def maxDepth : Nat := 80

def bareKey : Reader (List Char) :=
  run₁ fun c => c.isAlphanum || c == '_' || c == '-'

def simpleKey : Reader String :=
  String.ofList <$> (basicText <|> literalText <|> bareKey)

/-- The parts of a key with the last one apart. Blanks may stand around each part. -/
def dottedKey : Reader (List String × String) := do
  let parts ← separated
    (do
      blanks
      let part ← simpleKey
      blanks
      return part)
    (exactly ['.'])
  match parts.getLast? with
  | some last => if parts.length < maxDepth then return (parts.dropLast, last) else failure
  | none => failure

/-- A value that contains no others. A date is tried before a number, which may start like one. -/
def scalar : Reader Toml :=
  (Toml.string <$> quotedText) <|>
    (Toml.dateTime <$> anyDateTime) <|>
    number <|>
    (do exactly ['t', 'r', 'u', 'e']; return .boolean true) <|>
    (do exactly ['f', 'a', 'l', 's', 'e']; return .boolean false)

def pair (value : Reader Toml) : Reader ((List String × String) × Toml) := do
  let key ← dottedKey
  exactly ['=']
  blanks
  return (key, ← value)

def arrayOf (element : Reader Toml) : Reader Toml := do
  exactly ['[']
  let list ← separated
    (do
      gap
      let value ← element
      gap
      return value)
    (exactly [','])
  if !list.isEmpty then
    let _ ← optional (exactly [','])
  gap
  exactly [']']
  return .array list

def inlineTableOf (element : Reader Toml) : Reader Toml := do
  exactly ['\x7b']
  let pairs ← separated
    (do
      let found ← pair element
      blanks
      return found)
    (exactly [','])
  blanks
  exactly ['\x7d']
  let entries ← liftM (pairs.foldlM
    (fun entries (((path, key), value) : (List String × String) × Toml) =>
      Tree.insertAt path key value entries) [])
  return .table (Tree.entriesToToml entries)

/-- A value with at most `depth` arrays and inline tables around any other. -/
def atDepth : (depth : Nat) → Reader Toml
  | 0 => scalar
  | depth + 1 => scalar <|> arrayOf (atDepth depth) <|> inlineTableOf (atDepth depth)

@[simp] theorem atDepth_zero : atDepth 0 = scalar := rfl

/-! ## Statements -/

/-- A statement of a document. A header has at least one part, of which the last stands apart. -/
inductive Statement where
  | table (path : List String) (key : String)
  | element (path : List String) (key : String)
  | pair (path : List String) (key : String) (value : Toml)

def elementHeader : Reader Statement := do
  exactly ['[', '[']
  let (path, key) ← dottedKey
  exactly [']', ']']
  return .element path key

def tableHeader : Reader Statement := do
  exactly ['[']
  let (path, key) ← dottedKey
  exactly [']']
  return .table path key

def statement : Reader Statement :=
  elementHeader <|> tableHeader <|> do
    let ((path, key), value) ← pair (atDepth (maxDepth - 1))
    return .pair path key value

def line : Reader (Option Statement) := do
  blanks
  let found ← optional statement
  lineEnd
  return found

/-- The statements of a document, behind an optional byte order mark. -/
def statements : Reader (List Statement) := do
  let _ ← optional (exactly ['\ufeff'])
  let lines ← many line
  return lines.filterMap id

/-! ## Documents -/

/-- A document that has been read so far: its root table, and the path of the table that the last
header opened. -/
structure Draft where
  root : Entries := []
  current : List String := []

def Draft.add? (draft : Draft) : Statement → Option Draft
  | .table path key => do
    let root ← Tree.atPath false (fun _ => Tree.openTable key) path .header draft.root
    return ⟨root, path ++ [key]⟩
  | .element path key => do
    let root ← Tree.atPath false (fun _ => Tree.openElement key) path .header draft.root
    return ⟨root, path ++ [key]⟩
  | .pair path key value => do
    let root ← Tree.atPath false (fun _ => Tree.insertAt path key value) draft.current .header
      draft.root
    return { draft with root }

/-- A document does not give a table two headers. -/
theorem Draft.add?_table_twice {draft after : Draft} {path : List String} {key : String}
    (h : draft.add? (.table path key) = some after) : after.add? (.table path key) = none := by
  simp only [add?, Option.bind_eq_bind, Option.bind_eq_some_iff, Option.pure_def,
    Option.some.injEq] at h
  obtain ⟨root, hr, rfl⟩ := h
  simp [add?, Tree.atPath_openTable_twice hr]

def ofText? (text : String) : Option Toml := do
  let list ← readAll? statements text.toList
  let draft ← list.foldlM Draft.add? {}
  return .table (Tree.entriesToToml draft.root)

end Toml

end UniformLayout
