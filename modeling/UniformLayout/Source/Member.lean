import UniformLayout.Source.Cursor

/-!
# Members

The parts that structs, blocks and free uniforms share: array lengths behind a name, `layout(...)`
lists, and the member declarations between braces.

Main statements: `arrayLength_of_not_bracket` and `LayoutList.gather_nil`.
-/

namespace UniformLayout.Source

/-- The length in brackets behind `field`, if there is one. Only a single positive length that is a
literal or a constant is accepted. -/
def arrayLength (scope : Scope) (declaration field : String) (cursor : Cursor) :
    Reading (Option Nat × Cursor) := do
  let some opened := cursor.eat? '[' | return (none, cursor)
  let some (token, inside) := opened.next?
    | scope.malformed opened declaration (.unterminatedLength field)
  let length ← match token.lexeme with
    | .punct ']' => scope.malformed inside declaration (.missingLength field)
    | .punct _ => scope.malformed inside declaration (.symbolicLength field)
    | .word text | .number text =>
      match scope.constants.resolve? text with
      | some length => pure length
      | none => scope.malformed inside declaration (.unknownLength text field)
  let some closed := inside.eat? ']'
    | scope.malformed inside declaration (.compoundLength field)
  if length = 0 then scope.malformed closed declaration (.zeroLength field)
  else if closed.peek? = some (.punct '[') then
    scope.malformed closed declaration (.nestedLength field)
  else return (some length, closed)

/-- Without a bracket there is no length, and nothing is read. -/
theorem arrayLength_of_not_bracket {scope : Scope} {declaration field : String} {cursor : Cursor}
    (h : cursor.eat? '[' = none) :
    arrayLength scope declaration field cursor = ⟨[], .ok (none, cursor)⟩ := by
  simp [arrayLength, h]

/-- The values that a `layout(...)` list gives. -/
structure LayoutList where
  packing : Option Packing := none
  binding : Option Nat := none
  location : Option Nat := none
  deriving DecidableEq, Repr, Inhabited

namespace LayoutList

/-- One entry of the list: a name with an optional value. -/
abbrev Entry := String × Option Nat

/-- Notes one entry. A later entry of a kind replaces the one before; unknown entries count for
nothing. -/
def add (list : LayoutList) : Entry → LayoutList
  | (name, some value) =>
    if name = "binding" then { list with binding := some value }
    else if name = "location" then { list with location := some value }
    else list
  | (name, none) =>
    match Packing.ofName? name with
    | some packing => { list with packing := some packing }
    | none => list

def gather (entries : List Entry) : LayoutList :=
  entries.foldl add {}

@[simp] theorem gather_nil : gather [] = {} := rfl

/-- Reads one entry, a comma or the closing parenthesis. -/
def entry (scope : Scope) (declaration : String) (_ : Unit) (cursor : Cursor) :
    Reading (Cursor.Turn Unit (Option Entry) × Cursor) := do
  let some (token, behind) := cursor.next?
    | scope.malformed cursor declaration .unterminatedLayout
  match token.lexeme with
  | .punct ')' => return (.done, behind)
  | .punct ',' => return (.again none (), behind)
  | .word name =>
    let some assigned := behind.eat? '=' | return (.again (some (name, none)) (), behind)
    let some (token, final) := assigned.next?
      | scope.malformed assigned declaration (.layoutWithoutValue name)
    match scope.constants.resolve? token.text with
    | some value => return (.again (some (name, some value)) (), final)
    | none => scope.malformed final declaration (.layoutWithoutValue name)
  | _ => scope.malformed behind declaration .strayLayoutToken

/-- Reads the parenthesised list behind the word `layout`. -/
def read (scope : Scope) (declaration : String) (cursor : Cursor) :
    Reading (LayoutList × Cursor) := do
  let some opened := cursor.eat? '(' | scope.malformed cursor declaration .layoutWithoutList
  let (entries, closed) ← Cursor.loop (entry scope declaration) () opened
  return (gather (entries.filterMap id), closed)

end LayoutList

/-- Reads a member's name with its array length, up to the comma or semicolon behind it. -/
def declarator (scope : Scope) (declaration typeName : String) (_ : Unit) (cursor : Cursor) :
    Reading (Cursor.Turn Unit FieldDeclaration × Cursor) := do
  let some (token, name, named) := cursor.word?
    | scope.malformed ((cursor.next?.map Prod.snd).getD cursor) declaration
        (.missingFieldName typeName)
  let (length, behind) ← arrayLength scope declaration name named
  let field : FieldDeclaration :=
    { typeName, name, arrayLength := length, source := scope.locate token }
  match behind.eat? ',' with
  | some final => return (.again field (), final)
  | none =>
    match behind.eat? ';' with
    | some final => return (.last field, final)
    | none => scope.malformed behind declaration (.missingFieldEnd name)

/-- Reads past a layout list in front of a member. Offsets always follow std140, so the list has no
effect, which is reported. -/
def memberLayout (scope : Scope) (declaration : String) (cursor : Cursor) : Reading Cursor := do
  match cursor.word? with
  | some (_, "layout", behind) =>
    let (_, final) ← LayoutList.read scope declaration behind
    Logged.note (.memberLayoutIgnored scope.file declaration)
    return final.skipQualifiers
  | _ => return cursor

/-- Reads one member declaration with all its names, or the closing brace. -/
def memberGroup (scope : Scope) (declaration : String) (_ : Unit) (cursor : Cursor) :
    Reading (Cursor.Turn Unit (List FieldDeclaration) × Cursor) := do
  let cursor ← memberLayout scope declaration cursor.skipQualifiers
  let some (token, behind) := cursor.next?
    | scope.malformed cursor declaration .missingClosingBrace
  match token.lexeme with
  | .punct '}' => return (.done, behind)
  | .word "struct" => scope.malformed behind declaration .nestedStruct
  | .word typeName =>
    let (fields, final) ← Cursor.loop (declarator scope declaration typeName) () behind
    return (.again fields (), final)
  | lexeme => scope.malformed behind declaration (.missingFieldType lexeme.text)

/-- Reads the members behind an opening brace, and the closing brace. -/
def members (scope : Scope) (declaration : String) (cursor : Cursor) :
    Reading (List FieldDeclaration × Cursor) := do
  let (groups, final) ← Cursor.loop (memberGroup scope declaration) () cursor
  return (groups.flatten, final)

end UniformLayout.Source
