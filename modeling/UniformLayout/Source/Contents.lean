import UniformLayout.Source.Comment
import UniformLayout.Source.Uniform

/-!
# The contents of a source

`SourceContents.read` gives every struct, uniform block and free uniform of a source, in source
order. Function bodies and any other groups in braces at the top level are passed over unread.
Attributes written as `[name:value]` belong to the next struct or uniform statement; a semicolon or
a group in between discards them.

Main statement: `attribute?_shorter`.
-/

namespace UniformLayout

/-- Everything found in one source. -/
structure SourceContents where
  key : String
  /-- Structs and named uniform blocks. -/
  declarations : List TypeDeclaration
  /-- Free uniforms. -/
  uniforms : List UniformDeclaration
  anonymousBlocks : List Source.AnonymousBlock
  warnings : List SourceWarning
  deriving DecidableEq, Repr

namespace Source

/-- The tokens in front of the first closing bracket, the bracket, and the tokens behind it. -/
def splitAtBracket : List Token → Option (List Token × Token × List Token)
  | [] => none
  | token :: rest =>
    if token.lexeme = .punct ']' then some ([], token, rest)
    else (splitAtBracket rest).map fun (inside, close, behind) => (token :: inside, close, behind)

/-- The attribute behind an opening bracket, and the tokens behind it. Its value is the text of the
source up to the closing bracket. -/
def attribute? (rest : List Token) : Option (Attribute × Cursor) :=
  match rest with
  | name :: colon :: body =>
    match name.lexeme, colon.lexeme with
    | .word text, .punct ':' =>
      (splitAtBracket body).map fun (inside, close, behind) =>
        let value := inside.flatMap (fun token => token.lead ++ token.text.toList) ++ close.lead
        (⟨text, String.ofList (Text.trim value)⟩, ⟨close.line, behind⟩)
    | _, _ => none
  | _ => none

theorem splitAtBracket_shorter {tokens inside behind : List Token} {close : Token}
    (h : splitAtBracket tokens = some (inside, close, behind)) : behind.length < tokens.length := by
  induction tokens generalizing inside with
  | nil => simp [splitAtBracket] at h
  | cons token rest ih =>
    simp only [splitAtBracket] at h
    split at h
    · simp only [Option.some.injEq, Prod.mk.injEq] at h
      simp [← h.2.2]
    · simp only [Option.map_eq_some_iff, Prod.mk.injEq] at h
      obtain ⟨⟨i, c, b⟩, hs, rfl, rfl, rfl⟩ := h
      exact Nat.lt_succ_of_lt (ih hs)

/-- Reading an attribute consumes tokens. -/
theorem attribute?_shorter {rest : List Token} {found : Attribute} {cursor : Cursor}
    (h : attribute? rest = some (found, cursor)) : cursor.rest.length < rest.length := by
  unfold attribute? at h
  split at h
  · split at h
    · simp only [Option.map_eq_some_iff, Prod.mk.injEq] at h
      obtain ⟨⟨inside, close, behind⟩, hs, _, rfl⟩ := h
      have := splitAtBracket_shorter hs
      simp only [List.length_cons]
      omega
    · simp at h
  · simp at h

/-- Reads a struct behind `struct name {`, with an optional semicolon at its end. -/
def struct (scope : Scope) (attributes : List Attribute) (keyword : Token) (name : String)
    (cursor : Cursor) : Reading (Entry × Cursor) := do
  let (fields, behind) ← members scope name cursor
  let source := scope.locate keyword
  return (.declaration { name, kind := .struct, fields, attributes, source },
    (behind.eat? ';').getD behind)

/-- What the reader of the top level remembers: the attributes waiting for a declaration and the
packing of blocks that ask for none. -/
structure Pending where
  attributes : List Attribute := []
  packing : Packing := .std140
  deriving DecidableEq, Repr, Inhabited

/-- A statement uses up the attributes, and may set the packing of later blocks. -/
def Pending.after (pending : Pending) : Entry → Pending
  | .packing default => ⟨[], default⟩
  | _ => ⟨[], pending.packing⟩

/-- Reads a statement, an attribute or a group in braces, or passes over one token. -/
def statement (scope : Scope) (pending : Pending) (cursor : Cursor) :
    Reading (Cursor.Turn Pending Entry × Cursor) := do
  match cursor.rest with
  | [] => return (.done, cursor)
  | token :: rest =>
    let behind : Cursor := ⟨token.line, rest⟩
    let declared (result : Entry × Cursor) : Cursor.Turn Pending Entry × Cursor :=
      (.again result.1 (pending.after result.1), result.2)
    match token.lexeme with
    | .punct '[' =>
      match attribute? rest with
      | some (found, final) =>
        let attributes := pending.attributes ++ [found]
        return (.again .nothing { pending with attributes }, final)
      | none => return (.again .nothing pending, behind)
    | .punct '{' =>
      return (.again .nothing { pending with attributes := [] }, Cursor.skipGroup 1 token.line rest)
    | .punct ';' => return (.again .nothing { pending with attributes := [] }, behind)
    | .word "struct" =>
      match rest with
      | name :: brace :: body =>
        match name.lexeme, brace.lexeme with
        | .word name, .punct '{' =>
          declared <$> struct scope pending.attributes token name ⟨brace.line, body⟩
        | _, _ => return (.again .nothing pending, behind)
      | _ => return (.again .nothing pending, behind)
    | .word "layout" | .word "uniform" =>
      declared <$> uniformStatement scope pending.packing pending.attributes token rest
    | _ => return (.again .nothing pending, behind)

def warningsOf (notices : List Notice) : List SourceWarning :=
  notices.filterMap fun
    | .source warning => some warning
    | _ => none

end Source

namespace SourceContents

open Source

/-- The contents that a list of entries adds up to. -/
def ofEntries (key : String) (entries : List Entry) (warnings : List SourceWarning) :
    SourceContents where
  key
  declarations := entries.filterMap fun
    | .declaration decl => some decl
    | _ => none
  uniforms := entries.flatMap fun
    | .uniforms list => list
    | _ => []
  anonymousBlocks := entries.filterMap fun
    | .anonymous block => some block
    | _ => none
  warnings

/-- The entries of a source, from its first token on. -/
def entries (key text : String) : Reading (List Entry) := do
  let found := items (stripComments text.toList)
  let scope : Scope := ⟨key, Constants.ofItems found⟩
  let (entries, _) ← Cursor.loop (statement scope) {} ⟨0, tokensOf found⟩
  return entries

/-- Reads a source. `key` names it in locations and messages. -/
def read (key text : String) : Reading SourceContents :=
  let found := entries key text
  ⟨found.notices, found.result.map fun list => ofEntries key list (warningsOf found.notices)⟩

/-- Reads a source of shared types, of which only the structs count. -/
def readStructs (key text : String) : Reading (List TypeDeclaration) := do
  let contents ← read key text
  let (structs, others) := contents.declarations.partition (·.kind == .struct)
  if !others.isEmpty || !contents.uniforms.isEmpty then Logged.note (.sharedUniformsIgnored key)
  return structs

end SourceContents

end UniformLayout
