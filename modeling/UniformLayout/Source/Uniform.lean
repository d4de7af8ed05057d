import UniformLayout.Source.Member

/-!
# Uniform statements

A statement that starts with `layout` or `uniform` declares a block, some free uniforms, or the
packing of later blocks; or it belongs to a shader's inputs and outputs and is passed over.
-/

namespace UniformLayout.Source

/-- A block with neither a block name nor an instance name, which no host type can be named
after. -/
structure AnonymousBlock where
  source : SourceLocation
  fields : List FieldDeclaration
  deriving DecidableEq, Repr, Inhabited

/-- What one statement at the top level of a source contributes. -/
inductive Entry where
  | declaration (decl : TypeDeclaration)
  | uniforms (list : List UniformDeclaration)
  | anonymous (block : AnonymousBlock)
  | packing (default : Packing)
  | nothing
  deriving DecidableEq, Repr, Inhabited

def warn (warning : SourceWarning) : Reading Unit :=
  Logged.note (.source warning)

/-- Reads the members of a block and what follows them. `start` is the statement's first token, and
`packing` the packing of blocks that ask for none. -/
def block (scope : Scope) (packing : Packing) (start : Token) (layout : LayoutList)
    (attributes : List Attribute) (blockName : Option String) (cursor : Cursor) :
    Reading (Entry × Cursor) := do
  let context := blockName.getD "uniform block"
  let (fields, behind) ← members scope context cursor
  let source := scope.locate start
  let (instanceName, behind) : Option String × Cursor := match behind.word? with
    | some (_, name, named) => (some name, named)
    | none => (none, behind)
  let (length, behind) ← arrayLength scope context (instanceName.getD context) behind
  let some final := behind.eat? ';' | scope.malformed behind context .missingBlockEnd
  match blockName.or instanceName with
  | none =>
    warn (.anonymousBlock source)
    return (.anonymous ⟨source, fields⟩, final)
  | some name =>
    if length.isSome then warn (.instanceArrayIgnored name source)
    let packing := layout.packing.getD packing
    if packing ≠ .std140 then warn (.unsupportedPacking name packing source)
    let kind := .uniformBlock layout.binding instanceName packing
    return (.declaration { name, kind, fields, attributes, source }, final)

/-- An initialiser carries no layout meaning and is passed over up to the next comma or
semicolon. -/
def skipInitialiser (cursor : Cursor) : Cursor :=
  match cursor.eat? '=' with
  | some behind => Cursor.skipWhile (fun l => l ≠ .punct ',' ∧ l ≠ .punct ';') behind.line behind.rest
  | none => cursor

/-- Reads the name of a free uniform with its array length and initialiser, up to the comma or
semicolon behind it. -/
def uniformDeclarator (scope : Scope) (typeName : String) (layout : LayoutList)
    (attributes : List Attribute) (_ : Unit) (cursor : Cursor) :
    Reading (Cursor.Turn Unit UniformDeclaration × Cursor) := do
  let some (token, name, named) := cursor.word?
    | scope.malformed ((cursor.next?.map Prod.snd).getD cursor) typeName
        (.missingUniformName typeName)
  let (arrayLength, behind) ← arrayLength scope name name named
  let behind := skipInitialiser behind
  let qualifiers := { binding := layout.binding, location := layout.location }
  let uniform := { typeName, name, arrayLength, qualifiers, attributes, source := scope.locate token }
  match behind.eat? ',' with
  | some final => return (.again uniform (), final)
  | none =>
    match behind.eat? ';' with
    | some final => return (.last uniform, final)
    | none => scope.malformed behind name (.missingUniformEnd name)

/-- Reads what follows the word `uniform` and its qualifiers. -/
def uniformBody (scope : Scope) (packing : Packing) (start : Token) (layout : LayoutList)
    (attributes : List Attribute) (cursor : Cursor) : Reading (Entry × Cursor) := do
  let refused := scope.malformed cursor "uniform" .missingUniform
  match cursor.rest with
  | [] => refused
  | first :: rest =>
    match first.lexeme, rest with
    | .punct ';', _ => return (layout.packing.elim .nothing .packing, ⟨first.line, rest⟩)
    | .punct '{', _ => block scope packing start layout attributes none ⟨first.line, rest⟩
    | .word name, second :: tail =>
      match second.lexeme with
      | .punct '{' => block scope packing start layout attributes (some name) ⟨second.line, tail⟩
      | .word _ =>
        let (uniforms, final) ←
          Cursor.loop (uniformDeclarator scope name layout attributes) () ⟨first.line, rest⟩
        return (.uniforms uniforms, final)
      | _ => refused
    | _, _ => refused

/-- Reads a statement whose first token `start` is the word `layout` or `uniform`. -/
def uniformStatement (scope : Scope) (packing : Packing) (attributes : List Attribute)
    (start : Token) (rest : List Token) : Reading (Entry × Cursor) := do
  let (layout, cursor) ←
    if start.text = "layout" then LayoutList.read scope "layout" ⟨start.line, rest⟩
    else pure ({}, ⟨start.line, start :: rest⟩)
  match cursor.word? with
  | some (_, "uniform", behind) =>
    uniformBody scope packing start layout attributes behind.skipQualifiers
  | _ => return (.nothing, Cursor.skipStatement 0 cursor.line cursor.rest)

end UniformLayout.Source
