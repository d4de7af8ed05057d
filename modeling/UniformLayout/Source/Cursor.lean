import UniformLayout.Notice
import UniformLayout.Source.Constant

/-!
# Reading a token list

A `Cursor` is what is left of a token list together with the line of the token read last, which is
where a malformed declaration is reported. `Cursor.loop` repeats a step that reads some tokens for
as long as the steps ask for more and consume something, so that every reader ends.

Main statement: `Cursor.loop_again`.
-/

namespace UniformLayout.Source

/-- The tokens still to be read, and the line of the token read last. -/
structure Cursor where
  line : Nat
  rest : List Token
  deriving DecidableEq, Repr, Inhabited

/-- What every reader of one source knows: the source's key and its constants. -/
structure Scope where
  file : String
  constants : Constants
  deriving DecidableEq, Repr, Inhabited

abbrev Reading := Logged CompileError

def Scope.locate (scope : Scope) (token : Token) : SourceLocation :=
  ⟨scope.file, token.line, token.column⟩

/-- Gives up on `declaration` at the token read last. -/
def Scope.malformed {α : Type} (scope : Scope) (at_ : Cursor) (declaration : String)
    (reason : Malformation) : Reading α :=
  throw (.malformedDeclaration scope.file at_.line declaration reason)

namespace Cursor

def peek? (cursor : Cursor) : Option Lexeme :=
  cursor.rest.head?.map Token.lexeme

def next? (cursor : Cursor) : Option (Token × Cursor) :=
  match cursor.rest with
  | [] => none
  | token :: rest => some (token, ⟨token.line, rest⟩)

def eat? (cursor : Cursor) (c : Char) : Option Cursor :=
  match cursor.rest with
  | [] => none
  | token :: rest => if token.lexeme = .punct c then some ⟨token.line, rest⟩ else none

def word? (cursor : Cursor) : Option (Token × String × Cursor) :=
  match cursor.rest with
  | [] => none
  | token :: rest =>
    match token.lexeme with
    | .word text => some (token, text, ⟨token.line, rest⟩)
    | _ => none

/-- Reads the tokens in front of the first one that does not satisfy `p`. -/
def skipWhile (p : Lexeme → Bool) (line : Nat) : List Token → Cursor
  | [] => ⟨line, []⟩
  | token :: rest =>
    if p token.lexeme then skipWhile p token.line rest else ⟨line, token :: rest⟩

/-- Qualifiers that may stand in front of a type and do not change its layout. -/
def idleQualifiers : List String :=
  ["highp", "mediump", "lowp", "row_major", "column_major", "precise", "invariant", "flat",
    "smooth", "noperspective", "readonly", "writeonly", "coherent", "volatile", "restrict"]

/-- Reads past the qualifiers that do not change the layout. -/
def skipQualifiers (cursor : Cursor) : Cursor :=
  skipWhile (fun | .word text => idleQualifiers.contains text | _ => false) cursor.line cursor.rest

/-- Reads to the closing brace that leaves `depth` open groups, or to the end of the tokens. -/
def skipGroup (depth line : Nat) : List Token → Cursor
  | [] => ⟨line, []⟩
  | token :: rest =>
    match token.lexeme with
    | .punct '{' => skipGroup (depth + 1) token.line rest
    | .punct '}' => if depth ≤ 1 then ⟨token.line, rest⟩ else skipGroup (depth - 1) token.line rest
    | _ => skipGroup depth token.line rest

/-- Reads to the next semicolon outside braces, or to the end of the tokens. -/
def skipStatement (depth line : Nat) : List Token → Cursor
  | [] => ⟨line, []⟩
  | token :: rest =>
    match token.lexeme with
    | .punct ';' => if depth = 0 then ⟨token.line, rest⟩ else skipStatement depth token.line rest
    | .punct '{' => skipStatement (depth + 1) token.line rest
    | .punct '}' => skipStatement (depth - 1) token.line rest
    | _ => skipStatement depth token.line rest

/-- What a step of a loop decides: to go on behind an item, to end with an item, or to end. -/
inductive Turn (σ α : Type) where
  | again (item : α) (state : σ)
  | last (item : α)
  | done

/-- Repeats `step` until it ends the loop or consumes nothing, and gives the items in order. -/
def loop {σ α : Type} (step : σ → Cursor → Reading (Turn σ α × Cursor)) (state : σ)
    (cursor : Cursor) : Reading (List α × Cursor) := do
  let (turn, next) ← step state cursor
  match turn with
  | .done => return ([], next)
  | .last item => return ([item], next)
  | .again item after =>
    if next.rest.length < cursor.rest.length then
      let (items, final) ← loop step after next
      return (item :: items, final)
    else return ([item], next)
  termination_by cursor.rest.length

section

variable {σ α : Type} {step : σ → Cursor → Reading (Turn σ α × Cursor)} {state : σ}
  {cursor next : Cursor} {notices : List Notice}

/-- An item in front of what the rest of the loop gives. -/
theorem loop_again {item : α} {after : σ}
    (h : step state cursor = ⟨notices, .ok (.again item after, next)⟩)
    (hlt : next.rest.length < cursor.rest.length) :
    loop step state cursor =
      ⟨notices ++ (loop step after next).notices,
        (loop step after next).result.map fun (items, final) => (item :: items, final)⟩ := by
  rw [loop, h]
  rcases hr : loop step after next with ⟨more, _ | ⟨items, final⟩⟩ <;>
    simp [hlt, hr, Except.map]

end

end Cursor

end UniformLayout.Source
