import UniformLayout.Source.Token
import UniformLayout.Text.Digits

/-!
# Named constants

Array lengths and layout values may be written as the name of a constant. A constant comes from a
`#define` line, of which the last one of a name counts, or from a statement
`const int NAME = value;`, of which the first one counts where no `#define` gives the name. A value
may name another constant; only a bounded number of such links is followed, so that constants
defined by each other have no value.

Main statement: `resolve?_of_literal`.
-/

namespace UniformLayout.Source

/-- Names with the text they stand for; the first entry of a name counts. -/
abbrev Constants := List (String × String)

namespace Constants

/-- The name and the first word of the replacement of a `#define` line. -/
def ofDirective? (directive : List Char) : Option (String × String) :=
  match Text.words (directive.dropWhile (· == '#')) with
  | keyword :: name :: value :: _ =>
    if keyword = "define".toList then some (String.ofList name, String.ofList value) else none
  | _ => none

/-- The constant defined by the statement at the start of the tokens. -/
def ofStatement? : List Token → Option (String × String)
  | keyword :: type :: name :: equals :: value :: ending :: _ =>
    match name.lexeme, value.lexeme with
    | .word name, .word text | .word name, .number text =>
      if keyword.text = "const" ∧ (type.text = "int" ∨ type.text = "uint") ∧
          equals.lexeme = .punct '=' ∧ ending.lexeme = .punct ';' then
        some (name, text)
      else none
    | _, _ => none
  | _ => none

/-- The constants of all statements, in source order. -/
def ofStatements : List Token → Constants
  | [] => []
  | token :: rest => (ofStatement? (token :: rest)).toList ++ ofStatements rest

def ofItems (found : List Item) : Constants :=
  ((directivesOf found).filterMap ofDirective?).reverse ++ ofStatements (tokensOf found)

/-- Links that are followed from one constant to the next. -/
def maxDepth : Nat := 16

/-- The number that `text` stands for after at most `depth - 1` links. -/
def resolveWithin? (constants : Constants) : (depth : Nat) → (text : String) → Option Nat
  | 0, _ => none
  | depth + 1, text =>
    match Text.integerLiteral? text with
    | some value => some value
    | none => (constants.lookup text).bind (resolveWithin? constants depth)

/-- The number that `text` stands for. -/
def resolve? (constants : Constants) (text : String) : Option Nat :=
  constants.resolveWithin? maxDepth text

/-- A literal stands for itself, whatever the constants are. -/
theorem resolve?_of_literal {constants : Constants} {text : String} {value : Nat}
    (h : Text.integerLiteral? text = some value) : constants.resolve? text = some value := by
  simp [resolve?, maxDepth, resolveWithin?, h]

end Constants

end UniformLayout.Source
