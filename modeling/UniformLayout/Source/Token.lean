import UniformLayout.Text.Blank

/-!
# Tokens

A source without comments is a list of tokens and directive lines. Words and numbers are ASCII; any
other character that is not a space is a token of its own. A directive is a line whose first token
would start with `#`; it runs up to the line feed and takes no part in the token list.

Every token keeps the text between it and the token before, so that a stretch of the source can be
given back as it was written.

Main statement: `itemsFrom_nil`.
-/

namespace UniformLayout.Source

/-- What a token is. -/
inductive Lexeme where
  | word (text : String)
  | number (text : String)
  | punct (char : Char)
  deriving DecidableEq, Repr, Inhabited

def Lexeme.text : Lexeme → String
  | .word text => text
  | .number text => text
  | .punct c => c.toString

/-- A lexeme with its place. Columns count bytes from 1; `lead` is the text behind the token
before. -/
structure Token where
  lexeme : Lexeme
  line : Nat
  column : Nat
  lead : List Char
  deriving DecidableEq, Repr, Inhabited

def Token.text (token : Token) : String := token.lexeme.text

/-- One thing found in a source. -/
inductive Item where
  | token (token : Token)
  | directive (text : List Char)
  deriving DecidableEq, Repr

def startsWord (c : Char) : Bool := c.isAlpha || c == '_'

def inWord (c : Char) : Bool := c.isAlphanum || c == '_'

def inNumber (c : Char) : Bool := c.isAlphanum || c == '.'

/-- The lexeme that starts with `c`, and the text behind it. -/
def lexeme (c : Char) (rest : List Char) : Lexeme × List Char :=
  if startsWord c then
    (.word (String.ofList (c :: rest.takeWhile inWord)), rest.dropWhile inWord)
  else if c.isDigit then
    (.number (String.ofList (c :: rest.takeWhile inNumber)), rest.dropWhile inNumber)
  else (.punct c, rest)

theorem length_dropWhile_le {α : Type} (p : α → Bool) (l : List α) :
    (l.dropWhile p).length ≤ l.length :=
  (List.dropWhile_suffix p).length_le

theorem length_lexeme_snd_le (c : Char) (rest : List Char) :
    (lexeme c rest).2.length ≤ rest.length := by
  unfold lexeme
  split
  · exact length_dropWhile_le _ _
  · split
    · exact length_dropWhile_le _ _
    · exact Nat.le_refl _

/-- The items of a text that starts at the given place. `fresh` says that the line holds no token
yet, and `lead` is the text since the last token. Nothing but a line feed can follow a directive, so
the column behind it does not matter. -/
def itemsFrom (line column : Nat) (fresh : Bool) (lead : List Char) : List Char → List Item
  | [] => []
  | c :: rest =>
    if c = '\n' then itemsFrom (line + 1) 1 true (lead ++ [c]) rest
    else if Text.isSpace c then itemsFrom line (column + 1) fresh (lead ++ [c]) rest
    else if c = '#' ∧ fresh then
      have := length_dropWhile_le (· != '\n') rest
      let text := c :: rest.takeWhile (· != '\n')
      .directive text ::
        itemsFrom line column true (lead ++ text) (rest.dropWhile (· != '\n'))
    else
      have := length_lexeme_snd_le c rest
      let found := lexeme c rest
      .token ⟨found.1, line, column, lead⟩ ::
        itemsFrom line (column + found.1.text.utf8ByteSize) false [] found.2
  termination_by text => text.length

@[simp] theorem itemsFrom_nil (line column : Nat) (fresh : Bool) (lead : List Char) :
    itemsFrom line column fresh lead [] = [] := by
  simp [itemsFrom]

def items (text : List Char) : List Item :=
  itemsFrom 1 1 true [] text

def tokensOf (found : List Item) : List Token :=
  found.filterMap fun
    | .token token => some token
    | .directive _ => none

def directivesOf (found : List Item) : List (List Char) :=
  found.filterMap fun
    | .token _ => none
    | .directive text => some text

end UniformLayout.Source
