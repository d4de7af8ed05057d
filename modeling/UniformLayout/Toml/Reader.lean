import UniformLayout.Text.Cut

/-!
# Readers

A `Reader` takes something off the start of a text; when it cannot, it fails and takes nothing.
Readers are run one after the other as a monad, and `<|>` tries the second where the first fails.
The lexical parts that all of TOML shares stand here: blanks, ends of lines and comments.
-/

namespace UniformLayout.Toml

abbrev Reader (α : Type) := StateT (List Char) Option α

namespace Reader

variable {α β : Type}

def readAll? (reader : Reader α) (text : List Char) : Option α :=
  match reader text with
  | some (a, []) => some a
  | _ => none

def ahead : Reader (List Char) := fun text => some (text, text)

/-- One character that satisfies `p`. -/
def one (p : Char → Bool) : Reader Char
  | c :: rest => if p c then some (c, rest) else none
  | [] => none

def exactly (mark : List Char) : Reader Unit := fun text =>
  (Text.cutStart? mark text).map fun rest => ((), rest)

/-- The longest start of the text whose characters all satisfy `p`. -/
def run (p : Char → Bool) : Reader (List Char) := fun text =>
  some (text.takeWhile p, text.dropWhile p)

def run₁ (p : Char → Bool) : Reader (List Char) := do
  let found ← run p
  if found.isEmpty then failure
  return found

/-- Items as long as there are any. An item that takes nothing ends the list. -/
def many (item : Reader α) (text : List Char) : Option (List α × List Char) :=
  match item text with
  | none => some ([], text)
  | some (a, rest) =>
    if rest.length < text.length then
      (many item rest).map fun (others, final) => (a :: others, final)
    else some ([], text)
  termination_by text.length

/-- Items with `separator` between them. -/
def separated (item : Reader α) (separator : Reader β) : Reader (List α) :=
  (do
    let first ← item
    let others ← many do
      let _ ← separator
      item
    return first :: others) <|> pure []

end Reader

open Reader

/-- A character that may stand in comments and, in general, in strings: a tab, or no control
character. -/
def isPrintable (c : Char) : Bool :=
  c == '\t' || (0x20 ≤ c.toNat && c != '\x7f')

def blanks : Reader Unit := do
  let _ ← run fun c => c == ' ' || c == '\t'

def newline : Reader Unit := exactly ['\n'] <|> exactly ['\r', '\n']

def comment : Reader Unit := do
  exactly ['#']
  let _ ← run isPrintable

def endOfText : Reader Unit
  | [] => some ((), [])
  | _ :: _ => none

/-- What may follow a statement on its line, and the end of the line. -/
def lineEnd : Reader Unit := do
  blanks
  let _ ← optional comment
  newline <|> endOfText

def gap : Reader Unit := do
  let _ ← many ((do let _ ← run₁ fun c => c == ' ' || c == '\t') <|> newline <|> comment)

end UniformLayout.Toml
