import UniformLayout.Text.Digits
import UniformLayout.Toml.Reader

/-!
# Quoted strings

TOML quotes strings in four forms: between `"` escapes stand for special characters, between `'`
every character stands for itself, and each form has a variant with three quotes that may span
lines. `quotedText` reads every form; `quote` writes a string in the first form that can hold it
without escapes, and with escapes where there is none.

Main statement: `quote_of_plain`.
-/

namespace UniformLayout.Toml

open Reader

/-! ## Reading -/

/-- The character that a number of hexadecimal digits stands for. -/
def codePoint (digits : Nat) : Reader Char := fun text => do
  let found := text.take digits
  if found.length ≠ digits then none
  let value ← Text.number? 16 0 found
  if value.isValidChar then some (Char.ofNat value, text.drop digits) else none

/-- The character that an escape stands for, behind the backslash. -/
def escaped : Reader Char := do
  match ← one fun _ => true with
  | 'b' => return '\x08'
  | 't' => return '\t'
  | 'n' => return '\n'
  | 'f' => return '\x0c'
  | 'r' => return '\r'
  | '"' => return '"'
  | '\\' => return '\\'
  | 'u' => codePoint 4
  | 'U' => codePoint 8
  | _ => failure

def basicCharacter : Reader Char :=
  (do exactly ['\\']; escaped) <|> one fun c => isPrintable c && c != '"' && c != '\\'

def literalCharacter : Reader Char :=
  one fun c => isPrintable c && c != '\''

/-- The end of a line inside a string counts as a line feed. -/
def lineFeed : Reader Char := do
  newline
  return '\n'

/-- A backslash at the end of a line, with all white space that follows; it stands for nothing. -/
def lineContinuation : Reader Unit := do
  exactly ['\\']
  blanks
  newline
  let _ ← many (newline <|> do let _ ← one fun c => c == ' ' || c == '\t')

/-- A quote that does not begin the end of a string in three quotes. -/
def innerQuote (quote : Char) : Reader Char := do
  if (Text.cutStart? [quote, quote, quote] (← ahead)).isSome then failure
  one (· == quote)

/-- The end of a string in three quotes. Up to two more quotes in front of it belong to the
string. -/
def closing (quote : Char) : Reader (List Char) := do
  exactly [quote, quote, quote]
  let first ← optional (one (· == quote))
  let second ← optional (one (· == quote))
  return first.toList ++ second.toList

def basicText : Reader (List Char) := do
  exactly ['"']
  let content ← many basicCharacter
  exactly ['"']
  return content

def literalText : Reader (List Char) := do
  exactly ['\'']
  let content ← many literalCharacter
  exactly ['\'']
  return content

/-- A string in three quotes, of which the pieces are read by `piece`. The end of a line right behind
the opening quotes does not belong to it. -/
def linesText (quote : Char) (piece : Reader (List Char)) : Reader (List Char) := do
  exactly [quote, quote, quote]
  let _ ← optional newline
  let pieces ← many piece
  return pieces.flatten ++ (← closing quote)

/-- A piece of a string with escapes that may span lines. -/
def basicPiece : Reader (List Char) :=
  (do lineContinuation; return []) <|>
    (do return [← basicCharacter <|> lineFeed <|> innerQuote '"'])

/-- A piece of a string without escapes that may span lines. -/
def literalPiece : Reader (List Char) := do
  return [← literalCharacter <|> lineFeed <|> innerQuote '\'']

def quotedText : Reader String :=
  String.ofList <$> (linesText '"' basicPiece <|> basicText <|> linesText '\'' literalPiece <|>
    literalText)

/-! ## Writing -/

/-- A character that has to be escaped: a control character that is no tab and no line feed. -/
def isUnprintable (c : Char) : Bool := !isPrintable c && c != '\n'

/-- The length of the longest run of `mark`, where a run of `ahead` stands in front of the text. -/
def longestRun (mark : Char) : (ahead : Nat) → List Char → Nat
  | ahead, [] => ahead
  | ahead, c :: rest =>
    if c = mark then longestRun mark (ahead + 1) rest else max ahead (longestRun mark 0 rest)

def fourDigits (value : Nat) : List Char :=
  let digits := [value / 4096, value / 256 % 16, value / 16 % 16, value % 16]
  digits.map fun digit => (Text.hexDigit digit).toUpper

/-- The escape of a character, if it has one in a string with escapes on one line. Quotes are left
to `escapeText`. -/
def escape? : Char → Option (List Char)
  | '\x08' => some ['\\', 'b']
  | '\t' => some ['\\', 't']
  | '\n' => some ['\\', 'n']
  | '\x0c' => some ['\\', 'f']
  | '\r' => some ['\\', 'r']
  | '\\' => some ['\\', '\\']
  | c => if isUnprintable c then some ('\\' :: 'u' :: fourDigits c.toNat) else none

/-- The text with escapes. At most `allowed` quotes in a row stand for themselves, of which `left`
may follow at once; a line feed does when the text may span lines. -/
def escapeText (spansLines : Bool) (allowed : Nat) : (left : Nat) → List Char → List Char
  | _, [] => []
  | left, c :: rest =>
    if c = '"' then
      match left with
      | 0 => '\\' :: '"' :: escapeText spansLines allowed allowed rest
      | left + 1 => c :: escapeText spansLines allowed left rest
    else if c = '\n' ∧ spansLines then c :: escapeText spansLines allowed allowed rest
    else (escape? c).getD [c] ++ escapeText spansLines allowed allowed rest

/-- The text between `"`. -/
def quoteBasic (text : List Char) : List Char :=
  '"' :: (escapeText false 0 0 text ++ ['"'])

/-- The text between three quotes, behind a line end if it spans lines. -/
def quoteLines (mark : Char) (spansLines : Bool) (body : List Char) : List Char :=
  let marks := [mark, mark, mark]
  marks ++ (if spansLines then ['\n'] else []) ++ body ++ marks

/-- The text in the first form that holds it without escapes: between `"`, between `'`, between
three `"`, between three `'`. Where none does, it is written with escapes. -/
def quoteText (text : List Char) : List Char :=
  let spansLines := text.contains '\n'
  let printable := !text.any isUnprintable
  let hasBackslash := text.contains '\\'
  if printable && !hasBackslash && !text.contains '"' && !spansLines then quoteBasic text
  else if printable && !text.contains '\'' && !spansLines then '\'' :: (text ++ ['\''])
  else if printable && !hasBackslash && longestRun '"' 0 text ≤ 2 then
    quoteLines '"' spansLines (escapeText true 2 2 text)
  else if printable && longestRun '\'' 0 text ≤ 2 then quoteLines '\'' spansLines text
  else if spansLines then quoteLines '"' true (escapeText true 2 2 text)
  else quoteBasic text

def quote (text : String) : String := String.ofList (quoteText text.toList)

/-- A character that stands for itself between `"`. -/
def isPlain (c : Char) : Bool := isPrintable c && c != '\t' && c != '"' && c != '\\'

theorem escapeText_of_plain {text : List Char} (h : ∀ c ∈ text, isPlain c) :
    escapeText false 0 0 text = text := by
  induction text with
  | nil => rfl
  | cons c rest ih =>
    have hc : isPlain c = true := h c (by simp)
    have hr := ih fun d hd => h d (by simp [hd])
    simp only [isPlain, Bool.and_eq_true, bne_iff_ne] at hc
    have hn : c ≠ '\n' := by rintro rfl; simp [isPrintable] at hc
    have he : escape? c = none := by
      have hu : isUnprintable c = false := by simp [isUnprintable, hc.1.1.1]
      have h₁ : c ≠ '\x08' := by rintro rfl; simp [isPrintable] at hc
      have h₂ : c ≠ '\x0c' := by rintro rfl; simp [isPrintable] at hc
      have h₃ : c ≠ '\r' := by rintro rfl; simp [isPrintable] at hc
      unfold escape?
      split <;> simp_all
    simp [escapeText, hc.1.2, hn, he, hr]

/-- A string of plain characters is written between `"` as it is. -/
theorem quote_of_plain {text : String} (h : ∀ c ∈ text.toList, isPlain c) :
    quote text = "\"" ++ text ++ "\"" := by
  have hall : ∀ c ∈ text.toList, isPrintable c = true ∧ c ≠ '\t' ∧ c ≠ '"' ∧ c ≠ '\\' := by
    intro c hc
    simpa [isPlain, and_assoc] using h c hc
  have hq : '"' ∉ text.toList := fun hm => (hall _ hm).2.2.1 rfl
  have hb : '\\' ∉ text.toList := fun hm => (hall _ hm).2.2.2 rfl
  have hn : '\n' ∉ text.toList := fun hm => absurd (hall _ hm).1 (by decide)
  have hu : text.toList.any isUnprintable = false := by
    simp only [List.any_eq_false]
    intro c hc
    simp [isUnprintable, (hall c hc).1]
  have : quoteText text.toList = '"' :: (text.toList ++ ['"']) := by
    simp [quoteText, hq, hb, hn, hu, quoteBasic, escapeText_of_plain h]
  apply String.toList_inj.1
  simp [quote, this]

end UniformLayout.Toml
