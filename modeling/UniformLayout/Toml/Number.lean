import UniformLayout.Text.Digits
import UniformLayout.Toml.Reader
import UniformLayout.Toml.Value

/-!
# Numbers in TOML

Integers are decimal with an optional sign and without leading zeros, or have one of the marks `0x`,
`0o` and `0b` in front; they have to fit in 64 bits with a sign. Single `_` may stand between
digits. Floating-point numbers have a fraction or an exponent, or are infinite or no number; a
positive one has to be finite once it is rounded to 64 bits.

Main statement: `inRange_of_integerOf?`.
-/

namespace UniformLayout.Toml

open Reader

/-- Digits; single `_` may stand between them and are dropped. -/
def digits (isDigit : Char → Bool) : Reader (List Char) := do
  let first ← one isDigit
  let others ← many do
    let _ ← optional (exactly ['_'])
    one isDigit
  return first :: others

/-- An optional sign; says whether it is a minus. -/
def sign : Reader Bool := do
  let mark ← optional (one fun c => c == '+' || c == '-')
  return mark == some '-'

/-- The digits of a whole number: `0`, or any without a leading zero. -/
def wholeDigits : Reader (List Char) :=
  (do exactly ['0']; return ['0']) <|> digits Char.isDigit

/-! ## Integers -/

def inRange (value : Int) : Bool :=
  let half : Int := ((1 <<< 63 : Nat) : Int)
  value < half && -half ≤ value

/-- The number that some digits write, if it is in range. -/
def integerOf? (base : Nat) (isNegative : Bool) (text : List Char) : Option Int :=
  (Text.number? base 0 text).bind fun magnitude =>
    let value : Int := if isNegative then -magnitude else magnitude
    if inRange value then some value else none

theorem inRange_of_integerOf? {base : Nat} {isNegative : Bool} {text : List Char} {value : Int}
    (h : integerOf? base isNegative text = some value) : inRange value := by
  simp only [integerOf?, Option.bind_eq_some_iff, Option.ite_none_right_eq_some,
    Option.some.injEq] at h
  obtain ⟨magnitude, _, hr, rfl⟩ := h
  exact hr

def markedInteger (mark : Char) (base : Nat) : Reader Int := do
  exactly ['0', mark]
  let found ← digits fun c => (Text.digitValue? base c).isSome
  liftM (integerOf? base false found)

def decimalInteger : Reader Int := do
  let isNegative ← sign
  let found ← wholeDigits
  liftM (integerOf? 10 isNegative found)

def anyInteger : Reader Int :=
  markedInteger 'x' 16 <|> markedInteger 'o' 8 <|> markedInteger 'b' 2 <|> decimalInteger

/-! ## Floating-point numbers -/

def fraction : Reader (List Char) := do
  exactly ['.']
  digits Char.isDigit

def exponent : Reader Int := do
  let _ ← one fun c => c == 'e' || c == 'E'
  let isNegative ← sign
  let found ← digits Char.isDigit
  let magnitude ← liftM (Text.number? 10 0 found)
  return if isNegative then -magnitude else magnitude

def overflow : Nat := (1 <<< 1024) - (1 <<< 970)

/-- The digits, with the point moved `scale` places to the right, are a number that rounds to
infinity. -/
def isTooLarge (mantissa : List Char) (scale : Int) : Bool :=
  let significant := mantissa.dropWhile (· == '0')
  let places := significant.length + scale
  if significant.isEmpty || places < 300 then false
  else if 310 < places then true
  else match Text.number? 10 0 significant with
    | some value => overflow * Nat.pow 10 (-scale).toNat ≤ value * Nat.pow 10 scale.toNat
    | none => false

/-- A number with a fraction or an exponent, as text without `_`. -/
def finiteFloat : Reader String := do
  let isNegative ← sign
  let whole ← wholeDigits
  let behind ← optional fraction
  let power ← optional exponent
  if behind.isNone && power.isNone then failure
  let places := behind.getD []
  let scale := power.getD 0
  if !isNegative && isTooLarge (whole ++ places) (scale - places.length) then failure
  let front := if isNegative then "-" else ""
  return s!"{front}{String.ofList whole}.{String.ofList places}e{scale}"

def specialFloat : Reader String := do
  let isNegative ← sign
  let front := if isNegative then "-" else ""
  (do exactly ['i', 'n', 'f']; return front ++ "inf") <|>
    (do exactly ['n', 'a', 'n']; return front ++ "nan")

def number : Reader Toml :=
  (Toml.float <$> (finiteFloat <|> specialFloat)) <|> (Toml.integer <$> anyInteger)

end UniformLayout.Toml
