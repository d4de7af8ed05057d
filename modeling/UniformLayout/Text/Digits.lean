import UniformLayout.Numeric.Align
import UniformLayout.Text.Cut

/-!
# Numbers as text

Reading unsigned numbers that fit in 32 bits, and writing bytes as hexadecimal digits.

Main statement: `unsigned?_fits`.
-/

namespace UniformLayout.Text

def digitValue? (base : Nat) (c : Char) : Option Nat :=
  let value? : Option Nat :=
    if c.isDigit then some (c.toNat - '0'.toNat)
    else if 'a' ≤ c ∧ c ≤ 'f' then some (c.toNat - 'a'.toNat + 10)
    else if 'A' ≤ c ∧ c ≤ 'F' then some (c.toNat - 'A'.toNat + 10)
    else none
  value?.filter (· < base)

/-- The number that the digits write, most significant first, on top of `high`. -/
def number? (base : Nat) : (high : Nat) → List Char → Option Nat
  | high, [] => some high
  | high, c :: rest => do number? base (high * base + (← digitValue? base c)) rest

/-- At least one digit, with an optional plus sign in front, for a number that fits in 32 bits. -/
def unsigned? (base : Nat) (text : List Char) : Option Nat :=
  let digits := match text with
    | '+' :: rest => rest
    | _ => text
  if digits.isEmpty then none else (number? base 0 digits).bind checked

theorem unsigned?_fits {base : Nat} {text : List Char} {n : Nat} (h : unsigned? base text = some n) :
    Fits n := by
  unfold unsigned? at h
  generalize (match text with | '+' :: rest => rest | _ => text) = digits at h
  by_cases hd : digits.isEmpty
  · simp [hd] at h
  · simp only [hd, Bool.false_eq_true, if_false, Option.bind_eq_some_iff, checked_eq_some_iff] at h
    obtain ⟨m, _, hm, rfl⟩ := h
    exact hm

/-- An integer literal of a source: decimal, or hexadecimal behind `0x`, with an optional `u`. -/
def integerLiteral? (text : String) : Option Nat :=
  let cs := text.toList
  let digits := ((cutEnd? ['u'] cs).or (cutEnd? ['U'] cs)).getD cs
  match (cutStart? ['0', 'x'] digits).or (cutStart? ['0', 'X'] digits) with
  | some hex => unsigned? 16 hex
  | none => unsigned? 10 digits

/-- The lower-case hexadecimal digit of a value below 16. -/
def hexDigit (value : Nat) : Char :=
  if value < 10 then Char.ofNat ('0'.toNat + value) else Char.ofNat ('a'.toNat + (value - 10))

def hex (bytes : List UInt8) : String :=
  String.ofList (bytes.flatMap fun b => [hexDigit (b.toNat / 16), hexDigit (b.toNat % 16)])

/-- The text behind enough spaces to be at least `width` characters long. -/
def padStart (width : Nat) (text : String) : String :=
  String.ofList (List.replicate (width - text.length) ' ') ++ text

end UniformLayout.Text
