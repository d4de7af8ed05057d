import UniformLayout.Text.Digits
import UniformLayout.Toml.Calendar
import UniformLayout.Toml.Reader

/-!
# Reading dates and times in TOML

A date is written `1979-05-27` and a time `07:32:00.5`, always with seconds. A `T` or a single blank
stands between the two, and `Z` or a difference such as `-07:00` may follow them.
-/

namespace UniformLayout.Toml

open Reader

/-- A number of two digits, up to `greatest`. -/
def two (greatest : Nat) : Reader Nat := do
  let tens ← one Char.isDigit
  let units ← one Char.isDigit
  liftM ((Text.number? 10 0 [tens, units]).filter (· ≤ greatest))

def date : Reader Date := do
  let century ← two 99
  let year ← two 99
  exactly ['-']
  let month ← two 12
  exactly ['-']
  let day ← two 31
  liftM (Date.of? (century * 100 + year) month day)

def hourAndMinute : Reader (Nat × Nat) := do
  let hour ← two 23
  exactly [':']
  return (hour, ← two 59)

def time : Reader Time := do
  let (hour, minute) ← hourAndMinute
  exactly [':']
  let second ← two 60
  let places ← optional do
    exactly ['.']
    run₁ Char.isDigit
  return ⟨hour, minute, second, String.ofList (places.getD [])⟩

/-- The minutes by which a time is ahead of universal time. -/
def difference : Reader Int :=
  (do
    let _ ← one fun c => c == 'Z' || c == 'z'
    return 0) <|> do
  let mark ← one fun c => c == '+' || c == '-'
  let (hours, minutes) ← hourAndMinute
  let total : Int := hours * 60 + minutes
  return if mark == '-' then -total else total

/-- The time behind a date, and how far it is ahead of universal time. -/
def timeOfDate : Reader (Time × Option Int) := do
  let _ ← one fun c => c == 'T' || c == 't' || c == ' '
  return (← time, ← optional difference)

def anyDateTime : Reader DateTime :=
  (do
    let day ← date
    match ← optional timeOfDate with
    | some (time, ahead) => return .moment day time ahead
    | none => return .date day) <|>
  (DateTime.time <$> time)

end UniformLayout.Toml
