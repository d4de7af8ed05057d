/-!
# Dates and times in TOML

A date is a day of the calendar, a time is a time of a day with any number of decimal places behind
its seconds, and a moment is both together. Only a moment may say how far it is ahead of universal
time; a minute may have a second 60.

Main statement: `Date.of?_eq_some_iff`.
-/

namespace UniformLayout.Toml

/-- A day of the calendar. -/
structure Date where
  year : Nat
  month : Nat
  day : Nat
  deriving DecidableEq, Repr

namespace Date

def isLeapYear (year : Nat) : Bool :=
  year % 4 == 0 && (year % 100 != 0 || year % 400 == 0)

def daysIn (year month : Nat) : Nat :=
  if month = 2 then (if isLeapYear year then 29 else 28)
  else if month ∈ [4, 6, 9, 11] then 30
  else 31

def InCalendar (date : Date) : Prop :=
  1 ≤ date.month ∧ date.month ≤ 12 ∧ 1 ≤ date.day ∧ date.day ≤ daysIn date.year date.month

instance (date : Date) : Decidable date.InCalendar := by
  unfold InCalendar
  infer_instance

/-- The date with the given numbers, if the calendar has it. -/
def of? (year month day : Nat) : Option Date :=
  let date : Date := ⟨year, month, day⟩
  if date.InCalendar then some date else none

theorem of?_eq_some_iff {year month day : Nat} {date : Date} :
    of? year month day = some date ↔ date = ⟨year, month, day⟩ ∧ date.InCalendar := by
  simp only [of?, Option.ite_none_right_eq_some, Option.some.injEq]
  constructor
  · rintro ⟨h, rfl⟩
    exact ⟨rfl, h⟩
  · rintro ⟨rfl, h⟩
    exact ⟨h, rfl⟩

end Date

/-- A time of a day. The decimal places of the seconds are kept as they are written. -/
structure Time where
  hour : Nat
  minute : Nat
  second : Nat
  places : String
  deriving DecidableEq, Repr

/-- A date, a time, or both. -/
inductive DateTime where
  | date (date : Date)
  | time (time : Time)
  /-- A time of a date, `ahead` minutes ahead of universal time if that is known. -/
  | moment (date : Date) (time : Time) (ahead : Option Int)
  deriving DecidableEq, Repr

end UniformLayout.Toml
