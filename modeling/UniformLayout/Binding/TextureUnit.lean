import UniformLayout.Binding.Pool
import UniformLayout.Layout
import UniformLayout.Table

/-!
# Texture units of free uniforms

Each handle below a free uniform takes a texture unit, and the handles of one uniform take
consecutive units. Uniforms with an explicit binding are served first and start at their binding;
every other uniform then takes the first free stretch of units, in declaration order.

Main statement: `firstStretch?_eq_some`.
-/

namespace UniformLayout

/-- Consecutive texture units. -/
structure UnitRange where
  first : Nat
  count : Nat
  deriving DecidableEq, Repr, Inhabited

def UnitRange.covers (range : UnitRange) (unit : Nat) : Bool :=
  range.first ≤ unit && unit < range.first + range.count

/-- The units given out so far, by the name of their uniform. -/
structure UnitPlan where
  taken : List UnitRange := []
  firsts : Table String Nat := []
  deriving DecidableEq, Repr, Inhabited

namespace UnitPlan

def isTaken (plan : UnitPlan) (unit : Nat) : Bool := plan.taken.any (·.covers unit)

def take (plan : UnitPlan) (name : String) (range : UnitRange) : UnitPlan where
  taken := range :: plan.taken
  firsts := plan.firsts.insert name range.first

/-- The first taken unit among `count` units from `unit` on. -/
def firstTaken? (plan : UnitPlan) : (count unit : Nat) → Option Nat
  | 0, _ => none
  | count + 1, unit => if plan.isTaken unit then some unit else firstTaken? plan count (unit + 1)

/-- The first of `starts` units from `start` on at which `count` free units below `max` begin. -/
def firstStretch? (plan : UnitPlan) (max count : Nat) : (starts start : Nat) → Option Nat
  | 0, _ => none
  | starts + 1, start =>
    if start + count ≤ max ∧ plan.firstTaken? count start = none then some start
    else firstStretch? plan max count starts (start + 1)

theorem firstTaken?_eq_none_iff {plan : UnitPlan} {count unit : Nat} :
    plan.firstTaken? count unit = none ↔
      ∀ u, unit ≤ u → u < unit + count → plan.isTaken u = false := by
  induction count generalizing unit with
  | zero =>
    simp only [firstTaken?, true_iff]
    intro u h₁ h₂
    omega
  | succ count ih =>
    simp only [firstTaken?]
    by_cases ht : plan.isTaken unit
    · simp only [ht, if_true, reduceCtorEq, false_iff]
      intro h
      exact absurd (h unit (Nat.le_refl _) (by omega)) (by simp [ht])
    · simp only [ht, Bool.false_eq_true, if_false, ih]
      constructor
      · intro h u h₁ h₂
        by_cases he : u = unit
        · simpa [he] using ht
        · exact h u (by omega) (by omega)
      · intro h u h₁ h₂
        exact h u (by omega) (by omega)

/-- A stretch that is found lies below the maximum and is free. -/
theorem firstStretch?_eq_some {plan : UnitPlan} {max count starts start found : Nat}
    (h : plan.firstStretch? max count starts start = some found) :
    found + count ≤ max ∧ ∀ u, found ≤ u → u < found + count → plan.isTaken u = false := by
  induction starts generalizing start with
  | zero => simp [firstStretch?] at h
  | succ starts ih =>
    simp only [firstStretch?] at h
    split at h
    · rename_i hc
      simp only [Option.some.injEq] at h
      subst h
      exact ⟨hc.1, firstTaken?_eq_none_iff.1 hc.2⟩
    · exact ih h

/-- Serves a uniform that asks for the units from `first` on. -/
def takeAt (plan : UnitPlan) (max : Nat) (name : String) (first count : Nat) :
    Except BindingError UnitPlan :=
  if ¬ Fits (first + count) then .error .exhausted
  else if first + count > max then .error (.slotOutOfRange (first + count - 1) max)
  else match plan.firstTaken? count first with
    | some unit => .error (.slotConflict unit)
    | none => .ok (plan.take name ⟨first, count⟩)

def takeAnywhere (plan : UnitPlan) (max : Nat) (name : String) (count : Nat) :
    Except BindingError UnitPlan :=
  match plan.firstStretch? max count max 0 with
  | some first => .ok (plan.take name ⟨first, count⟩)
  | none => .error .exhausted

/-- Serves the fields that have a binding, in order. -/
def serveBound (max : Nat) (plan : UnitPlan) (field : FieldLayout) : Except BindingError UnitPlan :=
  match field.qualifiers.binding with
  | some first => plan.takeAt max field.name first field.handleCount
  | none => .ok plan

/-- Serves the fields that have no binding, in order. -/
def serveFree (max : Nat) (plan : UnitPlan) (field : FieldLayout) : Except BindingError UnitPlan :=
  match field.qualifiers.binding with
  | some _ => .ok plan
  | none => plan.takeAnywhere max field.name field.handleCount

end UnitPlan

/-- Texture units of a program, unless the configuration says otherwise. -/
def defaultMaxTextureUnits : Nat := 32

/-- The first texture unit of every field that needs some, out of `max` units. -/
def assignTextureUnits (fields : List FieldLayout) (max : Nat) :
    Except BindingError (Table String Nat) := do
  let needing := fields.filter (0 < ·.handleCount)
  let bound ← needing.foldlM (UnitPlan.serveBound max) {}
  let all ← needing.foldlM (UnitPlan.serveFree max) bound
  return all.firsts

end UniformLayout
