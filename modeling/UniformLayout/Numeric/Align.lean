/-!
# Alignment arithmetic

Offsets and sizes are natural numbers; the device addresses them with 32 bits. `roundUp` is the
exact rounding, `checkedRoundUp` the one that gives nothing when the result needs more than 32
bits, and `arrayStride` the distance between the elements of an array.

Main statements: `le_roundUp`, `roundUp_dvd` and `roundUp_le_of_dvd`, by which `roundUp` is the least
multiple that is not below its argument, and `checkedRoundUp_eq_some_iff`.
-/

namespace UniformLayout

/-- The number is addressable with 32 bits. -/
def Fits (n : Nat) : Prop := n < 1 <<< 32

instance (n : Nat) : Decidable (Fits n) := inferInstanceAs (Decidable (n < 1 <<< 32))

def checked (n : Nat) : Option Nat := if Fits n then some n else none

/-- The least multiple of `alignment` that is not below `value`; alignment 0 rounds nothing. -/
def roundUp (value alignment : Nat) : Nat :=
  if alignment = 0 then value else (value + alignment - 1) / alignment * alignment

/-- `roundUp`, refused when the result does not fit in 32 bits. Alignment 0 is always accepted. -/
def checkedRoundUp (value alignment : Nat) : Option Nat :=
  if alignment = 0 then some value else checked (roundUp value alignment)

/-- Arrays and aggregates are aligned to at least this many bytes. -/
def minAlignment : Nat := 16

/-- The distance between array elements of the given footprint: the element is padded to its own
alignment and then to `minAlignment`. -/
def arrayStride (size alignment : Nat) : Option Nat := do
  checkedRoundUp (← checkedRoundUp size alignment) minAlignment

theorem le_roundUp (value alignment : Nat) : value ≤ roundUp value alignment := by
  unfold roundUp
  split
  · exact Nat.le_refl _
  · have h := Nat.div_add_mod (value + alignment - 1) alignment
    have hlt := Nat.mod_lt (value + alignment - 1) (Nat.pos_of_ne_zero ‹_›)
    rw [Nat.mul_comm] at h
    omega

theorem roundUp_dvd {alignment : Nat} (value : Nat) (h : alignment ≠ 0) :
    alignment ∣ roundUp value alignment := by
  rw [roundUp, if_neg h]
  exact Nat.dvd_mul_left _ _

/-- No smaller multiple will do. -/
theorem roundUp_le_of_dvd {value alignment multiple : Nat} (h : alignment ∣ multiple)
    (hle : value ≤ multiple) : roundUp value alignment ≤ multiple := by
  unfold roundUp
  split
  · exact hle
  · rename_i hne
    obtain ⟨k, rfl⟩ := h
    have hlt : (value + alignment - 1) / alignment < k + 1 := by
      apply Nat.div_lt_of_lt_mul
      rw [Nat.mul_add, Nat.mul_one]
      omega
    rw [Nat.mul_comm]
    exact Nat.mul_le_mul_left alignment (Nat.le_of_lt_succ hlt)

theorem roundUp_eq_self_of_dvd {value alignment : Nat} (h : alignment ∣ value) :
    roundUp value alignment = value :=
  Nat.le_antisymm (roundUp_le_of_dvd h (Nat.le_refl _)) (le_roundUp value alignment)

@[simp] theorem checked_eq_some_iff {n m : Nat} : checked n = some m ↔ Fits n ∧ n = m := by
  by_cases h : Fits n <;> simp [checked, h]

@[simp] theorem checked_eq_none_iff {n : Nat} : checked n = none ↔ ¬ Fits n := by
  by_cases h : Fits n <;> simp [checked, h]

/-- Rounding succeeds exactly when the exact result fits. -/
theorem checkedRoundUp_eq_some_iff {value alignment r : Nat} (h : alignment ≠ 0) :
    checkedRoundUp value alignment = some r ↔
      Fits (roundUp value alignment) ∧ roundUp value alignment = r := by
  simp [checkedRoundUp, h]

end UniformLayout
