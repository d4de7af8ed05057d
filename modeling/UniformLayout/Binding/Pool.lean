import UniformLayout.Error

/-!
# Binding slots of uniform blocks

A `SlotAllocator` hands out binding slots from a state of its own choice; a failed request may
change that state. `BindingPool` is the allocator of one program: a slot that is asked for is given
if it is below the pool's maximum and free, and otherwise the lowest free slot is given.

Main statements: `lowestFree?_eq_some_iff` and `BindingPool.allocate_eq_ok`.
-/

namespace UniformLayout

/-- A way to hand out binding slots: `allocate` answers a request for a given slot, or for any. -/
structure SlotAllocator (σ : Type) where
  allocate : Option Nat → σ → Except BindingError Nat × σ

/-- Answers as the given allocator does and notes every request. -/
def SlotAllocator.recording {σ : Type} (inner : SlotAllocator σ) :
    SlotAllocator (σ × List (Option Nat)) where
  allocate request state :=
    let (answer, after) := inner.allocate request state.1
    (answer, after, state.2 ++ [request])

/-- The first of `count` slots from `slot` on that is not used. -/
def lowestFree? (isUsed : Nat → Bool) : (count slot : Nat) → Option Nat
  | 0, _ => none
  | count + 1, slot => if isUsed slot then lowestFree? isUsed count (slot + 1) else some slot

/-- The slot found is free and in range, and no slot before it is free. -/
theorem lowestFree?_eq_some_iff {isUsed : Nat → Bool} {count slot found : Nat} :
    lowestFree? isUsed count slot = some found ↔
      slot ≤ found ∧ found < slot + count ∧ isUsed found = false ∧
        ∀ s, slot ≤ s → s < found → isUsed s = true := by
  induction count generalizing slot with
  | zero =>
    simp only [lowestFree?, reduceCtorEq, false_iff]
    rintro ⟨_, _, _⟩
    omega
  | succ count ih =>
    simp only [lowestFree?]
    by_cases hu : isUsed slot
    · simp only [hu, if_true, ih]
      constructor
      · rintro ⟨h₁, h₂, h₃, h₄⟩
        refine ⟨by omega, by omega, h₃, fun s hs hlt => ?_⟩
        by_cases he : s = slot
        · exact he ▸ hu
        · exact h₄ s (by omega) hlt
      · rintro ⟨h₁, h₂, h₃, h₄⟩
        have : found ≠ slot := by rintro rfl; simp [hu] at h₃
        exact ⟨by omega, by omega, h₃, fun s hs hlt => h₄ s (by omega) hlt⟩
    · simp only [hu, Bool.false_eq_true, if_false, Option.some.injEq]
      constructor
      · rintro rfl
        exact ⟨Nat.le_refl _, by omega, by simpa using hu, fun s _ _ => by omega⟩
      · rintro ⟨h₁, h₂, h₃, h₄⟩
        by_cases he : slot = found
        · exact he
        · exact absurd (h₄ slot (Nat.le_refl _) (by omega)) hu

/-- The binding points that the blocks of one program share. -/
structure BindingPool where
  max : Nat
  used : List Nat := []
  deriving DecidableEq, Repr, Inhabited

namespace BindingPool

/-- Binding points of a program, unless the configuration says otherwise. -/
def defaultMax : Nat := 72

/-- The slot has been given out and not been released. -/
def isUsed (pool : BindingPool) (slot : Nat) : Bool := pool.used.contains slot

def choose (pool : BindingPool) (request : Option Nat) : Except BindingError Nat :=
  match request with
  | some slot =>
    if slot ≥ pool.max then .error (.slotOutOfRange slot pool.max)
    else if pool.isUsed slot then .error (.slotConflict slot)
    else .ok slot
  | none =>
    match lowestFree? pool.isUsed pool.max 0 with
    | some slot => .ok slot
    | none => .error .exhausted

/-- Answers a request and marks the slot as used; a refused request changes nothing. -/
def allocate (request : Option Nat) (pool : BindingPool) : Except BindingError Nat × BindingPool :=
  match pool.choose request with
  | .ok slot => (.ok slot, { pool with used := slot :: pool.used })
  | .error e => (.error e, pool)

def allocator : SlotAllocator BindingPool := ⟨allocate⟩

def release (pool : BindingPool) (slot : Nat) : BindingPool :=
  { pool with used := pool.used.filter (· != slot) }

def releaseAll (pool : BindingPool) : BindingPool :=
  { pool with used := [] }

def inUse (pool : BindingPool) : Nat := pool.used.length

theorem choose_eq_ok {pool : BindingPool} {request : Option Nat} {slot : Nat}
    (h : pool.choose request = .ok slot) :
    slot < pool.max ∧ slot ∉ pool.used ∧ ∀ wanted, request = some wanted → wanted = slot := by
  cases request with
  | some wanted =>
    simp only [choose] at h
    split at h
    · simp at h
    · split at h
      · simp at h
      · rename_i hmax hfree
        simp only [Except.ok.injEq] at h
        subst h
        simp only [isUsed, List.contains_iff_mem] at hfree
        exact ⟨by omega, hfree, by simp⟩
  | none =>
    simp only [choose] at h
    split at h
    · rename_i found hs
      simp only [Except.ok.injEq] at h
      subst h
      obtain ⟨_, hlt, hfree, _⟩ := lowestFree?_eq_some_iff.1 hs
      exact ⟨by omega, by simpa [isUsed] using hfree, by simp⟩
    · simp at h

/-- A slot that is given out is below the maximum, was free, is the one asked for, and is the only
one newly in use. -/
theorem allocate_eq_ok {pool after : BindingPool} {request : Option Nat} {slot : Nat}
    (h : allocate request pool = (.ok slot, after)) :
    slot < pool.max ∧ slot ∉ pool.used ∧ (∀ wanted, request = some wanted → wanted = slot) ∧
      after = { pool with used := slot :: pool.used } := by
  simp only [allocate] at h
  split at h
  · rename_i hc
    simp only [Prod.mk.injEq, Except.ok.injEq] at h
    obtain ⟨rfl, rfl⟩ := h
    obtain ⟨h₁, h₂, h₃⟩ := choose_eq_ok hc
    exact ⟨h₁, h₂, h₃, rfl⟩
  · simp at h

end BindingPool

end UniformLayout
