import UniformLayout.Binding.Pool
import Mathlib.Data.List.Nodup
import Mathlib.Data.List.Perm.Subperm
import Mathlib.Data.List.Range

/-!
# Pools that serve requests in turn

A pool answers one request after the other (`Serves`). A request for any slot gets the lowest free one,
and may so take a slot that a later request asks for. `InTurn` is the condition on the order of the
requests under which this never happens: each slot that is asked for is still free when its turn
comes.

* `Serves.grants`: what the pool gives, and what it is like afterwards.
* `lower_allocate`: what one answer does to a slot that is free and was not asked for.
* `Serves.free_iff`: whether such a slot is still free after some requests.

Main statement: `exists_serves_iff`.
-/

namespace UniformLayout

theorem lowestFree?_eq_none_iff {isUsed : Nat → Bool} {count slot : Nat} :
    lowestFree? isUsed count slot = none ↔
      ∀ s, slot ≤ s → s < slot + count → isUsed s = true := by
  induction count generalizing slot with
  | zero =>
    simp only [lowestFree?, true_iff]
    intro s h₁ h₂
    omega
  | succ count ih =>
    simp only [lowestFree?]
    by_cases hu : isUsed slot
    · simp only [hu, if_true, ih]
      constructor
      · intro h s h₁ h₂
        by_cases he : s = slot
        · exact he ▸ hu
        · exact h s (by omega) (by omega)
      · intro h s h₁ h₂
        exact h s (by omega) (by omega)
    · simp only [hu, Bool.false_eq_true, if_false, reduceCtorEq, false_iff]
      intro h
      exact hu (h slot (Nat.le_refl _) (by omega))

namespace BindingPool

variable {pool next after : BindingPool} {request : Option Nat} {requests : List (Option Nat)}
  {slot : Nat} {slots : List Nat}

theorem allocate_eq_error {cause : BindingError}
    (h : allocate request pool = (.error cause, next)) :
    pool.choose request = .error cause ∧ next = pool := by
  simp only [allocate] at h
  split at h
  · simp at h
  · rename_i e he
    simp only [Prod.mk.injEq, Except.error.injEq] at h
    exact ⟨h.1 ▸ he, h.2.symm⟩

/-- The pool gives these slots for the requests, one after the other. -/
inductive Serves : BindingPool → List (Option Nat) → List Nat → BindingPool → Prop
  | nil (pool : BindingPool) : Serves pool [] [] pool
  | cons {pool next after : BindingPool} {request : Option Nat} {requests : List (Option Nat)}
      {slot : Nat} {slots : List Nat} (given : allocate request pool = (.ok slot, next))
      (rest : Serves next requests slots after) :
      Serves pool (request :: requests) (slot :: slots) after

/-- The requests in front of one are served, and then this one is. -/
theorem Serves.split {before behind : List (Option Nat)}
    (h : pool.Serves (before ++ request :: behind) slots after) :
    ∃ given middle slot next, pool.Serves before given middle ∧
      allocate request middle = (.ok slot, next) := by
  induction before generalizing pool slots with
  | nil =>
    cases h with
    | cons given rest => exact ⟨[], pool, _, _, .nil pool, given⟩
  | cons first before ih =>
    cases h with
    | cons given rest =>
      obtain ⟨served, middle, slot, next, hserves, hlast⟩ := ih rest
      exact ⟨_, middle, slot, next, .cons given hserves, hlast⟩

/-- There is one way to serve requests. -/
theorem Serves.unique {others : List Nat} {final : BindingPool}
    (h : pool.Serves requests slots after) (k : pool.Serves requests others final) :
    slots = others ∧ after = final := by
  induction h generalizing others with
  | nil =>
    cases k
    exact ⟨rfl, rfl⟩
  | cons given _ ih =>
    cases k with
    | cons given' rest =>
      rw [given] at given'
      simp only [Prod.mk.injEq, Except.ok.injEq] at given'
      obtain ⟨rfl, rfl⟩ := given'
      obtain ⟨rfl, rfl⟩ := ih rest
      exact ⟨rfl, rfl⟩

/-- What a pool has given for some requests, and what it is like afterwards. -/
structure Grants (before : BindingPool) (requests : List (Option Nat)) (slots : List Nat)
    (after : BindingPool) : Prop where
  /-- A request for a given slot gets this slot. -/
  answers : List.Forall₂ (fun request slot => ∀ wanted, request = some wanted → wanted = slot)
    requests slots
  nodup : slots.Nodup
  below : ∀ slot ∈ slots, slot < before.max
  new : ∀ slot ∈ slots, slot ∉ before.used
  after : after = { before with used := slots.reverse ++ before.used }

theorem Serves.grants (h : pool.Serves requests slots after) : pool.Grants requests slots after := by
  induction h with
  | nil => exact ⟨.nil, List.nodup_nil, by simp, by simp, rfl⟩
  | @cons pool next after request requests slot slots given _ ih =>
    obtain ⟨hlt, hnew, hwanted, rfl⟩ := allocate_eq_ok given
    obtain ⟨hanswers, hnodup, hbelow, hothers, rfl⟩ := ih
    have hslot : slot ∉ slots := fun hm => hothers slot hm List.mem_cons_self
    refine ⟨.cons hwanted hanswers, List.nodup_cons.2 ⟨hslot, hnodup⟩, ?_, ?_, ?_⟩
    · exact List.forall_mem_cons.2 ⟨hlt, hbelow⟩
    · exact List.forall_mem_cons.2
        ⟨hnew, fun other hm hused => hothers other hm (List.mem_cons_of_mem _ hused)⟩
    · simp

theorem Grants.mem_used_iff (h : pool.Grants requests slots after) {slot : Nat} :
    slot ∈ after.used ↔ slot ∈ slots ∨ slot ∈ pool.used := by
  rw [h.after]
  simp

theorem Grants.length_eq (h : pool.Grants requests slots after) :
    slots.length = requests.length :=
  h.answers.length_eq.symm

/-- What has been given out stays taken. -/
theorem Grants.refuses (h : pool.Grants requests slots after) {slot : Nat} (hm : slot ∈ slots) :
    allocate (some slot) after = (.error (.slotConflict slot), after) := by
  have hlt : ¬ slot ≥ after.max := by
    rw [h.after]
    exact Nat.not_le.2 (h.below slot hm)
  have hused : after.isUsed slot = true := by
    unfold isUsed
    rw [List.contains_iff_mem]
    exact h.mem_used_iff.2 (Or.inl hm)
  simp only [allocate, choose, if_neg hlt, if_pos hused]

/-- Only requests use up slots. -/
theorem Grants.same_used_iff (h : pool.Grants requests slots after) :
    (∀ slot, slot ∈ after.used ↔ slot ∈ pool.used) ↔ requests = [] := by
  constructor
  · intro hsame
    cases hs : slots with
    | nil =>
      apply List.length_eq_zero_iff.1
      rw [← h.length_eq, hs, List.length_nil]
    | cons slot rest =>
      have hm : slot ∈ slots := hs ▸ List.mem_cons_self
      exact absurd ((hsame slot).1 (h.mem_used_iff.2 (Or.inl hm))) (h.new slot hm)
  · rintro rfl slot
    rw [h.mem_used_iff, List.length_eq_zero_iff.1 h.length_eq]
    simp

/-! ## Slots that stay free -/

/-- The used slots below a slot. -/
def lower (pool : BindingPool) (slot : Nat) : Nat := pool.used.countP (· < slot)

/-- The slots in use are distinct. -/
def Distinct (pool : BindingPool) : Prop := pool.used.Nodup

theorem Distinct.lower_le (h : pool.Distinct) (slot : Nat) : pool.lower slot ≤ slot := by
  have hsub : pool.used.filter (· < slot) ⊆ List.range slot := by
    intro s hm
    simpa using (List.mem_filter.1 hm).2
  have hle := ((List.Nodup.filter _ h).subperm hsub).length_le
  rwa [← List.countP_eq_length_filter, List.length_range] at hle

/-- No slot below is free. -/
theorem le_lower (h : ∀ s < slot, s ∈ pool.used) : slot ≤ pool.lower slot := by
  have hsub : List.range slot ⊆ pool.used.filter (· < slot) := by
    intro s hm
    have hs := List.mem_range.1 hm
    exact List.mem_filter.2 ⟨h s hs, decide_eq_true hs⟩
  have hle := (List.nodup_range.subperm hsub).length_le
  rwa [← List.countP_eq_length_filter, List.length_range] at hle

/-- The request may be answered with a slot below the given one. -/
def mayTakeBelow (slot : Nat) (request : Option Nat) : Bool := request.all (· < slot)

theorem allocate_none_eq_ok (h : allocate none pool = (.ok slot, next)) :
    ∀ s < slot, s ∈ pool.used := by
  have hchoose : pool.choose none = .ok slot := by
    unfold allocate at h
    split at h
    · rename_i hc
      obtain rfl := Except.ok.inj (Prod.mk.inj h).1
      exact hc
    · cases h
  unfold choose at hchoose
  dsimp only at hchoose
  split at hchoose
  · rename_i found hf
    obtain rfl := Except.ok.inj hchoose
    obtain ⟨-, -, -, hused⟩ := lowestFree?_eq_some_iff.1 hf
    intro s hs
    simpa [isUsed] using hused s (Nat.zero_le s) hs
  · cases hchoose

/-- One answer, seen from a free slot that was not asked for. The slot stays free, and there is one
more used slot below it if the request may be answered so; or it is taken, since no lower slot was
free. -/
theorem lower_allocate (h : allocate request pool = (.ok slot, next))
    {other : Nat} (free : other ∉ pool.used) (unasked : request ≠ some other) :
    (other ∉ next.used ∧
        next.lower other = pool.lower other + [request].countP (mayTakeBelow other)) ∨
      (other ∈ next.used ∧
        other < pool.lower other + [request].countP (mayTakeBelow other)) := by
  obtain ⟨-, -, hwanted, rfl⟩ := allocate_eq_ok h
  rw [List.countP_singleton]
  unfold lower
  dsimp only
  rw [List.countP_cons, List.mem_cons]
  cases request with
  | some wanted =>
    obtain rfl := hwanted wanted rfl
    have hne : other ≠ wanted := fun he => unasked (he ▸ rfl)
    exact Or.inl ⟨not_or.2 ⟨hne, free⟩, rfl⟩
  | none =>
    have hlower := allocate_none_eq_ok h
    have hmay : mayTakeBelow other none = true := rfl
    rw [if_pos hmay]
    by_cases he : other = slot
    · subst he
      have := le_lower hlower
      unfold lower at this
      exact Or.inr ⟨Or.inl rfl, by omega⟩
    · have hlt : slot < other := by
        by_contra hge
        exact free (hlower other (by omega))
      rw [if_pos (decide_eq_true hlt)]
      exact Or.inl ⟨not_or.2 ⟨he, free⟩, rfl⟩

theorem distinct_allocate (hd : pool.Distinct) (h : allocate request pool = (.ok slot, next)) :
    next.Distinct := by
  obtain ⟨-, hnew, -, rfl⟩ := allocate_eq_ok h
  exact List.nodup_cons.2 ⟨hnew, hd⟩

/-- A slot that no request asks for stays free as long as the slots below it suffice. -/
theorem Serves.free_iff (h : pool.Serves requests slots after) (hd : pool.Distinct) {other : Nat}
    (free : other ∉ pool.used) (unasked : some other ∉ requests) :
    other ∉ after.used ↔ pool.lower other + requests.countP (mayTakeBelow other) ≤ other := by
  induction h with
  | nil pool =>
    rw [List.countP_nil]
    exact iff_of_true free (hd.lower_le other)
  | @cons pool next after request requests slot slots given rest ih =>
    obtain ⟨hfirst, hrest⟩ := not_or.1 (List.mem_cons.not.1 unasked)
    rw [show request :: requests = [request] ++ requests from rfl, List.countP_append]
    rcases lower_allocate given free fun he => hfirst he.symm with ⟨hfree, hlower⟩ | ⟨hused, hlt⟩
    · rw [ih (distinct_allocate hd given) hfree hrest, hlower]
      omega
    · refine iff_of_false (fun hnot => hnot ?_) (by omega)
      exact rest.grants.mem_used_iff.2 (Or.inr hused)

/-! ## Requests that are all served -/

/-- Of the requests in front of one for a slot, no more than this slot has slots below it may be
answered with a lower slot. -/
def InTurn (requests : List (Option Nat)) : Prop :=
  ∀ before slot behind, requests = before ++ some slot :: behind →
    before.countP (mayTakeBelow slot) ≤ slot

/-- The same on top of the slots that a pool has given out before. -/
def InTurnFor (pool : BindingPool) (requests : List (Option Nat)) : Prop :=
  ∀ before slot behind, requests = before ++ some slot :: behind →
    pool.lower slot + before.countP (mayTakeBelow slot) ≤ slot

theorem inTurnFor_fresh {max : Nat} : InTurnFor { max } requests ↔ InTurn requests := by
  unfold InTurnFor InTurn lower
  simp

/-- The slots that the requests name. -/
def named (requests : List (Option Nat)) : List Nat := requests.filterMap id

/-- The pool has room for the requests, and the slots that they name are distinct and free. -/
structure Admits (pool : BindingPool) (requests : List (Option Nat)) : Prop where
  distinct : pool.Distinct
  room : pool.used.length + requests.length ≤ pool.max
  nodup : (named requests).Nodup
  below : ∀ slot ∈ named requests, slot < pool.max
  free : ∀ slot ∈ named requests, slot ∉ pool.used

theorem mem_named {slot : Nat} : slot ∈ named requests ↔ some slot ∈ requests := by
  simp [named]

theorem exists_allocate_some (hlt : slot < pool.max) (hfree : slot ∉ pool.used) :
    ∃ next, allocate (some slot) pool = (.ok slot, next) := by
  have hused : ¬ pool.isUsed slot = true := by
    unfold isUsed
    rwa [List.contains_iff_mem]
  refine ⟨{ pool with used := slot :: pool.used }, ?_⟩
  simp only [allocate, choose, if_neg (Nat.not_le.2 hlt), if_neg hused]

theorem exists_allocate_none (h : pool.used.length < pool.max) :
    ∃ slot next, allocate none pool = (.ok slot, next) := by
  cases hl : lowestFree? pool.isUsed pool.max 0 with
  | some slot =>
    refine ⟨slot, { pool with used := slot :: pool.used }, ?_⟩
    simp only [allocate, choose, hl]
  | none =>
    -- All slots would be in use.
    have hall := lowestFree?_eq_none_iff.1 hl
    have hsub : List.range pool.max ⊆ pool.used := by
      intro s hm
      have hs := List.mem_range.1 hm
      simpa [isUsed] using hall s (Nat.zero_le s) (by omega)
    have hle := (List.nodup_range.subperm hsub).length_le
    rw [List.length_range] at hle
    omega

theorem nodup_named_cons (h : (named (request :: requests)).Nodup) :
    (named requests).Nodup ∧ ∀ other ∈ named requests, request ≠ some other := by
  unfold named at h ⊢
  cases request with
  | none => exact ⟨h, fun _ _ he => by cases he⟩
  | some wanted =>
    obtain ⟨hnot, hrest⟩ := List.nodup_cons.1 h
    exact ⟨hrest, fun other hm he => hnot (Option.some.inj he ▸ hm)⟩

theorem mem_named_cons {other : Nat} (h : other ∈ named requests) :
    other ∈ named (request :: requests) :=
  mem_named.2 (List.mem_cons_of_mem _ (mem_named.1 h))

theorem Admits.exists_allocate (h : pool.Admits (request :: requests)) :
    ∃ slot next, allocate request pool = (.ok slot, next) := by
  cases request with
  | some wanted =>
    have hm : wanted ∈ named (some wanted :: requests) := mem_named.2 List.mem_cons_self
    exact ⟨wanted, exists_allocate_some (h.below wanted hm) (h.free wanted hm)⟩
  | none =>
    have hroom := h.room
    rw [List.length_cons] at hroom
    exact exists_allocate_none (by omega)

/-- An answered request leaves the slot of a later one free, and the later one in turn. -/
theorem Admits.later {before behind : List (Option Nat)} {other : Nat}
    (h : pool.Admits (request :: (before ++ some other :: behind)))
    (ht : pool.InTurnFor (request :: (before ++ some other :: behind)))
    (given : BindingPool.allocate request pool = (.ok slot, next)) :
    other ∉ next.used ∧ next.lower other + before.countP (mayTakeBelow other) ≤ other := by
  have hm : other ∈ named (before ++ some other :: behind) := mem_named.2 (by simp)
  have hturn := ht (request :: before) other behind rfl
  rw [show request :: before = [request] ++ before from rfl, List.countP_append] at hturn
  have hunasked := (nodup_named_cons h.nodup).2 other hm
  rcases lower_allocate given (h.free other (mem_named_cons hm)) hunasked with
    ⟨hfree, hlower⟩ | ⟨-, hlt⟩
  · exact ⟨hfree, by omega⟩
  · omega

/-- An answered request leaves the pool ready for those behind it, as far as they are in turn. -/
theorem Admits.allocate (h : pool.Admits (request :: requests))
    (ht : pool.InTurnFor (request :: requests))
    (given : BindingPool.allocate request pool = (.ok slot, next)) :
    next.Admits requests ∧ next.InTurnFor requests := by
  have hlater : ∀ before other behind, requests = before ++ some other :: behind →
      other ∉ next.used ∧
        next.lower other + before.countP (mayTakeBelow other) ≤ other := by
    rintro before other behind rfl
    exact h.later ht given
  obtain ⟨-, -, -, hnext⟩ := allocate_eq_ok given
  refine ⟨⟨distinct_allocate h.distinct given, ?_, (nodup_named_cons h.nodup).1, ?_, ?_⟩, ?_⟩
  · have hroom := h.room
    rw [List.length_cons] at hroom
    rw [hnext]
    dsimp only
    rw [List.length_cons]
    omega
  · intro other hm
    rw [hnext]
    exact h.below other (mem_named_cons hm)
  · intro other hm
    obtain ⟨before, behind, he⟩ := List.append_of_mem (mem_named.1 hm)
    exact (hlater before other behind he).1
  · intro before other behind he
    exact (hlater before other behind he).2

/-- **Serving.** A pool that has room serves all requests if and only if they are in turn. -/
theorem exists_serves_iff (h : pool.Admits requests) :
    (∃ slots after, pool.Serves requests slots after) ↔ pool.InTurnFor requests := by
  constructor
  · rintro ⟨slots, after, hs⟩
    rintro before other behind rfl
    -- What has been served in front of the request has left its slot free.
    obtain ⟨given, middle, slot, next, hserves, hlast⟩ := hs.split
    obtain ⟨-, hfree, hwanted, -⟩ := allocate_eq_ok hlast
    obtain rfl := hwanted other rfl
    have hm : other ∈ named (before ++ some other :: behind) := mem_named.2 (by simp)
    refine (hserves.free_iff h.distinct (h.free other hm) fun hb => ?_).1 hfree
    have hnodup := h.nodup
    unfold named at hnodup
    rw [List.filterMap_append, List.nodup_append] at hnodup
    exact hnodup.2.2 other (mem_named.2 hb) other (by simp) rfl
  · intro ht
    induction requests generalizing pool with
    | nil => exact ⟨[], pool, .nil pool⟩
    | cons request requests ih =>
      obtain ⟨slot, next, given⟩ := h.exists_allocate
      obtain ⟨hadmits, hturn⟩ := h.allocate ht given
      obtain ⟨slots, after, hs⟩ := ih hadmits hturn
      exact ⟨slot :: slots, after, .cons given hs⟩

end BindingPool

end UniformLayout
