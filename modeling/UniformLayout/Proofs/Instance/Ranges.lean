import UniformLayout.Instance.DirtySet

/-!
# Ranges of changes

Merging goes through the ranges in ascending order of their starts, and lets the last one grow as long
as the next one overlaps it or touches it. No byte is lost or added, what is left stands apart, and the
order in which the changes came does not matter: not for the bytes, and not for the ranges either.

* `ByteRange.reaches_merge`: merging loses no place and adds none.
* `ByteRange.Apart.eq_of_reaches`: ranges that stand apart are known by the places that they reach.

Main statement: `DirtySet.ranges_exact`.
-/

namespace UniformLayout

namespace ByteRange

/-! ## Bytes and edges -/

def Holds (range : ByteRange) (i : Nat) : Prop := range.start ≤ i ∧ i < range.stop

/-- Some of the ranges holds the byte. -/
def Covers (ranges : List ByteRange) (i : Nat) : Prop := ∃ range ∈ ranges, range.Holds i

/-- The range does not end in front of its start or behind `bound`. -/
def Inside (bound : Nat) (range : ByteRange) : Prop := range.start ≤ range.stop ∧ range.stop ≤ bound

/-- Bytes and the edges between them are counted together: byte `i` is at `2 * i + 1`, and the edge in
front of it at `2 * i`. A range meets its bytes and the edges from its start to its stop. Ranges that
touch share an edge, and an empty range meets one edge. -/
def Meets (range : ByteRange) (place : Nat) : Prop :=
  2 * range.start ≤ place ∧ place ≤ 2 * range.stop

/-- Some of the ranges meets the place. -/
def Reaches (ranges : List ByteRange) (place : Nat) : Prop := ∃ range ∈ ranges, range.Meets place

@[simp] theorem covers_nil (i : Nat) : ¬ Covers [] i := by
  simp [Covers]

theorem covers_cons {range : ByteRange} {ranges : List ByteRange} {i : Nat} :
    Covers (range :: ranges) i ↔ range.Holds i ∨ Covers ranges i := by
  simp [Covers]

theorem covers_append {ranges others : List ByteRange} {i : Nat} :
    Covers (ranges ++ others) i ↔ Covers ranges i ∨ Covers others i := by
  simp only [Covers, List.mem_append, or_and_right, exists_or]

theorem reaches_cons {range : ByteRange} {ranges : List ByteRange} {place : Nat} :
    Reaches (range :: ranges) place ↔ range.Meets place ∨ Reaches ranges place := by
  simp [Reaches]

theorem meets_byte {range : ByteRange} {i : Nat} : range.Meets (2 * i + 1) ↔ range.Holds i := by
  unfold Meets Holds
  omega

theorem reaches_byte {ranges : List ByteRange} {i : Nat} :
    Reaches ranges (2 * i + 1) ↔ Covers ranges i := by
  simp only [Reaches, Covers, meets_byte]

/-! ## Merging -/

/-- The ranges are in ascending order of their starts. -/
def Sorted (ranges : List ByteRange) : Prop := ranges.Pairwise fun a b => a.start ≤ b.start

/-- The last range may grow with the next one. -/
theorem Sorted.grow {last next : ByteRange} {rest : List ByteRange}
    (h : Sorted (last :: next :: rest)) :
    Sorted (⟨last.start, max last.stop next.stop⟩ :: rest) := by
  obtain ⟨hlast, hrest⟩ := List.pairwise_cons.1 h
  exact List.pairwise_cons.2
    ⟨fun other hm => hlast other (List.mem_cons_of_mem _ hm), (List.pairwise_cons.1 hrest).2⟩

/-- The induction is on the ranges that are still to come; the last one grows with them. -/
theorem reaches_mergeBehind {last : ByteRange} {ranges : List ByteRange}
    (h : Sorted (last :: ranges)) (place : Nat) :
    Reaches (mergeBehind last ranges) place ↔ last.Meets place ∨ Reaches ranges place := by
  induction ranges generalizing last with
  | nil => rw [mergeBehind, reaches_cons]
  | cons next rest ih =>
    have hle : last.start ≤ next.start := (List.pairwise_cons.1 h).1 next List.mem_cons_self
    rw [mergeBehind, reaches_cons]
    split
    · have hboth : Meets ⟨last.start, max last.stop next.stop⟩ place ↔
          last.Meets place ∨ next.Meets place := by
        unfold Meets
        dsimp only
        omega
      rw [ih h.grow, hboth, or_assoc]
    · rw [reaches_cons, ih (List.pairwise_cons.1 h).2]

/-- Merging loses no byte and no edge, and adds none. -/
theorem reaches_merge {ranges : List ByteRange} (h : Sorted ranges) (place : Nat) :
    Reaches (merge ranges) place ↔ Reaches ranges place := by
  cases ranges with
  | nil => rw [merge_nil]
  | cons first rest => rw [merge, reaches_mergeBehind h, reaches_cons]

/-- What a range keeps when it grows holds of all ranges after merging. -/
theorem forall_merge {P : ByteRange → Prop}
    (hp : ∀ last next : ByteRange, P last → P next → P ⟨last.start, max last.stop next.stop⟩)
    {ranges : List ByteRange} (h : ∀ range ∈ ranges, P range) :
    ∀ range ∈ merge ranges, P range := by
  have hbehind : ∀ (ranges : List ByteRange) (last : ByteRange), P last →
      (∀ range ∈ ranges, P range) → ∀ range ∈ mergeBehind last ranges, P range := by
    intro ranges
    induction ranges with
    | nil =>
      intro last hl _
      rw [mergeBehind]
      exact List.forall_mem_singleton.2 hl
    | cons next rest ih =>
      intro last hl h
      obtain ⟨hnext, hrest⟩ := List.forall_mem_cons.1 h
      rw [mergeBehind]
      split
      · exact ih _ (hp last next hl hnext) hrest
      · exact List.forall_mem_cons.2 ⟨hl, ih next hnext hrest⟩
  cases ranges with
  | nil => simp
  | cons first rest =>
    obtain ⟨hfirst, hrest⟩ := List.forall_mem_cons.1 h
    exact hbehind rest first hfirst hrest

/-! ## Ranges that stand apart -/

/-- The ranges are in ascending order, and between each and the next lies at least one byte. None ends
in front of its start. -/
structure Apart (ranges : List ByteRange) : Prop where
  ordered : ∀ range ∈ ranges, range.start ≤ range.stop
  gaps : ranges.Pairwise fun range later => range.stop < later.start

theorem start_le_mergeBehind {last : ByteRange} {ranges : List ByteRange}
    (h : Sorted (last :: ranges)) : ∀ range ∈ mergeBehind last ranges, last.start ≤ range.start := by
  induction ranges generalizing last with
  | nil =>
    rw [mergeBehind]
    exact List.forall_mem_singleton.2 (Nat.le_refl _)
  | cons next rest ih =>
    obtain ⟨hlast, hrest⟩ := List.pairwise_cons.1 h
    rw [mergeBehind]
    split
    · exact ih h.grow
    · refine List.forall_mem_cons.2 ⟨Nat.le_refl _, fun range hm => ?_⟩
      exact Nat.le_trans (hlast next List.mem_cons_self) (ih hrest range hm)

theorem gaps_mergeBehind {last : ByteRange} {ranges : List ByteRange}
    (h : Sorted (last :: ranges)) :
    (mergeBehind last ranges).Pairwise fun range later => range.stop < later.start := by
  induction ranges generalizing last with
  | nil =>
    rw [mergeBehind]
    exact List.pairwise_singleton _ _
  | cons next rest ih =>
    have hrest : Sorted (next :: rest) := (List.pairwise_cons.1 h).2
    rw [mergeBehind]
    split
    · exact ih h.grow
    · rename_i hgap
      refine List.pairwise_cons.2 ⟨fun range hm => ?_, ih hrest⟩
      have := start_le_mergeBehind hrest range hm
      omega

theorem apart_merge {ranges : List ByteRange} (h : Sorted ranges)
    (ho : ∀ range ∈ ranges, range.start ≤ range.stop) : Apart (merge ranges) where
  ordered := forall_merge (P := fun range => range.start ≤ range.stop)
    (fun last next hl _ => Nat.le_trans hl (Nat.le_max_left last.stop next.stop)) ho
  gaps := by
    cases ranges with
    | nil => exact .nil
    | cons first rest => exact gaps_mergeBehind h

namespace Apart

variable {range other : ByteRange} {ranges others : List ByteRange}

theorem tail (h : Apart (range :: ranges)) : Apart ranges where
  ordered := (List.forall_mem_cons.1 h.ordered).2
  gaps := (List.pairwise_cons.1 h.gaps).2

/-- Behind the first range, its edges and bytes are not reached again. -/
theorem lt_of_reaches (h : Apart (range :: ranges)) {place : Nat} (hr : Reaches ranges place) :
    2 * range.stop + 1 < place := by
  obtain ⟨later, hm, hmeets, -⟩ := hr
  have := (List.pairwise_cons.1 h.gaps).1 later hm
  omega

theorem start_le (h : Apart (range :: ranges)) {place : Nat} (hr : Reaches (range :: ranges) place) :
    2 * range.start ≤ place := by
  have := h.ordered range List.mem_cons_self
  rcases reaches_cons.1 hr with hmeets | hr
  · exact hmeets.1
  · have := h.lt_of_reaches hr
    omega

/-- The byte behind the first range is missing. -/
theorem stop_le (h : Apart (range :: ranges))
    (hs : range.start = other.start)
    (hr : ∀ place, Reaches (range :: ranges) place ↔ Reaches (other :: others) place) :
    other.stop ≤ range.stop := by
  refine Nat.le_of_not_lt fun hlt => ?_
  have ho := h.ordered range List.mem_cons_self
  have hbyte : other.Meets (2 * range.stop + 1) := ⟨by omega, by omega⟩
  rcases reaches_cons.1 ((hr _).2 (reaches_cons.2 (.inl hbyte))) with hmeets | hrest
  · have := hmeets.2
    omega
  · exact Nat.lt_irrefl _ (h.lt_of_reaches hrest)

theorem head_eq (h : Apart (range :: ranges)) (k : Apart (other :: others))
    (hr : ∀ place, Reaches (range :: ranges) place ↔ Reaches (other :: others) place) :
    range = other := by
  have hmeets : ∀ own : ByteRange, own.start ≤ own.stop → own.Meets (2 * own.start) :=
    fun own ho => ⟨Nat.le_refl _, Nat.mul_le_mul_left 2 ho⟩
  have hfirst := hmeets range (h.ordered range List.mem_cons_self)
  have hsecond := hmeets other (k.ordered other List.mem_cons_self)
  have hle := k.start_le ((hr _).1 (reaches_cons.2 (.inl hfirst)))
  have hge := h.start_le ((hr _).2 (reaches_cons.2 (.inl hsecond)))
  have hstart : range.start = other.start := by omega
  have hstop : range.stop = other.stop :=
    Nat.le_antisymm (k.stop_le hstart.symm fun place => (hr place).symm) (h.stop_le hstart hr)
  cases range
  cases other
  simp_all

/-- Ranges that stand apart are known by the places that they reach. -/
theorem eq_of_reaches (h : Apart ranges) (k : Apart others)
    (hr : ∀ place, Reaches ranges place ↔ Reaches others place) : ranges = others := by
  have hnone : ∀ {own : ByteRange} {rest : List ByteRange}, Apart (own :: rest) →
      ¬ ∀ place, Reaches [] place ↔ Reaches (own :: rest) place := by
    intro own rest ha hn
    have hmeets : own.Meets (2 * own.start) :=
      ⟨Nat.le_refl _, Nat.mul_le_mul_left 2 (ha.ordered own List.mem_cons_self)⟩
    obtain ⟨_, hm, -⟩ := (hn _).2 (reaches_cons.2 (.inl hmeets))
    cases hm
  induction ranges generalizing others with
  | nil =>
    cases others with
    | nil => rfl
    | cons other others => exact absurd hr (hnone k)
  | cons range ranges ih =>
    cases others with
    | nil => exact absurd (fun place => (hr place).symm) (hnone h)
    | cons other others =>
      obtain rfl := h.head_eq k hr
      refine congrArg (range :: ·) (ih h.tail k.tail fun place => ?_)
      -- what the others reach lies behind the first range
      have hbehind : ∀ {rest : List ByteRange}, Apart (range :: rest) → Reaches rest place →
          ¬ range.Meets place := by
        intro rest ha hreach hmeets
        have := ha.lt_of_reaches hreach
        have := hmeets.2
        omega
      constructor
      · intro hreach
        rcases reaches_cons.1 ((hr place).1 (reaches_cons.2 (.inr hreach))) with hmeets | hreach'
        · exact absurd hmeets (hbehind h hreach)
        · exact hreach'
      · intro hreach
        rcases reaches_cons.1 ((hr place).2 (reaches_cons.2 (.inr hreach))) with hmeets | hreach'
        · exact absurd hmeets (hbehind k hreach)
        · exact hreach'

end Apart

end ByteRange

open ByteRange

/-! ## The ranges of a set of changes -/

namespace DirtySet

/-- The ranges of the changes, before they are merged. -/
theorem sorted_ranges (changes : DirtySet) :
    Sorted ((changes.map DirtyField.range).mergeSort fun a b => a.start ≤ b.start) :=
  (List.pairwise_mergeSort (fun _ _ _ => by simpa using Nat.le_trans)
    (fun _ _ => by simpa using Nat.le_total _ _) _).imp of_decide_eq_true

theorem reaches_ranges (changes : DirtySet) (place : Nat) :
    Reaches changes.ranges place ↔ Reaches (changes.map DirtyField.range) place := by
  unfold DirtySet.ranges
  rw [reaches_merge changes.sorted_ranges]
  unfold Reaches
  simp only [List.mem_mergeSort]

/-- **Ranges.** The ranges of a set of changes cover the changed bytes and no others. -/
theorem covers_ranges (changes : DirtySet) (i : Nat) :
    Covers changes.ranges i ↔ Covers (changes.map DirtyField.range) i := by
  rw [← reaches_byte, changes.reaches_ranges, reaches_byte]

/-- What the ranges of all changes are, and what a range keeps when it grows, holds of the merged
ranges. -/
theorem forall_ranges {P : ByteRange → Prop} {changes : DirtySet}
    (hp : ∀ last next : ByteRange, P last → P next → P ⟨last.start, max last.stop next.stop⟩)
    (h : ∀ change ∈ changes, P change.range) : ∀ range ∈ changes.ranges, P range := by
  refine forall_merge hp fun range hm => ?_
  obtain ⟨change, hc, rfl⟩ := List.mem_map.1 (List.mem_mergeSort.1 hm)
  exact h change hc

theorem inside_ranges {bound : Nat} {changes : DirtySet}
    (h : ∀ change ∈ changes, change.range.Inside bound) :
    ∀ range ∈ changes.ranges, range.Inside bound := by
  refine forall_ranges (fun last next hl hn => ?_) h
  unfold Inside at *
  dsimp only
  omega

theorem apart_ranges (changes : DirtySet) : Apart changes.ranges := by
  refine apart_merge changes.sorted_ranges fun range hm => ?_
  obtain ⟨change, -, rfl⟩ := List.mem_map.1 (List.mem_mergeSort.1 hm)
  exact Nat.le_add_right _ _

/-- The order of the changes does not matter. -/
theorem ranges_perm {changes others : DirtySet} (h : changes.Perm others) :
    changes.ranges = others.ranges := by
  refine changes.apart_ranges.eq_of_reaches others.apart_ranges fun place => ?_
  rw [reaches_ranges, reaches_ranges]
  unfold Reaches
  simp only [(h.map DirtyField.range).mem_iff]

/-- The range starts where a change starts, and stops where a change stops. -/
def Bounds (changes : DirtySet) (range : ByteRange) : Prop :=
  (∃ change ∈ changes, range.start = change.offset) ∧
    ∃ change ∈ changes, range.stop = change.offset + change.size

theorem bounds_ranges (changes : DirtySet) : ∀ range ∈ changes.ranges, changes.Bounds range := by
  refine forall_ranges (fun last next hl hn => ⟨hl.1, ?_⟩)
    fun change hc => ⟨⟨change, hc, rfl⟩, change, hc, rfl⟩
  rcases Nat.le_total last.stop next.stop with hle | hle
  · dsimp only
    rw [Nat.max_eq_right hle]
    exact hn.2
  · dsimp only
    rw [Nat.max_eq_left hle]
    exact hl.2

/-- **Ranges.** The ranges of a set of changes are in ascending order with a byte between each and the
next, and cover the bytes of the changes and no others. Changes that come in another order have the
same ranges. -/
theorem ranges_exact (changes : DirtySet) :
    (∀ range ∈ changes.ranges, range.start ≤ range.stop ∧ changes.Bounds range) ∧
    (changes.ranges.Pairwise fun range later =>
      range.start < later.start ∧ range.stop + 1 ≤ later.start) ∧
    (∀ i, Covers changes.ranges i ↔
      ∃ change ∈ changes, change.offset ≤ i ∧ i < change.offset + change.size) ∧
    ∀ others : DirtySet, changes.Perm others → others.ranges = changes.ranges := by
  have hapart := changes.apart_ranges
  refine ⟨fun range hm => ⟨hapart.ordered range hm, changes.bounds_ranges range hm⟩, ?_,
    fun i => ?_, fun others hperm => (ranges_perm hperm).symm⟩
  · refine hapart.gaps.imp_of_mem fun {range later} hm _ hgap => ⟨?_, hgap⟩
    exact Nat.lt_of_le_of_lt (hapart.ordered range hm) hgap
  · rw [covers_ranges]
    constructor
    · rintro ⟨_, hm, hholds⟩
      obtain ⟨change, hc, rfl⟩ := List.mem_map.1 hm
      exact ⟨change, hc, hholds⟩
    · rintro ⟨change, hc, hholds⟩
      exact ⟨change.range, List.mem_map_of_mem hc, hholds⟩

end DirtySet

end UniformLayout
