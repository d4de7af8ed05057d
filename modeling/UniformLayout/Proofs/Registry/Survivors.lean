import UniformLayout.Registry.Basic

/-!
# Positions after a removal

`Registry.removeRecords` deletes the records at some positions, and `Registry.keepIndex?` says where
the others stand afterwards. `getElem?_survivors` ties the two together: the list without the doomed
positions holds at a place exactly what stood at the position that moves there.
-/

namespace UniformLayout.Registry

variable {α β : Type}

/-- The entries of a list whose positions are not doomed. -/
def survivors (doomed : List Nat) (list : List α) : List α :=
  (list.zipIdx.filter fun entry => !doomed.contains entry.2).map Prod.fst

/-- The number of positions before `index` that are not doomed. -/
def keptBefore (doomed : List Nat) (index : Nat) : Nat :=
  (List.range index).countP fun i => !doomed.contains i

theorem keptBefore_succ (doomed : List Nat) (index : Nat) :
    keptBefore doomed (index + 1) =
      keptBefore doomed index + if doomed.contains index then 0 else 1 := by
  unfold keptBefore
  rw [List.range_succ, List.countP_append, List.countP_singleton]
  cases doomed.contains index <;> rfl

theorem keptBefore_mono (doomed : List Nat) {i j : Nat} (h : i ≤ j) :
    keptBefore doomed i ≤ keptBefore doomed j := by
  induction h with
  | refl => exact Nat.le_refl _
  | step _ ih =>
    rw [keptBefore_succ]
    omega

theorem keepIndex?_eq_some_iff {doomed : List Nat} {index kept : Nat} :
    keepIndex? doomed index = some kept ↔
      index ∉ doomed ∧ keptBefore doomed index = kept := by
  unfold keepIndex? keptBefore
  by_cases h : index ∈ doomed
  · simp [h]
  · simp [h]

theorem keptBefore_lt {doomed : List Nat} {i j : Nat} (hi : i ∉ doomed) (hij : i < j) :
    keptBefore doomed i < keptBefore doomed j := by
  have hle := keptBefore_mono doomed (Nat.succ_le_of_lt hij)
  rw [keptBefore_succ, if_neg (by simpa using hi)] at hle
  omega

/-- Different positions move to different places. -/
theorem keepIndex?_injective {doomed : List Nat} {i j kept : Nat}
    (hi : keepIndex? doomed i = some kept) (hj : keepIndex? doomed j = some kept) : i = j := by
  obtain ⟨hi, hik⟩ := keepIndex?_eq_some_iff.1 hi
  obtain ⟨hj, hjk⟩ := keepIndex?_eq_some_iff.1 hj
  rcases Nat.lt_trichotomy i j with h | h | h
  · have := keptBefore_lt hi h
    omega
  · exact h
  · have := keptBefore_lt hj h
    omega

/-- A position in front of all doomed ones keeps its place. -/
theorem keepIndex?_eq_self {doomed : List Nat} {index : Nat} (h : ∀ i ∈ doomed, index < i) :
    keepIndex? doomed index = some index := by
  have hkept : ∀ i ≤ index, keptBefore doomed i = i := by
    intro i hi
    induction i with
    | zero => rfl
    | succ i ih =>
      have hd : i ∉ doomed := fun hm => by
        have := h i hm
        omega
      rw [keptBefore_succ, if_neg (by simpa using hd), ih (by omega)]
  refine keepIndex?_eq_some_iff.2 ⟨fun hm => ?_, hkept index (Nat.le_refl _)⟩
  exact Nat.lt_irrefl _ (h index hm)

/-- The list from position `start` on: what stands at a place afterwards. The induction is on the
list, and `start` says how much of it has been passed. -/
theorem getElem?_survivors_from (doomed : List Nat) (list : List α) (start place : Nat) (a : α) :
    (((list.zipIdx start).filter fun entry => !doomed.contains entry.2).map Prod.fst)[place]? =
        some a ↔
      ∃ i, start + i ∉ doomed ∧
        keptBefore doomed (start + i) = keptBefore doomed start + place ∧ list[i]? = some a := by
  induction list generalizing start place with
  | nil => simp
  | cons b rest ih =>
    have hnext := keptBefore_succ doomed start
    rw [List.zipIdx_cons, ← Nat.or_exists_add_one]
    simp only [← Nat.add_assoc, Nat.add_right_comm start _ 1, Nat.add_zero, List.getElem?_cons_zero,
      List.getElem?_cons_succ]
    by_cases hd : start ∈ doomed
    · rw [if_pos (by simpa using hd), Nat.add_zero] at hnext
      rw [List.filter_cons_of_neg (by simpa using hd), ih (start + 1) place, hnext]
      exact (or_iff_right fun hi => hi.1 hd).symm
    · rw [if_neg (by simpa using hd)] at hnext
      rw [List.filter_cons_of_pos (by simpa using hd), List.map_cons]
      cases place with
      | zero =>
        have hlater : ¬ ∃ i, start + 1 + i ∉ doomed ∧
            keptBefore doomed (start + 1 + i) = keptBefore doomed start + 0 ∧ rest[i]? = some a := by
          rintro ⟨i, -, hk, -⟩
          have := keptBefore_lt hd (show start < start + 1 + i by omega)
          omega
        rw [or_iff_left hlater]
        simp [hd]
      | succ place =>
        have hfirst : ¬ (start ∉ doomed ∧
            keptBefore doomed start = keptBefore doomed start + (place + 1) ∧ some b = some a) :=
          fun hi => by omega
        rw [or_iff_right hfirst, List.getElem?_cons_succ, ih (start + 1) place, hnext]
        simp only [Nat.add_assoc, Nat.add_comm 1 place]

/-- What stands at a place after the removal stood at the position that moves there. -/
theorem getElem?_survivors {doomed : List Nat} {list : List α} {place : Nat} {a : α} :
    (survivors doomed list)[place]? = some a ↔
      ∃ i, keepIndex? doomed i = some place ∧ list[i]? = some a := by
  unfold survivors
  rw [getElem?_survivors_from]
  simp only [Nat.zero_add, keepIndex?_eq_some_iff, and_assoc]
  have hzero : keptBefore doomed 0 = 0 := rfl
  simp only [hzero, Nat.zero_add]

theorem survivors_map (doomed : List Nat) (list : List α) (f : α → β) :
    survivors doomed (list.map f) = (survivors doomed list).map f := by
  apply List.ext_getElem?
  intro place
  ext b
  rw [getElem?_survivors, List.getElem?_map, Option.map_eq_some_iff]
  constructor
  · rintro ⟨i, hi, hb⟩
    rw [List.getElem?_map, Option.map_eq_some_iff] at hb
    obtain ⟨a, ha, rfl⟩ := hb
    exact ⟨a, getElem?_survivors.2 ⟨i, hi, ha⟩, rfl⟩
  · rintro ⟨a, ha, rfl⟩
    obtain ⟨i, hi, ha⟩ := getElem?_survivors.1 ha
    exact ⟨i, hi, by rw [List.getElem?_map, ha]; rfl⟩

theorem mem_of_mem_survivors {doomed : List Nat} {list : List α} {a : α}
    (h : a ∈ survivors doomed list) : a ∈ list := by
  obtain ⟨place, hp⟩ := List.mem_iff_getElem?.1 h
  obtain ⟨i, -, ha⟩ := getElem?_survivors.1 hp
  exact List.mem_of_getElem? ha

/-- Doomed entries that a filter drops anyway are not missed. -/
theorem filter_survivors {doomed : List Nat} {list : List α} {p : α → Bool}
    (h : ∀ i ∈ doomed, ∀ a, list[i]? = some a → p a = false) :
    (survivors doomed list).filter p = list.filter p := by
  have hall : list.filter p = (list.zipIdx.map Prod.fst).filter p := by
    rw [List.zipIdx_map_fst]
  rw [hall]
  unfold survivors
  rw [List.filter_map, List.filter_map, List.filter_filter]
  congr 1
  apply List.filter_congr
  rintro ⟨a, i⟩ hm
  have ha := List.mem_zipIdx_iff_getElem?.1 hm
  cases hd : doomed.contains i with
  | false => simp
  | true =>
    have := h i (List.contains_iff_mem.1 hd) a ha
    simp [this]

end UniformLayout.Registry
