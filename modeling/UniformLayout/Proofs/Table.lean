import UniformLayout.Table

/-!
# Sorted tables

A table that grows by `Table.insert` lists its keys in ascending order, so that every key stands in
it once. For such tables a look-up is membership (`lookup_eq_some_iff`), entries that are dropped
uncover no others (`lookup_filterMap`, `lookup_filter`), and the look-ups determine the table
(`Sorted.ext`).
-/

namespace UniformLayout.Table

variable {α β : Type}

/-- The keys stand in ascending order. -/
def Sorted (table : Table String α) : Prop := table.keys.Pairwise (· < ·)

theorem sorted_nil : Sorted ([] : Table String α) := List.Pairwise.nil

theorem sorted_cons {entry : String × α} {rest : Table String α} :
    Sorted (entry :: rest) ↔ (∀ other ∈ rest, entry.1 < other.1) ∧ Sorted rest := by
  simp only [Sorted, keys, List.map_cons, List.pairwise_cons, List.mem_map]
  constructor
  · rintro ⟨h, hr⟩
    exact ⟨fun other hm => h other.1 ⟨other, hm, rfl⟩, hr⟩
  · rintro ⟨h, hr⟩
    refine ⟨?_, hr⟩
    rintro key ⟨other, hm, rfl⟩
    exact h other hm

theorem Sorted.pairwise {table : Table String α} (h : Sorted table) :
    table.Pairwise fun a b => a.1 < b.1 :=
  List.pairwise_map.1 h

theorem Sorted.nodup {table : Table String α} (h : Sorted table) : table.Nodup := by
  refine h.pairwise.imp fun {a b} hab he => ?_
  rw [he] at hab
  exact String.lt_irrefl _ hab

theorem Sorted.of_sublist {table : Table String α} {other : Table String β}
    (hs : other.keys.Sublist table.keys) (h : Sorted table) : Sorted other :=
  List.Pairwise.sublist hs h

theorem Sorted.filter {table : Table String α} (h : Sorted table) (p : String × α → Bool) :
    Sorted (table.filter p) :=
  h.of_sublist (List.filter_sublist.map _)

theorem Sorted.map {table : Table String α} (h : Sorted table) (f : α → β) :
    Sorted (table.map fun entry => (entry.1, f entry.2)) := by
  have hk : keys (table.map fun entry => (entry.1, f entry.2)) = table.keys := by
    simp [keys, Function.comp_def]
  unfold Sorted
  rw [hk]
  exact h

theorem keys_filterMap_sublist (table : Table String α) (f : α → Option β) :
    (keys (table.filterMap fun entry => (f entry.2).map fun b => (entry.1, b))).Sublist
      table.keys := by
  induction table with
  | nil => exact List.Sublist.refl _
  | cons entry rest ih =>
    rw [List.filterMap_cons]
    cases f entry.2 with
    | none => exact ih.cons _
    | some b => exact ih.cons_cons _

theorem Sorted.filterMap {table : Table String α} (h : Sorted table) (f : α → Option β) :
    Sorted (table.filterMap fun entry => (f entry.2).map fun b => (entry.1, b)) :=
  h.of_sublist (keys_filterMap_sublist table f)

theorem mem_insert {table : Table String α} {key : String} {value : α} {entry : String × α}
    (h : entry ∈ insert key value table) : entry = (key, value) ∨ entry ∈ table := by
  induction table with
  | nil => exact Or.inl (List.mem_singleton.1 h)
  | cons first rest ih =>
    simp only [insert] at h
    split at h
    · rcases List.mem_cons.1 h with rfl | hm
      · exact Or.inl rfl
      · exact Or.inr (List.mem_cons_of_mem _ hm)
    · split at h
      · rcases List.mem_cons.1 h with rfl | hm
        · exact Or.inl rfl
        · exact Or.inr hm
      · rcases List.mem_cons.1 h with rfl | hm
        · exact Or.inr List.mem_cons_self
        · exact (ih hm).imp_right (List.mem_cons_of_mem _)

theorem Sorted.insert {table : Table String α} (h : Sorted table) (key : String) (value : α) :
    Sorted (insert key value table) := by
  induction table with
  | nil => exact sorted_cons.2 ⟨by simp, sorted_nil⟩
  | cons first rest ih =>
    obtain ⟨hfirst, hrest⟩ := sorted_cons.1 h
    simp only [Table.insert]
    split
    · rename_i heq
      obtain rfl : key = first.1 := eq_of_beq heq
      exact sorted_cons.2 ⟨hfirst, hrest⟩
    · rename_i hne
      split
      · rename_i hlt
        refine sorted_cons.2 ⟨List.forall_mem_cons.2 ⟨hlt, fun other hm => ?_⟩, h⟩
        exact String.lt_trans hlt (hfirst other hm)
      · rename_i hnlt
        refine sorted_cons.2 ⟨fun other hm => ?_, ih hrest⟩
        rcases mem_insert hm with rfl | hm
        · have hle : first.1 ≤ key := String.not_lt.1 hnlt
          have hne' : first.1 ≠ key := fun he => hne (by simp [he])
          exact Std.lt_of_le_of_ne hle hne'
        · exact hfirst other hm

/-- In a sorted table no other entry hides one. -/
theorem lookup_eq_some_iff {table : Table String α} (h : Sorted table) {key : String} {value : α} :
    table.lookup key = some value ↔ (key, value) ∈ table := by
  induction table with
  | nil => simp
  | cons first rest ih =>
    obtain ⟨hfirst, hrest⟩ := sorted_cons.1 h
    rw [List.lookup_cons]
    by_cases heq : key = first.1
    · subst heq
      simp only [beq_self_eq_true, Option.some.injEq, List.mem_cons]
      constructor
      · rintro rfl
        exact Or.inl rfl
      · rintro (he | hm)
        · rw [← he]
        · exact absurd (hfirst _ hm) (String.lt_irrefl _)
    · have hne : (key == first.1) = false := by simpa using heq
      rw [hne]
      simp only [ih hrest, List.mem_cons]
      constructor
      · exact Or.inr
      · rintro (he | hm)
        · exact absurd (congrArg Prod.fst he) heq
        · exact hm

/-- Two sorted tables with the same look-ups are the same. -/
theorem Sorted.ext {a b : Table String α} (ha : Sorted a) (hb : Sorted b)
    (h : ∀ key, a.lookup key = b.lookup key) : a = b := by
  have hmem : ∀ entry, entry ∈ a ↔ entry ∈ b := by
    rintro ⟨key, value⟩
    rw [← lookup_eq_some_iff ha, ← lookup_eq_some_iff hb, h key]
  have hperm := (List.perm_ext_iff_of_nodup ha.nodup hb.nodup).2 hmem
  refine hperm.eq_of_pairwise (fun x y _ _ hxy hyx => ?_) ha.pairwise hb.pairwise
  exact absurd hyx (String.lt_asymm hxy)

theorem lookup_map (table : Table String α) (f : α → β) (key : String) :
    (table.map fun entry => (entry.1, f entry.2)).lookup key = (table.lookup key).map f := by
  induction table with
  | nil => rfl
  | cons first rest ih =>
    rw [List.map_cons, List.lookup_cons, List.lookup_cons]
    split
    · rfl
    · exact ih

/-- Entries that are dropped or changed by their value leave the others where they are. -/
theorem lookup_filterMap {table : Table String α} (h : Sorted table) (f : α → Option β)
    (key : String) :
    (table.filterMap fun entry => (f entry.2).map fun b => (entry.1, b)).lookup key =
      (table.lookup key).bind f := by
  ext value
  rw [lookup_eq_some_iff (h.filterMap f), List.mem_filterMap, Option.bind_eq_some_iff]
  constructor
  · rintro ⟨⟨k, a⟩, hm, he⟩
    obtain ⟨b, hb, he⟩ := Option.map_eq_some_iff.1 he
    cases he
    exact ⟨a, (lookup_eq_some_iff h).2 hm, hb⟩
  · rintro ⟨a, hm, hb⟩
    exact ⟨(key, a), (lookup_eq_some_iff h).1 hm, by simp [hb]⟩

theorem lookup_filter {table : Table String α} (h : Sorted table) (p : String × α → Bool)
    (key : String) :
    (table.filter p).lookup key = (table.lookup key).filter fun value => p (key, value) := by
  ext value
  rw [lookup_eq_some_iff (h.filter p), List.mem_filter, ← lookup_eq_some_iff h,
    Option.filter_eq_some_iff]

end UniformLayout.Table
