import UniformLayout.Proofs.Registry.Survivors
import UniformLayout.Proofs.Table
import UniformLayout.Registry.Generation
import UniformLayout.Registry.Registration
import UniformLayout.Registry.Snapshot
import Mathlib.Data.List.Nodup

/-!
# Consistency of the registry's indices

`Registry.Consistent` ties the four indices to the list of records: each of the three unique keys
leads to the position of its record and to nothing else, and the index by declared name lists
exactly the aliases that the records carry. `Registry.Ordered` says that the indices are sorted
tables.

* `consistent_addRecord`, `consistent_addAlias`, `consistent_removeAlias`,
  `consistent_removeRecords`: the steps of which the operations consist keep both.
-/

namespace UniformLayout

/-- The index leads from each key of the list to its position, and from nothing else. -/
def Indexes (index : Table String Nat) (keys : List String) : Prop :=
  ∀ key i, index.lookup key = some i ↔ keys[i]? = some key

/-- Each key stands at one position only. -/
theorem Indexes.nodup {index : Table String Nat} {keys : List String} (h : Indexes index keys) :
    keys.Nodup := by
  rw [List.nodup_iff_getElem?_ne_getElem?]
  intro i j hij hj he
  have hkey : keys[j]? = some keys[j] := List.getElem?_eq_getElem hj
  have hi := (h keys[j] i).2 (he.trans hkey)
  have hj := (h keys[j] j).2 hkey
  have := Option.some.inj (hi.symm.trans hj)
  omega

/-- What the index does not know is no key. -/
theorem Indexes.lookup_eq_none_iff {index : Table String Nat} {keys : List String}
    (h : Indexes index keys) {key : String} : index.lookup key = none ↔ key ∉ keys := by
  constructor
  · intro hn hm
    obtain ⟨i, hi⟩ := List.mem_iff_getElem?.1 hm
    rw [(h key i).2 hi] at hn
    cases hn
  · intro hm
    cases hl : index.lookup key with
    | none => rfl
    | some i => exact absurd (List.mem_of_getElem? ((h key i).1 hl)) hm

/-- A new key is entered behind the others. -/
theorem Indexes.insert {index : Table String Nat} {keys : List String} (h : Indexes index keys)
    {key : String} (hk : index.lookup key = none) :
    Indexes (index.insert key keys.length) (keys ++ [key]) := by
  intro other i
  by_cases he : other = key
  · subst he
    rw [Table.lookup_insert_self, Option.some.injEq]
    constructor
    · rintro rfl
      exact List.getElem?_concat_length
    · intro hi
      rcases Nat.lt_or_ge i keys.length with hlt | hge
      · rw [List.getElem?_append_left hlt] at hi
        exact absurd (List.mem_of_getElem? hi) (h.lookup_eq_none_iff.1 hk)
      · rw [List.getElem?_append_right hge, List.getElem?_singleton] at hi
        split at hi
        · omega
        · cases hi
  · rw [Table.lookup_insert_of_ne he, h other i]
    constructor
    · intro hi
      rw [List.getElem?_append_left (List.getElem?_eq_some_iff.1 hi).1]
      exact hi
    · intro hi
      rcases Nat.lt_or_ge i keys.length with hlt | hge
      · rwa [List.getElem?_append_left hlt] at hi
      · rw [List.getElem?_append_right hge, List.getElem?_singleton] at hi
        split at hi
        · exact absurd (Option.some.inj hi).symm he
        · cases hi

/-- Entries of removed positions go, and the others follow their key. -/
theorem Indexes.follow {index : Table String Nat} {keys : List String} (h : Indexes index keys)
    (hs : index.Sorted) (doomed : List Nat) :
    Indexes (index.filterMap fun entry =>
        (Registry.keepIndex? doomed entry.2).map fun i => (entry.1, i))
      (Registry.survivors doomed keys) := by
  intro key place
  rw [Table.lookup_filterMap hs, Option.bind_eq_some_iff, Registry.getElem?_survivors]
  constructor
  · rintro ⟨i, hi, hk⟩
    exact ⟨i, hk, (h key i).1 hi⟩
  · rintro ⟨i, hk, hi⟩
    exact ⟨i, (h key i).2 hi, hk⟩

namespace Registry

/-- The content hashes, in the order of the records. -/
def hashes (registry : Registry) : List String :=
  registry.records.map (·.identity.contentHash)

/-- The persistent ids, in the order of the records. -/
def ids (registry : Registry) : List String :=
  registry.records.map (·.identity.persistentId)

/-- The generated names, in the order of the records. -/
def names (registry : Registry) : List String :=
  registry.records.map (·.identity.generatedName)

/-- The record at a position carries an alias. -/
def Carries (registry : Registry) (index : Nat) (alias_ : Alias) : Prop :=
  ∃ record, registry.records[index]? = some record ∧ alias_ ∈ record.declared

/-- The indices describe the records, and nothing else. -/
structure Consistent (registry : Registry) : Prop where
  byHash : Indexes registry.byHash registry.hashes
  byId : Indexes registry.byId registry.ids
  byGeneratedName : Indexes registry.byGeneratedName registry.names
  declared : ∀ name source index,
    (source, index) ∈ registry.declarationsOf name ↔ registry.Carries index ⟨name, source⟩
  declarations_nodup : ∀ name, (registry.declarationsOf name).Nodup
  aliases_nodup : ∀ record ∈ registry.records, record.declared.Nodup
  no_empty : ∀ name, registry.byDeclaredName.lookup name ≠ some []
  described : ∀ record ∈ registry.records,
    record.descriptor.isSome ↔ record.state = .generated

/-- The indices are sorted tables. -/
structure Ordered (registry : Registry) : Prop where
  byHash : registry.byHash.Sorted
  byId : registry.byId.Sorted
  byGeneratedName : registry.byGeneratedName.Sorted
  byDeclaredName : registry.byDeclaredName.Sorted

variable {registry : Registry}

theorem consistent_empty (suffixLength : Nat) : Consistent { suffixLength } := by
  have hnil : Indexes [] [] := by
    intro key i
    simp
  refine ⟨hnil, hnil, hnil, ?_, ?_, ?_, ?_, ?_⟩
  · intro name source index
    simp [declarationsOf, Carries]
  · intro name
    exact List.nodup_nil
  · intro record hm
    cases hm
  · intro name h
    cases h
  · intro record hm
    cases hm

theorem ordered_empty (suffixLength : Nat) : Ordered { suffixLength } :=
  ⟨Table.sorted_nil, Table.sorted_nil, Table.sorted_nil, Table.sorted_nil⟩

/-! ## Changing one record -/

theorem getElem?_setRecord (registry : Registry) (index : Nat) (change : Record → Record)
    (i : Nat) : (registry.setRecord index change).records[i]? =
      if index = i then registry.records[i]?.map change else registry.records[i]? := by
  unfold setRecord
  rw [List.getElem?_modify]
  split
  · rfl
  · simp

theorem setRecord_setRecord (registry : Registry) (index : Nat) (first second : Record → Record) :
    (registry.setRecord index first).setRecord index second =
      registry.setRecord index (second ∘ first) := by
  unfold setRecord
  rw [List.modify_modify_eq]

/-- A change that leaves the record at the position as it is. -/
theorem setRecord_eq_self {index : Nat} {change : Record → Record}
    (h : ∀ record, registry.records[index]? = some record → change record = record) :
    registry.setRecord index change = registry := by
  have hrecords : registry.records.modify index change = registry.records := by
    apply List.ext_getElem?
    intro i
    rw [List.getElem?_modify]
    split
    · rename_i he
      subst he
      cases hr : registry.records[index]? with
      | none => rfl
      | some record => exact congrArg some (h record hr)
    · simp
  unfold setRecord
  rw [hrecords]

theorem map_setRecord {α : Type} (index : Nat) {change : Record → Record} {f : Record → α}
    (h : ∀ record, f (change record) = f record) :
    (registry.setRecord index change).records.map f = registry.records.map f := by
  apply List.ext_getElem?
  intro i
  rw [List.getElem?_map, List.getElem?_map, getElem?_setRecord]
  split
  · cases registry.records[i]? with
    | none => rfl
    | some record => exact congrArg some (h record)
  · rfl

/-- A property of every record has to be checked only where the change takes place. -/
theorem forall_mem_setRecord {index : Nat} {change : Record → Record} {P : Record → Prop}
    (h : ∀ record ∈ registry.records, P record)
    (hc : ∀ record, registry.records[index]? = some record → P (change record)) :
    ∀ record ∈ (registry.setRecord index change).records, P record := by
  intro record hm
  obtain ⟨i, hi⟩ := List.mem_iff_getElem?.1 hm
  rw [getElem?_setRecord] at hi
  split at hi
  · rename_i he
    subst he
    obtain ⟨old, ho, rfl⟩ := Option.map_eq_some_iff.1 hi
    exact hc old ho
  · exact h record (List.mem_of_getElem? hi)

theorem carries_setRecord {index i : Nat} {change : Record → Record} {alias_ : Alias} :
    (registry.setRecord index change).Carries i alias_ ↔
      ∃ record, registry.records[i]? = some record ∧
        alias_ ∈ (if index = i then change record else record).declared := by
  unfold Carries
  rw [getElem?_setRecord]
  split
  · simp [Option.map_eq_some_iff]
  · rfl

/-- A change that keeps identities and aliases needs no other index, as long as descriptors go with
generated types. -/
theorem Consistent.setRecord (h : registry.Consistent) (index : Nat) {change : Record → Record}
    (hi : ∀ record, (change record).identity = record.identity)
    (ha : ∀ record, (change record).declared = record.declared)
    (hd : ∀ record, registry.records[index]? = some record →
      ((change record).descriptor.isSome ↔ (change record).state = .generated)) :
    (registry.setRecord index change).Consistent := by
  have hkey : ∀ key : TypeIdentity → String,
      (registry.setRecord index change).records.map (fun record => key record.identity) =
        registry.records.map fun record => key record.identity := by
    intro key
    exact map_setRecord index fun record => congrArg key (hi record)
  refine ⟨?_, ?_, ?_, ?_, h.declarations_nodup, ?_, h.no_empty,
    forall_mem_setRecord h.described hd⟩
  · rw [hashes, hkey]
    exact h.byHash
  · rw [ids, hkey]
    exact h.byId
  · rw [names, hkey]
    exact h.byGeneratedName
  · intro name source i
    refine (h.declared name source i).trans ?_
    rw [carries_setRecord]
    unfold Carries
    split
    · simp only [ha]
    · rfl
  · refine forall_mem_setRecord h.aliases_nodup fun record hr => ?_
    rw [ha]
    exact h.aliases_nodup record (List.mem_of_getElem? hr)

/-! ## Aliases -/

/-- What an index by declared name lists under a name. -/
def listed (byDeclaredName : Table String (List (String × Nat))) (name : String) :
    List (String × Nat) :=
  (byDeclaredName.lookup name).getD []

theorem declarationsOf_eq (registry : Registry) (name : String) :
    registry.declarationsOf name = listed registry.byDeclaredName name := rfl

theorem listed_insert (byDeclaredName : Table String (List (String × Nat))) (name other : String)
    (entries : List (String × Nat)) :
    listed (byDeclaredName.insert name entries) other =
      if other = name then entries else listed byDeclaredName other := by
  unfold listed
  split
  · rename_i he
    subst he
    rw [Table.lookup_insert_self]
    rfl
  · rename_i hne
    rw [Table.lookup_insert_of_ne hne]

theorem hasAlias_iff (registry : Registry) (index : Nat) (alias_ : Alias) :
    registry.hasAlias index alias_ = true ↔
      (alias_.source, index) ∈ registry.declarationsOf alias_.name := by
  unfold hasAlias
  rw [List.contains_iff_mem]

/-- Records with other aliases, and an index by declared name that agrees with them. -/
theorem Consistent.relabel (h : registry.Consistent) (index : Nat)
    (change : List Alias → List Alias) {byDeclaredName : Table String (List (String × Nat))}
    (hdeclared : ∀ name source i, (source, i) ∈ listed byDeclaredName name ↔
      ∃ record, registry.records[i]? = some record ∧
        (⟨name, source⟩ : Alias) ∈
          if index = i then change record.declared else record.declared)
    (hnodup : ∀ name, (listed byDeclaredName name).Nodup)
    (hchange : ∀ record, registry.records[index]? = some record →
      (change record.declared).Nodup)
    (hempty : ∀ name, byDeclaredName.lookup name ≠ some []) :
    Consistent { registry.setRecord index fun record =>
      { record with declared := change record.declared } with byDeclaredName } := by
  have hkey : ∀ key : TypeIdentity → String,
      (registry.setRecord index fun record =>
        { record with declared := change record.declared }).records.map
          (fun record => key record.identity) =
        registry.records.map fun record => key record.identity := by
    intro key
    exact map_setRecord index fun record => rfl
  refine ⟨?_, ?_, ?_, ?_, hnodup, ?_, hempty, ?_⟩
  · rw [hashes, hkey]
    exact h.byHash
  · rw [ids, hkey]
    exact h.byId
  · rw [names, hkey]
    exact h.byGeneratedName
  · intro name source i
    refine (hdeclared name source i).trans (Iff.trans ?_ carries_setRecord.symm)
    split
    · rfl
    · rfl
  · exact forall_mem_setRecord h.aliases_nodup hchange
  · exact forall_mem_setRecord h.described fun record hr =>
      h.described record (List.mem_of_getElem? hr)

/-- The aliases that the records carry when one of them gets a further one. -/
theorem carries_concat {index i : Nat} {alias_ known : Alias}
    (hi : index < registry.records.length) :
    (∃ record, registry.records[i]? = some record ∧
        known ∈ if index = i then record.declared ++ [alias_] else record.declared) ↔
      registry.Carries i known ∨ i = index ∧ known = alias_ := by
  constructor
  · rintro ⟨record, hr, hm⟩
    split at hm
    · rename_i he
      rcases List.mem_append.1 hm with hm | hm
      · exact Or.inl ⟨record, hr, hm⟩
      · exact Or.inr ⟨he.symm, List.mem_singleton.1 hm⟩
    · exact Or.inl ⟨record, hr, hm⟩
  · rintro (⟨record, hr, hm⟩ | ⟨rfl, rfl⟩)
    · refine ⟨record, hr, ?_⟩
      split
      · exact List.mem_append_left _ hm
      · exact hm
    · refine ⟨registry.records[i], List.getElem?_eq_getElem hi, ?_⟩
      rw [if_pos rfl]
      exact List.mem_append_right _ List.mem_cons_self

/-- The aliases that the records carry when one is taken from one of them. -/
theorem carries_filter {index i : Nat} {alias_ known : Alias} :
    (∃ record, registry.records[i]? = some record ∧
        known ∈ if index = i then record.declared.filter (· != alias_) else record.declared) ↔
      registry.Carries i known ∧ ¬ (i = index ∧ known = alias_) := by
  constructor
  · rintro ⟨record, hr, hm⟩
    split at hm
    · obtain ⟨hm, hne⟩ := List.mem_filter.1 hm
      exact ⟨⟨record, hr, hm⟩, fun he => bne_iff_ne.1 hne he.2⟩
    · rename_i hi
      exact ⟨⟨record, hr, hm⟩, fun he => hi he.1.symm⟩
  · rintro ⟨⟨record, hr, hm⟩, hne⟩
    refine ⟨record, hr, ?_⟩
    split
    · rename_i hi
      exact List.mem_filter.2 ⟨hm, bne_iff_ne.2 fun he => hne ⟨hi.symm, he⟩⟩
    · exact hm

theorem entry_eq_iff {alias_ : Alias} {source : String} {i index : Nat} :
    (source, i) = (alias_.source, index) ↔ i = index ∧ ⟨alias_.name, source⟩ = alias_ := by
  constructor
  · intro h
    obtain ⟨rfl, rfl⟩ := Prod.mk.inj h
    exact ⟨rfl, rfl⟩
  · rintro ⟨rfl, h⟩
    rw [← h]

theorem addAlias_of_new {index : Nat} {alias_ : Alias}
    (hnew : registry.hasAlias index alias_ = false) : registry.addAlias index alias_ =
      { registry.setRecord index fun record =>
          { record with declared := record.declared ++ [alias_] } with
        byDeclaredName := registry.byDeclaredName.insert alias_.name
          (registry.declarationsOf alias_.name ++ [(alias_.source, index)]) } := by
  unfold addAlias
  rw [if_neg (by rw [hnew]; decide)]

theorem not_mem_declarationsOf {index : Nat} {alias_ : Alias}
    (hnew : registry.hasAlias index alias_ = false) :
    (alias_.source, index) ∉ registry.declarationsOf alias_.name := by
  intro hm
  rw [← hasAlias_iff, hnew] at hm
  cases hm

/-- A new alias adds one declaration to its name. -/
theorem mem_declarationsOf_addAlias {index : Nat} {alias_ : Alias}
    (hn : registry.hasAlias index alias_ = false) (name : String) (entry : String × Nat) :
    entry ∈ (registry.addAlias index alias_).declarationsOf name ↔
      entry ∈ registry.declarationsOf name ∨ name = alias_.name ∧ entry = (alias_.source, index) := by
  rw [addAlias_of_new hn, declarationsOf_eq, listed_insert]
  split
  · rename_i he
    subst he
    simp
  · rename_i hne
    simp [hne, declarationsOf_eq]

theorem consistent_addAlias (h : registry.Consistent) {index : Nat} (alias_ : Alias)
    (hi : index < registry.records.length) : (registry.addAlias index alias_).Consistent := by
  cases hnew : registry.hasAlias index alias_ with
  | true =>
    unfold addAlias
    rwa [if_pos hnew]
  | false =>
    have hunlisted := not_mem_declarationsOf hnew
    rw [addAlias_of_new hnew]
    refine h.relabel index (· ++ [alias_]) ?_ ?_ ?_ ?_
    · intro name source i
      rw [listed_insert, ← declarationsOf_eq, carries_concat hi, ← h.declared]
      split
      · rename_i he
        subst he
        rw [List.mem_append, List.mem_singleton, entry_eq_iff]
      · rename_i hne
        exact (or_iff_left fun he => hne (congrArg Alias.name he.2)).symm
    · intro name
      rw [listed_insert, ← declarationsOf_eq]
      split
      · rename_i he
        subst he
        rw [← List.concat_eq_append]
        exact (h.declarations_nodup _).concat hunlisted
      · exact h.declarations_nodup name
    · intro record hr
      have hfresh : alias_ ∉ record.declared := fun hm =>
        hunlisted ((h.declared _ _ _).2 ⟨record, hr, hm⟩)
      rw [← List.concat_eq_append]
      exact (h.aliases_nodup record (List.mem_of_getElem? hr)).concat hfresh
    · intro name hl
      by_cases he : name = alias_.name
      · subst he
        rw [Table.lookup_insert_self] at hl
        simp at hl
      · rw [Table.lookup_insert_of_ne he] at hl
        exact h.no_empty name hl

theorem ordered_addAlias (h : registry.Ordered) (index : Nat) (alias_ : Alias) :
    (registry.addAlias index alias_).Ordered := by
  unfold addAlias
  split
  · exact h
  · exact ⟨h.byHash, h.byId, h.byGeneratedName, h.byDeclaredName.insert _ _⟩

/-- What is declared under each name once an alias is gone. -/
theorem lookup_removeAlias (ho : registry.Ordered) (index : Nat) (alias_ : Alias)
    (name : String) :
    (registry.removeAlias index alias_).byDeclaredName.lookup name =
      if name = alias_.name then
        (some ((registry.declarationsOf name).filter (· != (alias_.source, index)))).filter
          (!·.isEmpty)
      else registry.byDeclaredName.lookup name := by
  unfold removeAlias
  by_cases he : name = alias_.name
  · subst he
    rw [if_pos rfl]
    dsimp only
    split
    · rename_i hempty
      rw [Table.lookup_filter ho.byDeclaredName, Option.filter_some, hempty]
      cases registry.byDeclaredName.lookup alias_.name with
      | none => rfl
      | some entries => simp [Option.filter_some]
    · rename_i hempty
      rw [Table.lookup_insert_self, Option.filter_some]
      simp [hempty]
  · rw [if_neg he]
    dsimp only
    split
    · rw [Table.lookup_filter ho.byDeclaredName]
      have hkeep : (name != alias_.name) = true := by simpa using he
      cases registry.byDeclaredName.lookup name with
      | none => rfl
      | some entries => simp [Option.filter_some, hkeep]
    · rw [Table.lookup_insert_of_ne he]

theorem declarationsOf_removeAlias (ho : registry.Ordered) (index : Nat) (alias_ : Alias)
    (name : String) :
    (registry.removeAlias index alias_).declarationsOf name =
      if name = alias_.name then
        (registry.declarationsOf name).filter (· != (alias_.source, index))
      else registry.declarationsOf name := by
  unfold declarationsOf
  rw [lookup_removeAlias ho]
  split
  · rw [Option.filter_some]
    unfold declarationsOf
    split
    · rfl
    · rename_i hempty
      simp only [Bool.not_eq_true, Bool.not_eq_false', List.isEmpty_iff] at hempty
      rw [hempty]
      rfl
  · rfl

theorem consistent_removeAlias (h : registry.Consistent) (ho : registry.Ordered) (index : Nat)
    (alias_ : Alias) : (registry.removeAlias index alias_).Consistent := by
  have hentries := declarationsOf_removeAlias ho index alias_
  have hlookup := lookup_removeAlias ho index alias_
  refine h.relabel index (·.filter (· != alias_)) ?_ ?_ ?_ ?_
  · intro name source i
    refine (Iff.of_eq (congrArg ((source, i) ∈ ·) (hentries name))).trans ?_
    rw [carries_filter, ← h.declared]
    split
    · rename_i he
      subst he
      rw [List.mem_filter, bne_iff_ne, ne_eq, entry_eq_iff]
    · rename_i hne
      exact (and_iff_left fun he => hne (congrArg Alias.name he.2)).symm
  · intro name
    refine (congrArg List.Nodup (hentries name)).mpr ?_
    split
    · exact (h.declarations_nodup name).filter _
    · exact h.declarations_nodup name
  · intro record hr
    exact (h.aliases_nodup record (List.mem_of_getElem? hr)).filter _
  · intro name hl
    have hkept := (hlookup name).symm.trans hl
    split at hkept
    · have := (Option.filter_eq_some_iff.1 hkept).2
      simp at this
    · exact h.no_empty name hkept

theorem ordered_removeAlias (h : registry.Ordered) (index : Nat) (alias_ : Alias) :
    (registry.removeAlias index alias_).Ordered := by
  refine ⟨h.byHash, h.byId, h.byGeneratedName, ?_⟩
  unfold removeAlias
  dsimp only
  split
  · exact h.byDeclaredName.filter _
  · exact h.byDeclaredName.insert _ _

theorem ordered_setRecord (h : registry.Ordered) (index : Nat) (change : Record → Record) :
    (registry.setRecord index change).Ordered :=
  ⟨h.byHash, h.byId, h.byGeneratedName, h.byDeclaredName⟩

/-! ## Adding and removing records -/

theorem consistent_addRecord (h : registry.Consistent) {identity : TypeIdentity}
    (hhash : registry.byHash.lookup identity.contentHash = none)
    (hid : registry.byId.lookup identity.persistentId = none)
    (hname : registry.byGeneratedName.lookup identity.generatedName = none) :
    (registry.addRecord identity).Consistent := by
  have hkey : ∀ key : TypeIdentity → String,
      (registry.addRecord identity).records.map (fun record => key record.identity) =
        (registry.records.map fun record => key record.identity) ++ [key identity] := by
    intro key
    exact List.map_append
  have hlength : ∀ key : TypeIdentity → String,
      registry.records.length =
        (registry.records.map fun record => key record.identity).length := by
    intro key
    exact (List.length_map _).symm
  refine ⟨?_, ?_, ?_, ?_, h.declarations_nodup, ?_, h.no_empty, ?_⟩
  · rw [hashes, hkey]
    have := h.byHash.insert hhash
    rwa [hashes, ← hlength] at this
  · rw [ids, hkey]
    have := h.byId.insert hid
    rwa [ids, ← hlength] at this
  · rw [names, hkey]
    have := h.byGeneratedName.insert hname
    rwa [names, ← hlength] at this
  · intro name source i
    refine (h.declared name source i).trans ?_
    constructor
    · rintro ⟨record, hr, hm⟩
      have hlt := (List.getElem?_eq_some_iff.1 hr).1
      exact ⟨record, (List.getElem?_append_left hlt).trans hr, hm⟩
    · rintro ⟨record, hr, hm⟩
      rcases Nat.lt_or_ge i registry.records.length with hlt | hge
      · exact ⟨record, (List.getElem?_append_left hlt).symm.trans hr, hm⟩
      · have hlast := (List.getElem?_append_right hge).symm.trans hr
        rw [List.getElem?_singleton] at hlast
        split at hlast
        · obtain rfl := Option.some.inj hlast
          cases hm
        · cases hlast
  · intro record hm
    rcases List.mem_append.1 hm with hm | hm
    · exact h.aliases_nodup record hm
    · rw [List.mem_singleton.1 hm]
      exact List.nodup_nil
  · intro record hm
    rcases List.mem_append.1 hm with hm | hm
    · exact h.described record hm
    · rw [List.mem_singleton.1 hm]
      simp

theorem ordered_addRecord (h : registry.Ordered) (identity : TypeIdentity) :
    (registry.addRecord identity).Ordered :=
  ⟨h.byHash.insert _ _, h.byId.insert _ _, h.byGeneratedName.insert _ _, h.byDeclaredName⟩

/-- Entries whose records are doomed go, and the others follow their record. -/
def follow (doomed : List Nat) (entries : List (String × Nat)) : List (String × Nat) :=
  entries.filterMap fun entry =>
    (keepIndex? doomed entry.2).map fun index => (entry.1, index)

theorem mem_follow {doomed : List Nat} {entries : List (String × Nat)} {source : String}
    {place : Nat} : (source, place) ∈ follow doomed entries ↔
      ∃ i, keepIndex? doomed i = some place ∧ (source, i) ∈ entries := by
  unfold follow
  rw [List.mem_filterMap]
  constructor
  · rintro ⟨⟨key, i⟩, hm, he⟩
    obtain ⟨kept, hk, he⟩ := Option.map_eq_some_iff.1 he
    cases he
    exact ⟨i, hk, hm⟩
  · rintro ⟨i, hk, hm⟩
    exact ⟨(source, i), hm, by simp [hk]⟩

theorem nodup_follow {entries : List (String × Nat)} (h : entries.Nodup) (doomed : List Nat) :
    (follow doomed entries).Nodup := by
  refine h.filterMap ?_
  rintro ⟨a, i⟩ ⟨b, j⟩ entry ha hb
  obtain ⟨kept, hi, rfl⟩ := Option.map_eq_some_iff.1 ha
  obtain ⟨other, hj, he⟩ := Option.map_eq_some_iff.1 hb
  obtain ⟨rfl, rfl⟩ := Prod.mk.inj he
  obtain rfl : i = j := keepIndex?_injective hi hj
  rfl

/-- What is declared under each name once the doomed records are gone. -/
theorem lookup_removeRecords (ho : registry.Ordered) (doomed : List Nat) (name : String) :
    (registry.removeRecords doomed).byDeclaredName.lookup name =
      ((registry.byDeclaredName.lookup name).map (follow doomed)).filter (!·.isEmpty) := by
  have hs := ho.byDeclaredName.map (follow doomed)
  rw [← Table.lookup_map]
  exact Table.lookup_filter hs (fun entry => !entry.2.isEmpty) name

theorem declarationsOf_removeRecords (ho : registry.Ordered) (doomed : List Nat) (name : String) :
    (registry.removeRecords doomed).declarationsOf name =
      follow doomed (registry.declarationsOf name) := by
  unfold declarationsOf
  rw [lookup_removeRecords ho]
  cases registry.byDeclaredName.lookup name with
  | none => rfl
  | some entries =>
    rw [Option.map_some, Option.filter_some]
    split
    · rfl
    · rename_i hempty
      simp only [Bool.not_eq_true, Bool.not_eq_false', List.isEmpty_iff] at hempty
      exact hempty.symm

theorem records_removeRecords (registry : Registry) (doomed : List Nat) :
    (registry.removeRecords doomed).records = survivors doomed registry.records := rfl

theorem carries_removeRecords {doomed : List Nat} {place : Nat} {alias_ : Alias} :
    (registry.removeRecords doomed).Carries place alias_ ↔
      ∃ i, keepIndex? doomed i = some place ∧ registry.Carries i alias_ := by
  unfold Carries
  simp only [records_removeRecords, getElem?_survivors]
  constructor
  · rintro ⟨record, ⟨i, hi, hr⟩, hm⟩
    exact ⟨i, hi, record, hr, hm⟩
  · rintro ⟨i, hi, record, hr, hm⟩
    exact ⟨record, ⟨i, hi, hr⟩, hm⟩

theorem consistent_removeRecords (h : registry.Consistent) (ho : registry.Ordered)
    (doomed : List Nat) : (registry.removeRecords doomed).Consistent := by
  have hmem : ∀ record ∈ (registry.removeRecords doomed).records, record ∈ registry.records :=
    fun record hm => mem_of_mem_survivors hm
  refine ⟨?_, ?_, ?_, ?_, ?_, ?_, ?_, ?_⟩
  · rw [hashes, records_removeRecords, ← survivors_map]
    exact h.byHash.follow ho.byHash doomed
  · rw [ids, records_removeRecords, ← survivors_map]
    exact h.byId.follow ho.byId doomed
  · rw [names, records_removeRecords, ← survivors_map]
    exact h.byGeneratedName.follow ho.byGeneratedName doomed
  · intro name source place
    rw [declarationsOf_removeRecords ho, mem_follow, carries_removeRecords]
    exact exists_congr fun i => and_congr_right fun _ => h.declared name source i
  · intro name
    rw [declarationsOf_removeRecords ho]
    exact nodup_follow (h.declarations_nodup name) doomed
  · exact fun record hm => h.aliases_nodup record (hmem record hm)
  · intro name hl
    rw [lookup_removeRecords ho] at hl
    have := (Option.filter_eq_some_iff.1 hl).2
    simp at this
  · exact fun record hm => h.described record (hmem record hm)

theorem ordered_removeRecords (h : registry.Ordered) (doomed : List Nat) :
    (registry.removeRecords doomed).Ordered :=
  ⟨h.byHash.filterMap _, h.byId.filterMap _, h.byGeneratedName.filterMap _,
    (h.byDeclaredName.map _).filter _⟩

end Registry

end UniformLayout
