import UniformLayout.Proofs.Registry.Isolation

/-!
# Registries that have grown

`Extends` says that a registry has all that an earlier one has, in front and unchanged. Registering
keeps it, and so does a rollback of what was registered since. `Declares` names a record by its
identity, so that it can be followed while the positions move.

* `extends_register`, `extends_rollBack`: the two operations.
* `declares_register`, `declares_rollBack`: which aliases come and go with them.

Main statements: `Extends.records_prefix` and `Extends.byDeclaredName_eq`, for a registry that has
no alias beyond those of the start, and `eq_of_records_eq`.
-/

namespace UniformLayout.Registry

/-- All that the registry had at the start is there: the records, their aliases, and the
declarations of every name come first, in the same order. -/
structure Extends (start now : Registry) : Prop where
  suffixLength : now.suffixLength = start.suffixLength
  cores : start.cores <+: now.cores
  declarations : ∀ name, start.declarationsOf name <+: now.declarationsOf name
  aliases : ∀ index, start.aliasesAt index <+: now.aliasesAt index

variable {start now : Registry}

theorem Extends.refl (start : Registry) : start.Extends start :=
  ⟨rfl, List.prefix_refl _, fun _ => List.prefix_refl _, fun _ => List.prefix_refl _⟩

theorem aliasesAt_addAlias {registry : Registry} {index : Nat} {alias_ : Alias}
    (hn : registry.hasAlias index alias_ = false) (hi : index < registry.records.length) (i : Nat) :
    (registry.addAlias index alias_).aliasesAt i =
      if index = i then registry.aliasesAt i ++ [alias_] else registry.aliasesAt i := by
  rw [addAlias_of_new hn]
  exact aliasesAt_setRecord registry i (· ++ [alias_]) (fun _ => rfl) (Or.inl hi)

theorem aliasesAt_removeAlias (registry : Registry) (index : Nat) (alias_ : Alias) (i : Nat) :
    (registry.removeAlias index alias_).aliasesAt i =
      if index = i then (registry.aliasesAt i).filter (· != alias_) else registry.aliasesAt i :=
  aliasesAt_setRecord registry i (·.filter (· != alias_)) (fun _ => rfl) (Or.inr rfl)

theorem extends_addAlias (h : start.Extends now) {index : Nat} (alias_ : Alias)
    (hi : index < now.records.length) : start.Extends (now.addAlias index alias_) := by
  refine ⟨?_, ?_, fun name => ?_, fun i => ?_⟩
  · rw [← h.suffixLength]
    unfold addAlias
    split
    · rfl
    · rfl
  · rw [cores_addAlias]
    exact h.cores
  · obtain ⟨more, hm⟩ := declarationsOf_addAlias now index alias_ name
    rw [hm]
    exact (h.declarations name).trans (List.prefix_append _ _)
  · cases hn : now.hasAlias index alias_ with
    | true =>
      rw [addAlias, if_pos hn]
      exact h.aliases i
    | false =>
      rw [aliasesAt_addAlias hn hi]
      split
      · exact (h.aliases i).trans (List.prefix_append _ _)
      · exact h.aliases i

theorem extends_addRecord (h : start.Extends now) (identity : TypeIdentity) :
    start.Extends (now.addRecord identity) := by
  refine ⟨h.suffixLength, ?_, h.declarations, fun i => ?_⟩
  · have hcores : (now.addRecord identity).cores = now.cores ++ [(identity, .pending, none)] :=
      List.map_append
    rw [hcores]
    exact h.cores.trans (List.prefix_append _ _)
  · rw [(sameAliases_addRecord now identity).aliasesAt]
    exact h.aliases i

theorem extends_register (h : start.Extends now) (hwf : now.WellFormed) (decl : TypeDeclaration)
    (hash : String) : start.Extends (now.register decl hash).2 := by
  cases hl : now.byHash.lookup hash with
  | none =>
    rw [register_of_unknown hl]
    apply extends_addAlias (extends_addRecord h _)
    rw [length_addRecord]
    exact Nat.lt_succ_self _
  | some index =>
    obtain ⟨record, hr, -⟩ := hwf.consistent.getElem?_of_lookup_hash hl
    rw [register_of_lookup hl hr]
    exact extends_addAlias h _ (List.getElem?_eq_some_iff.1 hr).1

theorem getElem?_of_front {α : Type} {front list : List α} (h : front <+: list) {i : Nat} {a : α}
    (ha : front[i]? = some a) : list[i]? = some a := by
  obtain ⟨rest, rfl⟩ := h
  rw [List.getElem?_append_left (List.getElem?_eq_some_iff.1 ha).1, ha]

/-- A filter that drops nothing of a list keeps it in front. -/
theorem prefix_filter {α : Type} {front list : List α} {keep : α → Bool} (h : front <+: list)
    (hk : ∀ a ∈ front, keep a = true) : front <+: list.filter keep := by
  have := h.filter keep
  rwa [List.filter_eq_self.2 hk] at this

/-- Taking back an alias that the start does not have. -/
theorem extends_undoAlias (h : start.Extends now) (hs : start.Consistent) (ho : now.Ordered)
    {registration : Registration} (hr : ∀ alias_ index, registration.added = some alias_ →
      now.byId.lookup registration.identity.persistentId = some index →
        ¬ start.Carries index alias_) :
    start.Extends (now.undoAlias registration) := by
  have hcores := cores_undoAlias now registration
  unfold undoAlias at hcores ⊢
  split
  · rename_i alias_ index ha hi
    rw [ha, hi] at hcores
    have hfree := hr alias_ index ha hi
    refine ⟨h.suffixLength, ?_, fun name => ?_, fun i => ?_⟩
    · rw [hcores]
      exact h.cores
    · rw [declarationsOf_removeAlias ho]
      split
      · rename_i he
        subst he
        refine prefix_filter (h.declarations _) fun entry hm => bne_iff_ne.2 ?_
        rintro rfl
        exact hfree ((hs.declared _ _ _).1 hm)
      · exact h.declarations name
    · rw [aliasesAt_removeAlias]
      split
      · rename_i he
        subst he
        refine prefix_filter (h.aliases _) fun known hm => bne_iff_ne.2 ?_
        rintro rfl
        exact hfree (mem_aliasesAt_iff.1 hm)
      · exact h.aliases i
  · exact h

theorem extends_undoAliases (h : start.Extends now) (hs : start.Consistent) (hwf : now.WellFormed)
    {picks : List Registration} (hr : ∀ pick ∈ picks, ∀ alias_ index, pick.added = some alias_ →
      now.byId.lookup pick.identity.persistentId = some index → ¬ start.Carries index alias_) :
    start.Extends (picks.foldl undoAlias now) := by
  induction picks generalizing now with
  | nil => exact h
  | cons pick rest ih =>
    obtain ⟨hpick, hrest⟩ := List.forall_mem_cons.1 hr
    refine ih (extends_undoAlias h hs hwf.ordered hpick) (wellFormed_undoAlias hwf pick) ?_
    rw [byId_undoAlias]
    exact hrest

/-- Records that are removed from behind a list leave it in front. -/
theorem prefix_survivors {α : Type} {front list : List α} {doomed : List Nat} (h : front <+: list)
    (hd : ∀ i ∈ doomed, front.length ≤ i) : front <+: survivors doomed list := by
  rw [List.prefix_iff_getElem?] at h ⊢
  intro i hi
  refine getElem?_survivors.2 ⟨i, keepIndex?_eq_self fun j hj => ?_, h i hi⟩
  exact Nat.lt_of_lt_of_le hi (hd j hj)

/-- Removing records that the start does not have. -/
theorem extends_removeRecords (h : start.Extends now) (hs : start.Consistent) (ho : now.Ordered)
    {doomed : List Nat} (hd : ∀ i ∈ doomed, start.records.length ≤ i) :
    start.Extends (now.removeRecords doomed) := by
  have hself : ∀ i < start.records.length, keepIndex? doomed i = some i := fun i hi =>
    keepIndex?_eq_self fun j hj => Nat.lt_of_lt_of_le hi (hd j hj)
  refine ⟨h.suffixLength, ?_, fun name => ?_, fun i => ?_⟩
  · have hcores : (now.removeRecords doomed).cores = survivors doomed now.cores := by
      rw [cores, records_removeRecords, cores, survivors_map]
    rw [hcores]
    exact prefix_survivors h.cores (by rwa [length_cores])
  · have hstay : follow doomed (start.declarationsOf name) = start.declarationsOf name := by
      unfold follow
      rw [List.filterMap_congr (g := some), List.filterMap_some]
      rintro ⟨source, i⟩ hm
      obtain ⟨record, hr, -⟩ := (hs.declared name source i).1 hm
      rw [hself i (List.getElem?_eq_some_iff.1 hr).1]
      rfl
    rw [declarationsOf_removeRecords ho, ← hstay]
    exact (h.declarations name).filterMap _
  · rcases Nat.lt_or_ge i start.records.length with hi | hi
    · have hlt : i < now.records.length := by
        have := h.cores.length_le
        rw [length_cores, length_cores] at this
        omega
      have hat : (now.removeRecords doomed).aliasesAt i = now.aliasesAt i := by
        have hrecord := List.getElem?_eq_getElem hlt
        unfold aliasesAt
        rw [records_removeRecords, getElem?_survivors.2 ⟨i, hself i hi, hrecord⟩, hrecord]
      rw [hat]
      exact h.aliases i
    · rw [aliasesAt_of_length_le hi]
      exact List.nil_prefix

/-- Rolling back registrations that have added nothing to what the start has, and minted none of its
records. -/
theorem extends_rollBack (h : start.Extends now) (hs : start.Consistent) (hwf : now.WellFormed)
    {picks : List Registration}
    (hadded : ∀ pick ∈ picks, ∀ alias_ index, pick.added = some alias_ →
      now.byId.lookup pick.identity.persistentId = some index → ¬ start.Carries index alias_)
    (hminted : ∀ pick ∈ picks, pick.minted = true → ∀ index,
      now.byId.lookup pick.identity.persistentId = some index → start.records.length ≤ index) :
    start.Extends (now.rollBack picks) := by
  have hundone := extends_undoAliases h hs hwf fun pick hp => hadded pick (List.mem_reverse.1 hp)
  have hmid := wellFormed_undoAliases hwf picks.reverse
  unfold rollBack
  dsimp only
  split
  · exact hundone
  · refine extends_removeRecords hundone hs hmid.ordered fun i hi => ?_
    obtain ⟨pick, hp, hd⟩ := List.mem_filterMap.1 hi
    obtain ⟨-, -, -, -, hm, hl⟩ := pending_of_doomedBy? hd
    rw [byId_undoAliases] at hl
    exact hminted pick hp hm i hl

theorem core_mem_of_mem_rollBack {picks : List Registration} {record : Record}
    (h : record ∈ (now.rollBack picks).records) : core record ∈ now.cores := by
  obtain ⟨place, hr⟩ := List.mem_iff_getElem?.1 h
  obtain ⟨i, -, hr⟩ := (getElem?_rollBack now picks).1 hr
  rw [← cores_undoAliases now picks.reverse]
  exact List.mem_map_of_mem (List.mem_of_getElem? hr)

theorem doomedBy?_eq_some {registry : Registry} {registration : Registration} {index : Nat}
    {record : Record} (hm : registration.minted = true)
    (hl : registry.byId.lookup registration.identity.persistentId = some index)
    (hr : registry.records[index]? = some record) (hs : record.state = .pending)
    (hd : record.declared = []) : registry.doomedBy? registration = some index := by
  simp [doomedBy?, hm, hl, hr, hs, hd]

/-- What a rollback removes was minted by one of its registrations. -/
theorem minted_of_removed {picks : List Registration} {index : Nat} {identity : TypeIdentity}
    (h : (now.records[index]?).map Record.identity = some identity)
    (hn : identity ∉ (now.rollBack picks).identities) :
    ∃ pick ∈ picks, pick.minted = true ∧
      now.byId.lookup pick.identity.persistentId = some index := by
  rw [← identities_of_cores (cores_undoAliases now picks.reverse)] at h
  obtain ⟨record, hr, rfl⟩ := Option.map_eq_some_iff.1 h
  have hdoomed : index ∈ picks.filterMap (picks.reverse.foldl undoAlias now).doomedBy? := by
    by_contra hkept
    have hkeep := keepIndex?_eq_some_iff.2 ⟨hkept, rfl⟩
    have hstays := (getElem?_rollBack now picks).2 ⟨index, hkeep, hr⟩
    exact hn (List.mem_map_of_mem (List.mem_of_getElem? hstays))
  obtain ⟨pick, hp, hd⟩ := List.mem_filterMap.1 hdoomed
  obtain ⟨-, -, -, -, hm, hl⟩ := pending_of_doomedBy? hd
  rw [byId_undoAliases] at hl
  exact ⟨pick, hp, hm, hl⟩

/-! ## Aliases by identity -/

/-- A record with the identity has the alias. -/
def Declares (registry : Registry) (identity : TypeIdentity) (alias_ : Alias) : Prop :=
  ∃ index, (registry.records[index]?).map Record.identity = some identity ∧
    registry.Carries index alias_

section

variable {registry : Registry} {identity : TypeIdentity} {alias_ : Alias}

theorem mem_identities_iff : identity ∈ registry.identities ↔
    ∃ index : Nat, (registry.records[index]?).map Record.identity = some identity := by
  rw [identities, List.mem_iff_getElem?]
  simp only [List.getElem?_map]

theorem Declares.mem_identities (h : registry.Declares identity alias_) :
    identity ∈ registry.identities :=
  mem_identities_iff.2 (h.imp fun _ => And.left)

theorem declares_addAlias {index : Nat} {added : Alias} (hi : index < registry.records.length)
    (h : (registry.addAlias index added).Declares identity alias_) :
    registry.Declares identity alias_ ∨
      registry.hasAlias index added = false ∧ alias_ = added ∧
        (registry.records[index]?).map Record.identity = some identity := by
  cases hn : registry.hasAlias index added with
  | true =>
    rw [addAlias, if_pos hn] at h
    exact Or.inl h
  | false =>
    obtain ⟨i, he, hc⟩ := h
    rw [identities_of_cores (cores_addAlias registry index added)] at he
    rw [← mem_aliasesAt_iff, aliasesAt_addAlias hn hi] at hc
    split at hc
    · rename_i hindex
      subst hindex
      rcases List.mem_append.1 hc with hc | hc
      · exact Or.inl ⟨index, he, mem_aliasesAt_iff.1 hc⟩
      · exact Or.inr ⟨rfl, List.mem_singleton.1 hc, he⟩
    · exact Or.inl ⟨i, he, mem_aliasesAt_iff.1 hc⟩

theorem declares_addRecord {other : TypeIdentity}
    (h : (registry.addRecord other).Declares identity alias_) :
    registry.Declares identity alias_ := by
  obtain ⟨i, he, hc⟩ := h
  rw [← mem_aliasesAt_iff, (sameAliases_addRecord registry other).aliasesAt,
    mem_aliasesAt_iff] at hc
  obtain ⟨record, hr, -⟩ := id hc
  have hlt := (List.getElem?_eq_some_iff.1 hr).1
  rw [show (registry.addRecord other).records[i]? = registry.records[i]? from
    List.getElem?_append_left hlt] at he
  exact ⟨i, he, hc⟩

/-- The only alias that comes with a registration is the one that it adds. -/
theorem declares_register (h : registry.WellFormed) {decl : TypeDeclaration} {hash : String}
    (hd : (registry.register decl hash).2.Declares identity alias_) :
    registry.Declares identity alias_ ∨
      (registry.register decl hash).1.added = some alias_ ∧
        (registry.register decl hash).1.identity = identity := by
  cases hl : registry.byHash.lookup hash with
  | none =>
    rw [register_of_unknown hl] at hd ⊢
    have hlt : registry.records.length <
        (registry.addRecord (registry.mintIdentity decl hash)).records.length := by
      rw [length_addRecord]
      exact Nat.lt_succ_self _
    rcases declares_addAlias hlt hd with hd | ⟨-, rfl, he⟩
    · exact Or.inl (declares_addRecord hd)
    · refine Or.inr ⟨rfl, ?_⟩
      rw [show (registry.addRecord (registry.mintIdentity decl hash)).records[
        registry.records.length]? = some { identity := registry.mintIdentity decl hash } from
          List.getElem?_concat_length] at he
      exact Option.some.inj he
  | some index =>
    obtain ⟨record, hr, -⟩ := h.consistent.getElem?_of_lookup_hash hl
    rw [register_of_lookup hl hr] at hd ⊢
    rcases declares_addAlias (List.getElem?_eq_some_iff.1 hr).1 hd with hd | ⟨hn, rfl, he⟩
    · exact Or.inl hd
    · rw [hr] at he
      exact Or.inr ⟨by rw [hn]; rfl, Option.some.inj he⟩

theorem lookup_id_of_identity (h : registry.Consistent) {index : Nat}
    (he : (registry.records[index]?).map Record.identity = some identity) :
    registry.byId.lookup identity.persistentId = some index := by
  obtain ⟨record, hr, rfl⟩ := Option.map_eq_some_iff.1 he
  rw [h.byId, ids, List.getElem?_map, hr]
  rfl

theorem declares_undoAlias (h : registry.Consistent) {registration : Registration}
    (hd : (registry.undoAlias registration).Declares identity alias_) :
    registry.Declares identity alias_ ∧
      (registration.added = some alias_ → registration.identity ≠ identity) := by
  obtain ⟨i, he, hc⟩ := hd
  rw [identities_of_cores (cores_undoAlias registry registration)] at he
  have hi := lookup_id_of_identity h he
  unfold undoAlias at hc
  split at hc
  · rename_i added index ha hindex
    rw [← mem_aliasesAt_iff, aliasesAt_removeAlias] at hc
    split at hc
    · obtain ⟨hc, hne⟩ := List.mem_filter.1 hc
      refine ⟨⟨i, he, mem_aliasesAt_iff.1 hc⟩, fun hadded => ?_⟩
      rw [Option.some.inj (hadded.symm.trans ha), bne_self_eq_false] at hne
      cases hne
    · rename_i hne
      refine ⟨⟨i, he, mem_aliasesAt_iff.1 hc⟩, ?_⟩
      rintro - rfl
      exact hne (Option.some.inj (hindex.symm.trans hi))
  · rename_i hnone
    refine ⟨⟨i, he, hc⟩, ?_⟩
    rintro ha rfl
    exact hnone _ _ ha hi

theorem declares_undoAliases (h : registry.WellFormed) {picks : List Registration}
    (hd : (picks.foldl undoAlias registry).Declares identity alias_) :
    registry.Declares identity alias_ ∧
      ∀ pick ∈ picks, pick.added = some alias_ → pick.identity ≠ identity := by
  induction picks generalizing registry with
  | nil => exact ⟨hd, fun _ hm => absurd hm List.not_mem_nil⟩
  | cons pick rest ih =>
    obtain ⟨hrest, hothers⟩ := ih (wellFormed_undoAlias h pick) hd
    obtain ⟨hfirst, hpick⟩ := declares_undoAlias h.consistent hrest
    exact ⟨hfirst, List.forall_mem_cons.2 ⟨hpick, hothers⟩⟩

theorem declares_removeRecords {doomed : List Nat}
    (h : (registry.removeRecords doomed).Declares identity alias_) :
    registry.Declares identity alias_ := by
  obtain ⟨place, he, hc⟩ := h
  obtain ⟨i, hi, hc⟩ := carries_removeRecords.1 hc
  obtain ⟨record, hr, rfl⟩ := Option.map_eq_some_iff.1 he
  obtain ⟨j, hj, hr⟩ := getElem?_survivors.1 hr
  obtain rfl := keepIndex?_injective hi hj
  exact ⟨i, by rw [hr]; rfl, hc⟩

/-- A rollback takes back what its registrations have added. -/
theorem declares_rollBack (h : registry.WellFormed) {picks : List Registration}
    (hd : (registry.rollBack picks).Declares identity alias_) :
    registry.Declares identity alias_ ∧
      ∀ pick ∈ picks, pick.added = some alias_ → pick.identity ≠ identity := by
  have hmid : (picks.reverse.foldl undoAlias registry).Declares identity alias_ := by
    unfold rollBack at hd
    dsimp only at hd
    split at hd
    · exact hd
    · exact declares_removeRecords hd
  obtain ⟨hb, hp⟩ := declares_undoAliases h hmid
  exact ⟨hb, fun pick hm => hp pick (List.mem_reverse.2 hm)⟩

/-! ## Identities -/

theorem map_fst_cores (registry : Registry) : registry.cores.map Prod.fst = registry.identities :=
  List.map_map

theorem identities_register (h : registry.WellFormed) (decl : TypeDeclaration) {hash : String}
    (hf : registry.byHash.lookup hash = none → registry.HasFreeId hash) :
    (registry.register decl hash).2.identities = registry.identities ++
      if (registry.register decl hash).1.minted then [(registry.register decl hash).1.identity]
      else [] := by
  obtain ⟨index, hr⟩ := register_spec h decl hf
  rw [← map_fst_cores, ← map_fst_cores, hr.cores, List.map_append]
  split
  · rfl
  · rfl

theorem identities_nodup (h : registry.Consistent) : registry.identities.Nodup := by
  have hids : (registry.identities.map TypeIdentity.persistentId).Nodup := by
    rw [identities, List.map_map]
    exact h.byId.nodup
  exact hids.of_map _

/-- What a registration mints is new, and known under an alias. -/
theorem minted_register (h : registry.WellFormed) (decl : TypeDeclaration) {hash : String}
    (hf : registry.byHash.lookup hash = none → registry.HasFreeId hash)
    (hm : (registry.register decl hash).1.minted = true) :
    (registry.register decl hash).1.identity ∉ registry.identities ∧
      (registry.register decl hash).1.added.isSome := by
  constructor
  · have hnodup := identities_nodup (wellFormed_register h decl hf).consistent
    rw [identities_register h decl hf, if_pos hm] at hnodup
    intro hin
    exact (List.nodup_append.1 hnodup).2.2 _ hin _ List.mem_cons_self rfl
  · cases hl : registry.byHash.lookup hash with
    | none =>
      rw [register_of_unknown hl]
      rfl
    | some index =>
      obtain ⟨record, hr, -⟩ := h.consistent.getElem?_of_lookup_hash hl
      rw [register_of_lookup hl hr] at hm
      cases hm

theorem Extends.identities (h : start.Extends now) : start.identities <+: now.identities := by
  rw [← map_fst_cores, ← map_fst_cores]
  exact h.cores.map Prod.fst

theorem Extends.declares (h : start.Extends now) (hd : start.Declares identity alias_) :
    now.Declares identity alias_ := by
  obtain ⟨index, he, hc⟩ := hd
  refine ⟨index, ?_, mem_aliasesAt_iff.1 ((h.aliases index).subset (mem_aliasesAt_iff.2 hc))⟩
  rw [← List.getElem?_map] at he ⊢
  exact getElem?_of_front h.identities he

end

/-! ## Nothing but records without aliases -/

/-- A list that comes first in one without repetitions, and has all its entries, is this list. -/
theorem eq_of_prefix_of_subset {α : Type} {front list : List α} (h : front <+: list)
    (hn : list.Nodup) (hs : list ⊆ front) : list = front := by
  obtain ⟨rest, rfl⟩ := h
  have hnil : rest = [] := List.eq_nil_iff_forall_not_mem.2 fun a ha =>
    (List.nodup_append.1 hn).2.2 a (hs (List.mem_append_right _ ha)) a ha rfl
  rw [hnil, List.append_nil]

theorem aliasesAt_nodup {registry : Registry} (h : registry.Consistent) (index : Nat) :
    (registry.aliasesAt index).Nodup := by
  unfold aliasesAt
  cases hr : registry.records[index]? with
  | none => exact List.nodup_nil
  | some record => exact h.aliases_nodup record (List.mem_of_getElem? hr)

/-- Where no alias is new, every record has the aliases that it had. -/
theorem Extends.aliasesAt_eq (h : start.Extends now) (hn : now.Consistent)
    (hd : ∀ identity alias_, now.Declares identity alias_ → start.Declares identity alias_)
    (index : Nat) : now.aliasesAt index = start.aliasesAt index := by
  refine eq_of_prefix_of_subset (h.aliases index) (aliasesAt_nodup hn index) fun alias_ ha => ?_
  obtain ⟨record, hr, -⟩ := id (mem_aliasesAt_iff.1 ha)
  have he : (now.records[index]?).map Record.identity = some record.identity := by
    rw [hr, Option.map_some]
  obtain ⟨i, hi, hc⟩ := hd _ alias_ ⟨index, he, mem_aliasesAt_iff.1 ha⟩
  rw [← List.getElem?_map] at hi
  have hnow := lookup_id_of_identity hn
    (List.getElem?_map.symm.trans (getElem?_of_front h.identities hi))
  obtain rfl := Option.some.inj (hnow.symm.trans (lookup_id_of_identity hn he))
  exact mem_aliasesAt_iff.2 hc

/-- The aliases by record determine those by name. -/
theorem Extends.byDeclaredName_eq (h : start.Extends now) (hs : start.WellFormed)
    (hn : now.WellFormed) (ha : ∀ index, now.aliasesAt index = start.aliasesAt index) :
    now.byDeclaredName = start.byDeclaredName := by
  refine Table.Sorted.ext hn.ordered.byDeclaredName hs.ordered.byDeclaredName fun name => ?_
  have hentries : now.declarationsOf name = start.declarationsOf name := by
    refine eq_of_prefix_of_subset (h.declarations name) (hn.consistent.declarations_nodup name) ?_
    rintro ⟨source, index⟩ hm
    have hc := mem_aliasesAt_iff.2 ((hn.consistent.declared _ _ _).1 hm)
    rw [ha] at hc
    exact (hs.consistent.declared _ _ _).2 (mem_aliasesAt_iff.1 hc)
  have hnow := hn.consistent.no_empty name
  have hstart := hs.consistent.no_empty name
  unfold declarationsOf at hentries
  generalize now.byDeclaredName.lookup name = a at hentries hnow ⊢
  generalize start.byDeclaredName.lookup name = b at hentries hstart ⊢
  cases a <;> cases b <;> simp_all

theorem record_ext {a b : Record} (hc : core a = core b) (hd : a.declared = b.declared) :
    a = b := by
  obtain ⟨identity, declared, state, descriptor⟩ := a
  obtain ⟨identity', declared', state', descriptor'⟩ := b
  unfold core at hc
  simp_all

/-- The records of the start come first, as they were. -/
theorem Extends.records_prefix (h : start.Extends now)
    (ha : ∀ index, now.aliasesAt index = start.aliasesAt index) :
    start.records <+: now.records := by
  refine List.prefix_iff_getElem?.2 fun i hi => ?_
  have hstart := List.getElem?_eq_getElem hi
  have hcore : start.cores[i]? = some (core start.records[i]) :=
    List.getElem?_map.trans (congrArg (Option.map core) hstart)
  obtain ⟨record, hr, hc⟩ := Option.map_eq_some_iff.1
    (List.getElem?_map.symm.trans (getElem?_of_front h.cores hcore))
  have haliases := ha i
  unfold aliasesAt at haliases
  rw [hr, hstart] at haliases
  rw [hr, record_ext hc haliases]

theorem eq_of_indexes {a b : Table String Nat} {keys : List String} (ha : Indexes a keys)
    (hb : Indexes b keys) (hsa : a.Sorted) (hsb : b.Sorted) : a = b := by
  refine hsa.ext hsb fun key => Option.ext fun i => ?_
  exact (ha key i).trans (hb key i).symm

/-- The records and the aliases by name determine the registry. -/
theorem eq_of_records_eq (hs : start.WellFormed) (hn : now.WellFormed)
    (hl : now.suffixLength = start.suffixLength) (hr : now.records = start.records)
    (hd : now.byDeclaredName = start.byDeclaredName) : now = start := by
  have hhash := hn.consistent.byHash
  have hid := hn.consistent.byId
  have hname := hn.consistent.byGeneratedName
  unfold hashes at hhash
  unfold ids at hid
  unfold names at hname
  rw [hr] at hhash hid hname
  have hbyHash := eq_of_indexes hhash hs.consistent.byHash hn.ordered.byHash hs.ordered.byHash
  have hbyId := eq_of_indexes hid hs.consistent.byId hn.ordered.byId hs.ordered.byId
  have hbyName := eq_of_indexes hname hs.consistent.byGeneratedName hn.ordered.byGeneratedName
    hs.ordered.byGeneratedName
  cases now
  cases start
  simp_all

end UniformLayout.Registry
