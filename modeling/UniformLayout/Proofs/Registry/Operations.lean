import UniformLayout.Proofs.Registry.Consistency

/-!
# The operations keep the registry consistent

Every operation is a few steps that keep a registry consistent, so a well-formed registry stays one. The
only place where more is needed is the minting of an id: `HasFreeId` says that one of the candidates
for a hash is not in use.

* `wellFormed_register`, `wellFormed_rollBack`, `wellFormed_restore` and the three operations on
  generation: one statement for each operation.
* `begun_rollBack`: what has been begun survives every rollback.
-/

namespace UniformLayout.Registry

variable {registry : Registry}

/-- The indices are sorted tables that describe the records. -/
structure WellFormed (registry : Registry) : Prop where
  consistent : registry.Consistent
  ordered : registry.Ordered

theorem wellFormed_empty (suffixLength : Nat) : WellFormed { suffixLength } :=
  ⟨consistent_empty suffixLength, ordered_empty suffixLength⟩

theorem Consistent.getElem?_of_lookup_hash (h : registry.Consistent) {hash : String} {index : Nat}
    (hl : registry.byHash.lookup hash = some index) :
    ∃ record, registry.records[index]? = some record ∧ record.identity.contentHash = hash := by
  have hk := (h.byHash hash index).1 hl
  rw [hashes, List.getElem?_map, Option.map_eq_some_iff] at hk
  exact hk

/-! ## Generation -/

theorem wellFormed_beginGeneration (h : registry.WellFormed) (id : String) :
    (registry.beginGeneration id).2.WellFormed := by
  unfold beginGeneration
  split
  · exact h
  · rename_i index hl
    split
    · rename_i hp
      refine ⟨h.consistent.setRecord index (fun _ => rfl) (fun _ => rfl) ?_,
        ordered_setRecord h.ordered _ _⟩
      intro record hr
      have hd := h.consistent.described record (List.mem_of_getElem? hr)
      rw [hr, Option.any_some, beq_iff_eq] at hp
      rw [hp] at hd
      dsimp only
      rw [hd]
      simp
    · exact h

theorem wellFormed_completeGeneration (h : registry.WellFormed) (id : String)
    (descriptor : LayoutDescriptor) : (registry.completeGeneration id descriptor).WellFormed := by
  unfold completeGeneration
  split
  · exact h
  · refine ⟨h.consistent.setRecord _ (fun _ => rfl) (fun _ => rfl) ?_,
      ordered_setRecord h.ordered _ _⟩
    intro record hr
    exact iff_of_true rfl rfl

theorem wellFormed_abandonGeneration (h : registry.WellFormed) (id : String) :
    (registry.abandonGeneration id).WellFormed := by
  unfold abandonGeneration
  split
  · exact h
  · refine ⟨h.consistent.setRecord _ ?_ ?_ ?_, ordered_setRecord h.ordered _ _⟩
    · intro record
      split
      · rfl
      · rfl
    · intro record
      split
      · rfl
      · rfl
    · intro record hr
      have hd := h.consistent.described record (List.mem_of_getElem? hr)
      split
      · rename_i hs
        rw [hs] at hd
        dsimp only
        rw [hd]
        simp
      · exact hd

/-! ## Registering -/

/-- One of the ids that are tried for a hash is not in use. -/
def HasFreeId (registry : Registry) (hash : String) : Prop :=
  ∃ attempt < 1 <<< 32, registry.byId.lookup (candidateId hash attempt) = none

theorem freeId?_isSome {isKnown : String → Bool} {hash : String} {left attempt free : Nat}
    (ha : attempt ≤ free) (hl : free < attempt + left)
    (hf : isKnown (candidateId hash free) = false) :
    (freeId? isKnown hash left attempt).isSome := by
  induction left generalizing attempt with
  | zero => omega
  | succ left ih =>
    simp only [freeId?]
    split
    · rename_i hk
      apply ih
      · have hne : attempt ≠ free := by
          rintro rfl
          rw [hf] at hk
          cases hk
        omega
      · omega
    · rfl

/-- The id that is minted is new. -/
theorem lookup_mintId {hash : String} (h : registry.HasFreeId hash) :
    registry.byId.lookup (registry.mintId hash) = none := by
  obtain ⟨attempt, ha, hf⟩ := h
  have hsome : (freeId? (fun id => (registry.byId.lookup id).isSome) hash (1 <<< 32) 0).isSome := by
    apply freeId?_isSome (Nat.zero_le attempt)
    · omega
    · rw [hf]
      rfl
  obtain ⟨id, hid⟩ := Option.isSome_iff_exists.1 hsome
  have hfree := freeId?_not_known hid
  unfold mintId
  rw [hid]
  exact Option.isNone_iff_eq_none.1 (Option.isSome_eq_false_iff.1 hfree)

theorem lookup_mintName (declared id : String) :
    registry.byGeneratedName.lookup (registry.mintName declared id) = none :=
  Option.isNone_iff_eq_none.1 (isFreeName_mintName registry declared id)

/-- The identity that an unknown hash gets. -/
def mintIdentity (registry : Registry) (decl : TypeDeclaration) (hash : String) : TypeIdentity :=
  { contentHash := hash
    persistentId := registry.mintId hash
    generatedName := registry.mintName decl.name (registry.mintId hash) }

theorem register_of_lookup {decl : TypeDeclaration} {hash : String}
    {index : Nat} {record : Record} (hl : registry.byHash.lookup hash = some index)
    (hr : registry.records[index]? = some record) :
    registry.register decl hash =
      (⟨record.identity, false,
          if registry.hasAlias index (aliasOf decl) then none else some (aliasOf decl)⟩,
        registry.addAlias index (aliasOf decl)) := by
  simp [register, hl, recordAt?, hr]

theorem register_of_unknown {decl : TypeDeclaration} {hash : String}
    (hl : registry.byHash.lookup hash = none) :
    registry.register decl hash =
      (⟨registry.mintIdentity decl hash, true, some (aliasOf decl)⟩,
        (registry.addRecord (registry.mintIdentity decl hash)).addAlias registry.records.length
          (aliasOf decl)) := by
  simp [register, hl, mintIdentity]

theorem wellFormed_addAlias (h : registry.WellFormed) {index : Nat} (alias_ : Alias)
    (hi : index < registry.records.length) : (registry.addAlias index alias_).WellFormed :=
  ⟨consistent_addAlias h.consistent alias_ hi, ordered_addAlias h.ordered index alias_⟩

theorem length_addRecord (identity : TypeIdentity) :
    (registry.addRecord identity).records.length = registry.records.length + 1 :=
  List.length_append

theorem wellFormed_register (h : registry.WellFormed) (decl : TypeDeclaration) {hash : String}
    (hf : registry.byHash.lookup hash = none → registry.HasFreeId hash) :
    (registry.register decl hash).2.WellFormed := by
  cases hl : registry.byHash.lookup hash with
  | none =>
    rw [register_of_unknown hl]
    apply wellFormed_addAlias
    · have hnew : registry.byId.lookup (registry.mintId hash) = none := lookup_mintId (hf hl)
      exact ⟨consistent_addRecord h.consistent hl hnew (lookup_mintName _ _),
        ordered_addRecord h.ordered _⟩
    · rw [length_addRecord]
      exact Nat.lt_succ_self _
  | some index =>
    obtain ⟨record, hr, -⟩ := h.consistent.getElem?_of_lookup_hash hl
    rw [register_of_lookup hl hr]
    exact wellFormed_addAlias h _ (List.getElem?_eq_some_iff.1 hr).1

/-! ## Rolling back -/

theorem wellFormed_undoAlias (h : registry.WellFormed) (registration : Registration) :
    (registry.undoAlias registration).WellFormed := by
  unfold undoAlias
  split
  · exact ⟨consistent_removeAlias h.consistent h.ordered _ _, ordered_removeAlias h.ordered _ _⟩
  · exact h

/-- Undoing aliases one after the other. -/
theorem undoAliases_induction {P : Registry → Prop} (picks : List Registration)
    (hp : P registry) (hs : ∀ registry registration, P registry →
      P (undoAlias registry registration)) : P (picks.foldl undoAlias registry) := by
  induction picks generalizing registry with
  | nil => exact hp
  | cons pick rest ih => exact ih (hs registry pick hp)

theorem wellFormed_undoAliases (h : registry.WellFormed) (picks : List Registration) :
    (picks.foldl undoAlias registry).WellFormed :=
  undoAliases_induction picks h fun _ registration hr => wellFormed_undoAlias hr registration

theorem wellFormed_rollBack (h : registry.WellFormed) (picks : List Registration) :
    (registry.rollBack picks).WellFormed := by
  have hu := wellFormed_undoAliases h picks.reverse
  unfold rollBack
  dsimp only
  split
  · exact hu
  · exact ⟨consistent_removeRecords hu.consistent hu.ordered _, ordered_removeRecords hu.ordered _⟩

/-- What a record has beside its aliases. -/
def core (record : Record) : TypeIdentity × GenerationState × Option LayoutDescriptor :=
  (record.identity, record.state, record.descriptor)

/-- What the records have beside their aliases, in order. -/
def cores (registry : Registry) :
    List (TypeIdentity × GenerationState × Option LayoutDescriptor) :=
  registry.records.map core

/-- The records whose host types have been begun, in order and without their aliases. -/
def begun (registry : Registry) :
    List (TypeIdentity × GenerationState × Option LayoutDescriptor) :=
  registry.cores.filter (·.2.1 != .pending)

theorem length_cores (registry : Registry) : registry.cores.length = registry.records.length :=
  List.length_map _

theorem cores_undoAlias (registry : Registry) (registration : Registration) :
    (registry.undoAlias registration).cores = registry.cores := by
  unfold undoAlias
  split
  · exact map_setRecord _ fun _ => rfl
  · rfl

theorem cores_undoAliases (registry : Registry) (picks : List Registration) :
    (picks.foldl undoAlias registry).cores = registry.cores :=
  undoAliases_induction (P := fun after => after.cores = registry.cores) picks rfl
    fun after registration hr => (cores_undoAlias after registration).trans hr

theorem pending_of_doomedBy? {registration : Registration} {index : Nat}
    (h : registry.doomedBy? registration = some index) :
    ∃ record, registry.records[index]? = some record ∧ record.state = .pending ∧
      record.declared = [] ∧ registration.minted = true ∧
      registry.byId.lookup registration.identity.persistentId = some index := by
  simp only [doomedBy?, Option.bind_eq_bind, Option.bind_eq_some_iff] at h
  obtain ⟨i, hl, record, hr, h⟩ := h
  split at h
  · rename_i hc
    obtain rfl := Option.some.inj h
    simp only [Bool.and_eq_true, beq_iff_eq, List.isEmpty_iff] at hc
    exact ⟨record, hr, hc.1.2, hc.2, hc.1.1, hl⟩
  · cases h

/-- A rollback removes no record whose host type has been begun. -/
theorem begun_rollBack (registry : Registry) (picks : List Registration) :
    (registry.rollBack picks).begun = registry.begun := by
  have hu := cores_undoAliases registry picks.reverse
  unfold rollBack begun
  dsimp only
  rw [← hu]
  split
  · rfl
  · unfold cores
    rw [records_removeRecords, ← survivors_map]
    apply filter_survivors
    intro index hm entry hentry
    obtain ⟨registration, -, hd⟩ := List.mem_filterMap.1 hm
    obtain ⟨record, hr, hs, -⟩ := pending_of_doomedBy? hd
    rw [List.getElem?_map, hr] at hentry
    obtain rfl := Option.some.inj hentry
    unfold core
    rw [hs]
    rfl

/-! ## Restoring -/

theorem length_addAlias (index : Nat) (alias_ : Alias) :
    (registry.addAlias index alias_).records.length = registry.records.length := by
  unfold addAlias
  split
  · rfl
  · exact setRecord_length registry index _

theorem wellFormed_addAliases (h : registry.WellFormed) {index : Nat} (aliases : List Alias)
    (hi : index < registry.records.length) :
    (aliases.foldl (·.addAlias index ·) registry).WellFormed := by
  induction aliases generalizing registry with
  | nil => exact h
  | cons alias_ rest ih =>
    apply ih (wellFormed_addAlias h alias_ hi)
    rwa [length_addAlias]

theorem wellFormed_restoreEntry (h : registry.WellFormed) (entry : SnapshotEntry) :
    (registry.restoreEntry entry).WellFormed := by
  unfold restoreEntry
  split
  · exact h
  · rename_i hk
    simp only [knows, Bool.or_eq_true, not_or, Bool.not_eq_true, Option.isSome_eq_false_iff,
      Option.isNone_iff_eq_none] at hk
    obtain ⟨⟨hhash, hid⟩, hname⟩ := hk
    apply wellFormed_addAliases
    · exact ⟨consistent_addRecord h.consistent hhash hid hname, ordered_addRecord h.ordered _⟩
    · rw [length_addRecord]
      exact Nat.lt_succ_self _

theorem wellFormed_restore (h : registry.WellFormed) (kept : Snapshot) :
    (registry.restore kept).WellFormed := by
  unfold restore
  induction kept generalizing registry with
  | nil => exact h
  | cons entry rest ih => exact ih (wellFormed_restoreEntry h entry)

end UniformLayout.Registry
