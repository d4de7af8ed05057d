import UniformLayout.Proofs.Compilation.Settled
import UniformLayout.Proofs.Registry.Extension

/-!
# Claims on records

`Registry.begun` lists what has been claimed or written. Here is what each operation on generation
does to that list when the identity in question is in the registry; all other operations leave it as
it is.

* `mem_begun_setRecord`: a change of one record.
* `mem_begun_beginGeneration`, `begun_of_refused`: a claim is granted, or refused for a known type.
* `mem_begun_completeGeneration`, `mem_begun_abandonGeneration`: the two ways to end it.
-/

namespace UniformLayout.Registry

variable {registry : Registry} {identity : TypeIdentity}

/-- The type has been claimed or written. -/
def IsBegun (registry : Registry) (identity : TypeIdentity) : Prop :=
  ∃ state descriptor?, (identity, state, descriptor?) ∈ registry.begun

theorem index_of_begun {state : GenerationState} {descriptor? : Option LayoutDescriptor}
    (h : registry.Consistent) (hm : (identity, state, descriptor?) ∈ registry.begun) :
    ∃ index record, registry.records[index]? = some record ∧
      core record = (identity, state, descriptor?) ∧
      registry.byId.lookup identity.persistentId = some index := by
  obtain ⟨index, record, hr, hcore, -⟩ := mem_begun_iff.1 hm
  refine ⟨index, record, hr, hcore, lookup_id_of_identity h ?_⟩
  rw [hr]
  exact congrArg some (congrArg Prod.fst hcore)

/-- A type is begun in one way only. -/
theorem begun_unique (h : registry.Consistent)
    {entry other : GenerationState × Option LayoutDescriptor}
    (he : (identity, entry) ∈ registry.begun) (ho : (identity, other) ∈ registry.begun) :
    entry = other := by
  obtain ⟨i, record, hr, hcore, hi⟩ := index_of_begun h he
  obtain ⟨j, later, hl, hcore', hj⟩ := index_of_begun h ho
  obtain rfl := Option.some.inj (hi.symm.trans hj)
  obtain rfl := Option.some.inj (hr.symm.trans hl)
  exact congrArg Prod.snd (hcore.symm.trans hcore')

/-- Where one record changes, what has been begun of the others stays. -/
theorem mem_begun_setRecord (h : registry.Consistent) {index : Nat} {record : Record}
    (hr : registry.records[index]? = some record) {change : Record → Record}
    {entry : TypeIdentity × GenerationState × Option LayoutDescriptor} :
    entry ∈ (registry.setRecord index change).begun ↔
      entry ∈ registry.begun ∧ entry.1 ≠ record.identity ∨
        entry = core (change record) ∧ (change record).state ≠ .pending := by
  have hat := lookup_id_of_identity h (congrArg (Option.map Record.identity) hr)
  simp only [mem_begun_iff, getElem?_setRecord]
  constructor
  · rintro ⟨i, later, hl, rfl, hs⟩
    split at hl
    · rename_i hi
      subst hi
      rw [hr] at hl
      obtain rfl := Option.some.inj hl
      exact Or.inr ⟨rfl, hs⟩
    · rename_i hi
      refine Or.inl ⟨⟨i, later, hl, rfl, hs⟩, fun he => hi ?_⟩
      have hother := lookup_id_of_identity h (congrArg (Option.map Record.identity) hl)
      rw [show later.identity = record.identity from he] at hother
      exact Option.some.inj (hat.symm.trans hother)
  · rintro (⟨⟨i, later, hl, rfl, hs⟩, hne⟩ | ⟨rfl, hs⟩)
    · refine ⟨i, later, ?_, rfl, hs⟩
      rw [if_neg]
      · exact hl
      · rintro rfl
        exact hne (congrArg Record.identity (Option.some.inj (hl.symm.trans hr)))
    · exact ⟨index, change record, by rw [if_pos rfl, hr]; rfl, rfl, hs⟩

/-! ## The operations on generation -/

theorem Consistent.record_of_identity (h : registry.Consistent)
    (hi : identity ∈ registry.identities) :
    ∃ index record, registry.records[index]? = some record ∧ record.identity = identity ∧
      registry.byId.lookup identity.persistentId = some index := by
  obtain ⟨index, he⟩ := mem_identities_iff.1 hi
  obtain ⟨record, hr, rfl⟩ := Option.map_eq_some_iff.1 he
  exact ⟨index, record, hr, rfl, lookup_id_of_identity h he⟩

/-- A claim is granted on a type that is there. -/
theorem identity_of_granted (h : registry.Consistent) {id : String}
    (hg : (registry.beginGeneration id).1 = true) :
    ∃ identity ∈ registry.identities, identity.persistentId = id := by
  unfold beginGeneration at hg
  cases hl : registry.byId.lookup id with
  | none =>
    rw [hl] at hg
    cases hg
  | some index =>
    have hat := (h.byId id index).1 hl
    obtain ⟨record, hm, he⟩ := List.mem_map.1 (List.mem_of_getElem? hat)
    exact ⟨_, List.mem_map_of_mem hm, he⟩

/-- A claim that is granted is on a type that was not begun. -/
theorem mem_begun_beginGeneration (h : registry.Consistent)
    (hi : identity ∈ registry.identities)
    (hg : (registry.beginGeneration identity.persistentId).1 = true) :
    ¬ registry.IsBegun identity ∧
      ∀ entry, entry ∈ (registry.beginGeneration identity.persistentId).2.begun ↔
        entry ∈ registry.begun ∨ entry = (identity, .inProgress, none) := by
  obtain ⟨index, record, hr, rfl, hat⟩ := h.record_of_identity hi
  unfold beginGeneration at hg ⊢
  rw [hat] at hg ⊢
  dsimp only at hg ⊢
  rw [hr, Option.any_some] at hg ⊢
  cases hs : record.state == .pending with
  | false =>
    rw [hs] at hg
    cases hg
  | true =>
    have hpending := eq_of_beq hs
    have hnew : ¬ registry.IsBegun record.identity := by
      rintro ⟨state, descriptor?, hm⟩
      obtain ⟨i, other, ho, hcore, hstate⟩ := mem_begun_iff.1 hm
      have hother := lookup_id_of_identity h (congrArg (Option.map Record.identity) ho)
      rw [show other.identity = record.identity from congrArg Prod.fst hcore] at hother
      obtain rfl := Option.some.inj (hat.symm.trans hother)
      obtain rfl := Option.some.inj (hr.symm.trans ho)
      exact hstate hpending
    refine ⟨hnew, fun entry => ?_⟩
    have hnone : record.descriptor = none := by
      have hd := h.described record (List.mem_of_getElem? hr)
      rw [hpending] at hd
      simpa using hd
    rw [if_pos rfl, mem_begun_setRecord h hr]
    constructor
    · rintro (⟨hm, -⟩ | ⟨rfl, -⟩)
      · exact Or.inl hm
      · exact Or.inr (by rw [core, hnone])
    · rintro (hm | rfl)
      · refine Or.inl ⟨hm, fun he => hnew ⟨entry.2.1, entry.2.2, ?_⟩⟩
        rw [← he]
        exact hm
      · exact Or.inr ⟨by rw [core, hnone], fun hs => by cases hs⟩

/-- A claim on a type that is there is refused only when the type has been begun. -/
theorem begun_of_refused (h : registry.Consistent)
    (hi : identity ∈ registry.identities)
    (hg : (registry.beginGeneration identity.persistentId).1 = false) :
    registry.IsBegun identity := by
  obtain ⟨index, record, hr, rfl, hat⟩ := h.record_of_identity hi
  unfold beginGeneration at hg
  rw [hat] at hg
  dsimp only at hg
  rw [hr, Option.any_some] at hg
  cases hs : record.state == .pending with
  | false =>
    exact ⟨record.state, record.descriptor,
      mem_begun_iff.2 ⟨index, record, hr, rfl, beq_eq_false_iff_ne.1 hs⟩⟩
  | true =>
    rw [hs] at hg
    cases hg

section

variable {descriptor? : Option LayoutDescriptor} (h : registry.Consistent)
  (hm : (identity, .inProgress, descriptor?) ∈ registry.begun)

include h hm

theorem mem_begun_completeGeneration (descriptor : LayoutDescriptor)
    (entry : TypeIdentity × GenerationState × Option LayoutDescriptor) :
    entry ∈ (registry.completeGeneration identity.persistentId descriptor).begun ↔
      entry ∈ registry.begun ∧ entry.1 ≠ identity ∨
        entry = (identity, .generated, some descriptor) := by
  obtain ⟨index, record, hr, hcore, hat⟩ := index_of_begun h hm
  obtain rfl : record.identity = identity := congrArg Prod.fst hcore
  unfold completeGeneration
  rw [hat]
  refine (mem_begun_setRecord h hr).trans (or_congr_right ?_)
  exact and_iff_left fun hs => by cases hs

theorem mem_begun_abandonGeneration
    (entry : TypeIdentity × GenerationState × Option LayoutDescriptor) :
    entry ∈ (registry.abandonGeneration identity.persistentId).begun ↔
      entry ∈ registry.begun ∧ entry.1 ≠ identity := by
  obtain ⟨index, record, hr, hcore, hat⟩ := index_of_begun h hm
  obtain rfl : record.identity = identity := congrArg Prod.fst hcore
  unfold abandonGeneration
  rw [hat]
  refine (mem_begun_setRecord h hr).trans (or_iff_left ?_)
  rintro ⟨-, hs⟩
  have hclaimed : record.state = .inProgress := congrArg (·.2.1) hcore
  rw [if_pos hclaimed] at hs
  exact hs rfl

end

/-! ## Identities -/

theorem mem_identities_of_hash {hash : String}
    (h : registry.identityOfHash? hash = some identity) : identity ∈ registry.identities := by
  obtain ⟨record, hr, rfl⟩ := Option.map_eq_some_iff.1 h
  obtain ⟨index, -, hat⟩ := Option.bind_eq_some_iff.1 hr
  exact List.mem_map_of_mem (List.mem_of_getElem? hat)

/-- An id stands for one identity. -/
theorem Consistent.identity_eq (h : registry.Consistent) {other : TypeIdentity}
    (hi : identity ∈ registry.identities) (ho : other ∈ registry.identities)
    (he : identity.persistentId = other.persistentId) : identity = other := by
  obtain ⟨i, hat⟩ := mem_identities_iff.1 hi
  obtain ⟨j, hother⟩ := mem_identities_iff.1 ho
  have hindex := lookup_id_of_identity h hat
  rw [he, lookup_id_of_identity h hother] at hindex
  obtain rfl := Option.some.inj hindex
  exact Option.some.inj (hat.symm.trans hother)

theorem identities_setRecord (registry : Registry) (index : Nat) {change : Record → Record}
    (h : ∀ record, (change record).identity = record.identity) :
    (registry.setRecord index change).identities = registry.identities :=
  map_setRecord index h

theorem identities_beginGeneration (registry : Registry) (id : String) :
    (registry.beginGeneration id).2.identities = registry.identities := by
  unfold beginGeneration
  split
  · rfl
  · split
    · exact identities_setRecord _ _ fun _ => rfl
    · rfl

theorem identities_completeGeneration (registry : Registry) (id : String)
    (descriptor : LayoutDescriptor) :
    (registry.completeGeneration id descriptor).identities = registry.identities := by
  unfold completeGeneration
  split
  · rfl
  · exact identities_setRecord _ _ fun _ => rfl

/-! ## The other operations -/

theorem begun_register (h : registry.WellFormed) (decl : TypeDeclaration) {hash : String}
    (hf : registry.byHash.lookup hash = none → registry.HasFreeId hash) :
    (registry.register decl hash).2.begun = registry.begun := by
  obtain ⟨index, hr⟩ := register_spec h decl hf
  have hcores := hr.cores
  split at hcores
  · exact begun_of_cores [_] hcores
  · exact begun_of_cores [] hcores

end UniformLayout.Registry
