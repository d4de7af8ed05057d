import UniformLayout.Proofs.Registry.Undo
import UniformLayout.Proofs.Schema.Nesting

/-!
# Settled registries

Between two compilations a registry is `Settled`: nobody has a claim on a type, and whatever was
generated can be used again, since all that is nested in it has been generated as well and finds its
texture units.

* `Settled.of_begun`: all of this depends on what has been begun only.
* `settled_restore`, `settled_registerAll`: a registry stays settled when types are entered.
-/

namespace UniformLayout

namespace Registry

/-- A host type with the content hash has been written, and the layout finds its texture units. -/
def Offers (registry : Registry) (limit : Nat) (layout : StructLayout) : Prop :=
  (∃ identity descriptor?, (identity, .generated, descriptor?) ∈ registry.begun ∧
    identity.contentHash = layout.contentHash) ∧ layout.UnitsFit limit

/-- The descriptor belongs to the identity, and everything in it is on offer. -/
structure Usable (registry : Registry) (limit : Nat) (identity : TypeIdentity)
    (descriptor : LayoutDescriptor) : Prop where
  owner : descriptor.identity = identity
  hash : descriptor.layout.contentHash = identity.contentHash
  layout : descriptor.layout.Throughout (registry.Offers limit)

/-- Every type that has been begun is generated, and its layout can be used again. -/
structure Settled (limit : Nat) (registry : Registry) : Prop where
  wellFormed : registry.WellFormed
  begun : ∀ identity state descriptor?, (identity, state, descriptor?) ∈ registry.begun →
    state = .generated ∧ ∃ descriptor, descriptor? = some descriptor ∧
      registry.Usable limit identity descriptor

theorem Offers.mono {before after : Registry} {limit : Nat} {layout : StructLayout}
    (h : before.Offers limit layout) (hb : before.begun ⊆ after.begun) :
    after.Offers limit layout := by
  obtain ⟨⟨identity, descriptor?, hm, he⟩, hunits⟩ := h
  exact ⟨⟨identity, descriptor?, hb hm, he⟩, hunits⟩

theorem Usable.mono {before after : Registry} {limit : Nat} {identity : TypeIdentity}
    {descriptor : LayoutDescriptor} (h : before.Usable limit identity descriptor)
    (hb : before.begun ⊆ after.begun) : after.Usable limit identity descriptor :=
  ⟨h.owner, h.hash, h.layout.mono fun _ ho => ho.mono hb⟩

theorem Settled.of_begun {limit : Nat} {before after : Registry} (h : before.Settled limit)
    (hw : after.WellFormed) (hb : after.begun = before.begun) : after.Settled limit := by
  refine ⟨hw, fun identity state descriptor? hm => ?_⟩
  rw [hb] at hm
  obtain ⟨hs, descriptor, hd, husable⟩ := h.begun identity state descriptor? hm
  exact ⟨hs, descriptor, hd, husable.mono fun _ hm => hb ▸ hm⟩

theorem settled_empty (limit suffixLength : Nat) : Settled limit { suffixLength } := by
  refine ⟨wellFormed_empty suffixLength, fun identity state descriptor? hm => ?_⟩
  cases hm

variable {registry : Registry}

theorem mem_cores_iff {entry : TypeIdentity × GenerationState × Option LayoutDescriptor} :
    entry ∈ registry.cores ↔ ∃ (i : Nat) (record : Record),
      registry.records[i]? = some record ∧ core record = entry := by
  unfold cores
  rw [List.mem_map]
  constructor
  · rintro ⟨record, hm, he⟩
    obtain ⟨i, hi⟩ := List.mem_iff_getElem?.1 hm
    exact ⟨i, record, hi, he⟩
  · rintro ⟨i, record, hi, he⟩
    exact ⟨record, List.mem_of_getElem? hi, he⟩

theorem mem_begun_iff {entry : TypeIdentity × GenerationState × Option LayoutDescriptor} :
    entry ∈ registry.begun ↔ ∃ (i : Nat) (record : Record),
      registry.records[i]? = some record ∧ core record = entry ∧ record.state ≠ .pending := by
  unfold begun
  rw [List.mem_filter, mem_cores_iff]
  constructor
  · rintro ⟨⟨i, record, hi, rfl⟩, hs⟩
    exact ⟨i, record, hi, rfl, bne_iff_ne.1 hs⟩
  · rintro ⟨i, record, hi, rfl, hs⟩
    exact ⟨⟨i, record, hi, rfl⟩, bne_iff_ne.2 hs⟩

/-- A record is found by its hash. -/
theorem Consistent.ofHash_of_getElem? (h : registry.Consistent) {index : Nat} {record : Record}
    (hr : registry.records[index]? = some record) :
    registry.ofHash? record.identity.contentHash = some record := by
  have hhash : registry.hashes[index]? = some record.identity.contentHash := by
    rw [hashes, List.getElem?_map, hr]
    rfl
  rw [ofHash?, (h.byHash _ _).2 hhash]
  exact hr

/-- The record of a known hash, under both of its keys. -/
theorem Consistent.record_of_hash (h : registry.Consistent) {hash : String}
    (hk : (registry.byHash.lookup hash).isSome) :
    ∃ index record, registry.records[index]? = some record ∧
      record.identity.contentHash = hash ∧
      registry.identityOfHash? hash = some record.identity ∧
      registry.byId.lookup record.identity.persistentId = some index := by
  obtain ⟨index, hi⟩ := Option.isSome_iff_exists.1 hk
  obtain ⟨record, hr, hhash⟩ := h.getElem?_of_lookup_hash hi
  refine ⟨index, record, hr, hhash, ?_, ?_⟩
  · simp [identityOfHash?, ofHash?, recordAt?, hi, hr]
  · rw [h.byId, ids, List.getElem?_map, hr]
    rfl

theorem Offers.known {limit : Nat} {layout : StructLayout} (h : registry.Offers limit layout)
    (hc : registry.Consistent) : (registry.byHash.lookup layout.contentHash).isSome := by
  obtain ⟨⟨identity, descriptor?, hm, he⟩, -⟩ := h
  obtain ⟨i, record, hr, hcore, -⟩ := mem_begun_iff.1 hm
  have hhash : registry.hashes[i]? = some layout.contentHash := by
    obtain rfl : record.identity = identity := congrArg Prod.fst hcore
    rw [hashes, List.getElem?_map, hr, ← he]
    rfl
  rw [(hc.byHash _ _).2 hhash]
  rfl

/-- A descriptor that the registry gives out is that of a generated type. -/
theorem Consistent.begun_of_descriptor (h : registry.Consistent) {hash : String}
    {descriptor : LayoutDescriptor} (hd : registry.descriptorOfHash? hash = some descriptor) :
    ∃ identity, (identity, .generated, some descriptor) ∈ registry.begun := by
  unfold descriptorOfHash? ofHash? recordAt? at hd
  obtain ⟨record, hr, hd⟩ := Option.bind_eq_some_iff.1 hd
  obtain ⟨index, -, hr⟩ := Option.bind_eq_some_iff.1 hr
  have hs : record.state = .generated := by
    rw [← h.described record (List.mem_of_getElem? hr), hd]
    rfl
  refine ⟨record.identity, mem_begun_iff.2 ⟨index, record, hr, ?_, ?_⟩⟩
  · rw [core, hs, hd]
  · rw [hs]
    decide

/-- A descriptor that the registry gives out can be used. -/
theorem Settled.usable {limit : Nat} (h : registry.Settled limit) {hash : String}
    {descriptor : LayoutDescriptor} (hd : registry.descriptorOfHash? hash = some descriptor) :
    registry.Usable limit descriptor.identity descriptor := by
  obtain ⟨identity, hm⟩ := h.wellFormed.consistent.begun_of_descriptor hd
  obtain ⟨-, other, ho, husable⟩ := h.begun _ _ _ hm
  obtain rfl := Option.some.inj ho
  rw [husable.owner]
  exact husable

/-! ## Operations that begin nothing -/

theorem begun_of_cores {before after : Registry} (identities : List TypeIdentity)
    (h : after.cores = before.cores ++
      identities.map fun identity => (identity, .pending, none)) : after.begun = before.begun := by
  unfold begun
  rw [h, List.filter_append]
  refine (congrArg (_ ++ ·) (List.filter_eq_nil_iff.2 ?_)).trans (List.append_nil _)
  intro entry hm
  obtain ⟨identity, -, rfl⟩ := List.mem_map.1 hm
  exact Bool.false_ne_true

theorem cores_addAliases (registry : Registry) (index : Nat) (aliases : List Alias) :
    (aliases.foldl (·.addAlias index ·) registry).cores = registry.cores := by
  induction aliases generalizing registry with
  | nil => rfl
  | cons alias_ rest ih => exact (ih _).trans (cores_addAlias registry index alias_)

theorem begun_restore (registry : Registry) (kept : Snapshot) :
    (registry.restore kept).begun = registry.begun := by
  unfold restore
  induction kept generalizing registry with
  | nil => rfl
  | cons entry rest ih =>
    refine (ih _).trans ?_
    unfold restoreEntry
    split
    · rfl
    · apply begun_of_cores [entry.identity]
      exact (cores_addAliases _ _ _).trans List.map_append

theorem settled_restore {limit : Nat} (h : registry.Settled limit) (kept : Snapshot) :
    (registry.restore kept).Settled limit :=
  h.of_begun (wellFormed_restore h.wellFormed kept) (begun_restore registry kept)

theorem settled_registerAll {limit : Nat} (h : registry.Settled limit)
    {pairs : List (TypeDeclaration × String)} (hf : registry.FindsIds pairs) :
    (registry.registerAll pairs).2.Settled limit := by
  have hr := registerAll_spec h.wellFormed hf
  obtain ⟨minted, hm⟩ := hr.cores
  exact h.of_begun hr.wellFormed (begun_of_cores minted hm)

end Registry

end UniformLayout
