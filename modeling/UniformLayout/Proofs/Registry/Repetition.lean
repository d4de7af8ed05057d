import UniformLayout.Proofs.Registry.Isolation

/-!
# Registering again

A declaration that has been registered is in place: its record has the hash and is listed under the
alias. Registering it once more answers the same and changes nothing, so that no id is searched for.

* `inPlace_registerAll`: what a unit registers is in place.
* `declarationsOf_registerAll`: other names keep their declarations.

Main statement: `registerAll_of_inPlace`.
-/

namespace UniformLayout.Registry

variable {registry : Registry} {pairs : List (TypeDeclaration × String)}

/-- Every declaration is in place under its hash. -/
def InPlace (registry : Registry) (pairs : List (TypeDeclaration × String)) : Prop :=
  ∀ pair ∈ pairs, ∃ index identity, identity.contentHash = pair.2 ∧
    Placed registry index (aliasOf pair.1) identity

/-! ## One declaration -/

theorem Placed.lookup_hash {index : Nat} {alias_ : Alias} {identity : TypeIdentity}
    (h : registry.Consistent) (hp : Placed registry index alias_ identity) :
    registry.byHash.lookup identity.contentHash = some index := by
  obtain ⟨record, hr, rfl⟩ := Option.map_eq_some_iff.1 hp.identity_eq
  rw [h.byHash, hashes, List.getElem?_map, hr]
  rfl

theorem register_of_placed (h : registry.Consistent) {decl : TypeDeclaration} {index : Nat}
    {identity : TypeIdentity} (hp : Placed registry index (aliasOf decl) identity) :
    registry.register decl identity.contentHash = (⟨identity, false, none⟩, registry) := by
  have hl := hp.lookup_hash h
  have hlisted := (hasAlias_iff _ _ _).2 hp.listed
  obtain ⟨record, hr, rfl⟩ := Option.map_eq_some_iff.1 hp.identity_eq
  rw [register_of_lookup hl hr, addAlias, if_pos hlisted, if_pos hlisted]

/-- Another name keeps its declarations. -/
theorem declarationsOf_register {name : String} {decl : TypeDeclaration} (hn : name ≠ decl.name)
    (hash : String) :
    (registry.register decl hash).2.declarationsOf name = registry.declarationsOf name := by
  have hother : ∀ (before : Registry) (index : Nat),
      (before.addAlias index (aliasOf decl)).declarationsOf name = before.declarationsOf name := by
    intro before index
    cases hk : before.hasAlias index (aliasOf decl) with
    | true => rw [addAlias, if_pos hk]
    | false =>
      rw [addAlias_of_new hk, declarationsOf_eq, listed_insert]
      exact if_neg hn
  unfold register
  dsimp only
  split
  · exact hother _ _
  · exact hother _ _

/-! ## The declarations of a unit -/

theorem inPlace_registerAll_of_inPlace (h : registry.WellFormed)
    {others : List (TypeDeclaration × String)} (hf : registry.FindsIds others)
    (hp : registry.InPlace pairs) : (registry.registerAll others).2.InPlace pairs := by
  induction others generalizing registry with
  | nil => exact hp
  | cons other rest ih =>
    obtain ⟨decl, hash⟩ := other
    obtain ⟨hfree, hrest⟩ := hf
    rw [registerAll_cons]
    refine ih (wellFormed_register h decl hfree) hrest fun pair hm => ?_
    obtain ⟨index, identity, hhash, hplaced⟩ := hp pair hm
    exact ⟨index, identity, hhash, (placed_register h hplaced decl hash).1⟩

/-- What has been registered is in place. -/
theorem inPlace_registerAll (h : registry.WellFormed) (hf : registry.FindsIds pairs) :
    (registry.registerAll pairs).2.InPlace pairs := by
  induction pairs generalizing registry with
  | nil => exact fun pair hm => absurd hm List.not_mem_nil
  | cons pair rest ih =>
    obtain ⟨decl, hash⟩ := pair
    obtain ⟨hfree, hrest⟩ := hf
    have hnext := wellFormed_register h decl hfree
    obtain ⟨hhash, index, hplaced⟩ := placed_registered h decl hash
    have hfirst : (registry.register decl hash).2.InPlace [(decl, hash)] :=
      List.forall_mem_singleton.2 ⟨index, _, hhash, hplaced⟩
    rw [registerAll_cons]
    refine List.forall_mem_cons.2 ⟨?_, ih hnext hrest⟩
    exact inPlace_registerAll_of_inPlace hnext hrest hfirst _ List.mem_cons_self

/-- **Registering again.** What is in place is not registered once more. -/
theorem registerAll_of_inPlace (h : registry.Consistent) (hp : registry.InPlace pairs) :
    registry.FindsIds pairs ∧ (registry.registerAll pairs).2 = registry := by
  induction pairs with
  | nil => exact ⟨trivial, rfl⟩
  | cons pair rest ih =>
    obtain ⟨decl, hash⟩ := pair
    obtain ⟨hfirst, hrest⟩ := List.forall_mem_cons.1 hp
    obtain ⟨index, identity, rfl, hplaced⟩ := hfirst
    rw [registerAll_cons, FindsIds, register_of_placed h hplaced]
    obtain ⟨hids, hsame⟩ := ih hrest
    refine ⟨⟨fun hnew => ?_, hids⟩, hsame⟩
    cases hnew.symm.trans (hplaced.lookup_hash h)

theorem declarationsOf_registerAll {name : String}
    (hn : name ∉ pairs.map fun pair => pair.1.name) :
    (registry.registerAll pairs).2.declarationsOf name = registry.declarationsOf name := by
  induction pairs generalizing registry with
  | nil => rfl
  | cons pair rest ih =>
    obtain ⟨decl, hash⟩ := pair
    rw [List.map_cons, List.mem_cons, not_or] at hn
    rw [registerAll_cons]
    exact (ih hn.2).trans (declarationsOf_register hn.1 hash)

end UniformLayout.Registry
