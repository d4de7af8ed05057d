import UniformLayout.Proofs.Registry.Extension
import UniformLayout.Proofs.Registry.Repetition

/-!
# Who has declared a name

Declarations are listed in the order in which they are registered, and none is dropped. So the first
one that is listed under a name stays the first one, whatever is registered later, and a name that a
source does not declare leads to its record (`resolveDeclaredIn?_of_first`).

* `ListedFor`: the declaration that an entry of the list goes back to.
* `Adopts`: what registering declarations does to the lists of all names.

Main statement: `adopts_registerAll`.
-/

namespace UniformLayout.Registry

variable {registry before after : Registry} {pairs : List (TypeDeclaration × String)}

/-- The entry is listed under the name for one of the declarations, whose hash its record has. -/
def ListedFor (registry : Registry) (pairs : List (TypeDeclaration × String)) (name : String)
    (entry : String × Nat) : Prop :=
  ∃ pair ∈ pairs, aliasOf pair.1 = ⟨name, entry.1⟩ ∧
    ∃ identity, identity.contentHash = pair.2 ∧
      Placed registry entry.2 (aliasOf pair.1) identity

theorem ListedFor.mono {more : List (TypeDeclaration × String)} {name : String}
    {entry : String × Nat} (h : registry.ListedFor pairs name entry) (hm : pairs ⊆ more) :
    registry.ListedFor more name entry := by
  obtain ⟨pair, hpair, hplaced⟩ := h
  exact ⟨pair, hm hpair, hplaced⟩

/-- An entry leads to the hash of the only declaration of its name. -/
theorem ListedFor.identity {name : String} {entry : String × Nat}
    (h : registry.ListedFor pairs name entry) (hn : (pairs.map (·.1.name)).Nodup)
    {pair : TypeDeclaration × String} (hm : pair ∈ pairs) (hname : pair.1.name = name) :
    ∃ identity, identity.contentHash = pair.2 ∧
      (registry.records[entry.2]?).map Record.identity = some identity := by
  obtain ⟨other, ho, halias, identity, hhash, hplaced⟩ := h
  have hsame : other.1.name = pair.1.name := (congrArg Alias.name halias).trans hname.symm
  obtain rfl := List.inj_on_of_nodup_map hn ho hm hsame
  exact ⟨identity, hhash, hplaced.identity_eq⟩

/-! ## One declaration -/

/-- A registration adds an alias to the record of the hash, which may be a new one. -/
theorem register_eq_addAlias (h : registry.Consistent) (decl : TypeDeclaration) (hash : String) :
    ∃ (base : Registry) (index : Nat) (identity : TypeIdentity),
      (registry.register decl hash).2 = base.addAlias index (aliasOf decl) ∧
        (∀ name, base.declarationsOf name = registry.declarationsOf name) ∧
        identity.contentHash = hash ∧
        (base.records[index]?).map Record.identity = some identity := by
  cases hl : registry.byHash.lookup hash with
  | none =>
    refine ⟨registry.addRecord (registry.mintIdentity decl hash), registry.records.length,
      registry.mintIdentity decl hash, ?_, fun _ => rfl, rfl, ?_⟩
    · rw [register_of_unknown hl]
    · simp [addRecord]
  | some index =>
    obtain ⟨record, hr, hhash⟩ := h.getElem?_of_lookup_hash hl
    refine ⟨registry, index, record.identity, ?_, fun _ => rfl, hhash, ?_⟩
    · rw [register_of_lookup hl hr]
    · rw [hr]
      rfl

/-- An entry was listed before, or is listed for the declaration. -/
theorem listed_register (h : registry.Consistent) {decl : TypeDeclaration} {hash name : String}
    {entry : String × Nat} (hm : entry ∈ (registry.register decl hash).2.declarationsOf name) :
    entry ∈ registry.declarationsOf name ∨
      (registry.register decl hash).2.ListedFor [(decl, hash)] name entry := by
  obtain ⟨base, index, identity, hafter, hsame, hhash, hidentity⟩ := register_eq_addAlias h decl hash
  rw [hafter] at hm ⊢
  rw [← hsame]
  cases hn : base.hasAlias index (aliasOf decl) with
  | true =>
    rw [addAlias, if_pos hn] at hm
    exact Or.inl hm
  | false =>
    refine ((mem_declarationsOf_addAlias hn _ _).1 hm).imp_right ?_
    rintro ⟨rfl, rfl⟩
    refine ⟨(decl, hash), List.mem_singleton_self _, rfl, identity, hhash, ?_, listed_addAlias _ _⟩
    rw [identities_of_cores (cores_addAlias _ _ _)]
    exact hidentity

/-! ## The declarations of a unit -/

theorem placed_registerAll (h : registry.WellFormed) (hf : registry.FindsIds pairs) {index : Nat}
    {alias_ : Alias} {identity : TypeIdentity} (hp : Placed registry index alias_ identity) :
    Placed (registry.registerAll pairs).2 index alias_ identity := by
  induction pairs generalizing registry with
  | nil => exact hp
  | cons pair rest ih =>
    obtain ⟨decl, hash⟩ := pair
    rw [registerAll_cons]
    exact ih (wellFormed_register h decl hf.1) hf.2 (placed_register h hp decl hash).1

theorem listed_registerAll (h : registry.WellFormed) (hf : registry.FindsIds pairs) {name : String}
    {entry : String × Nat} (hm : entry ∈ (registry.registerAll pairs).2.declarationsOf name) :
    entry ∈ registry.declarationsOf name ∨
      (registry.registerAll pairs).2.ListedFor pairs name entry := by
  induction pairs generalizing registry with
  | nil => exact Or.inl hm
  | cons pair rest ih =>
    obtain ⟨decl, hash⟩ := pair
    have hnext := wellFormed_register h decl hf.1
    rw [registerAll_cons] at hm ⊢
    rcases ih hnext hf.2 hm with hm | hlisted
    · refine (listed_register h.consistent hm).imp_right ?_
      rintro ⟨pair, hpair, halias, identity, hhash, hplaced⟩
      obtain rfl := List.mem_singleton.1 hpair
      exact ⟨_, List.mem_cons_self, halias, identity, hhash, placed_registerAll hnext hf.2 hplaced⟩
    · exact Or.inr (hlisted.mono (List.subset_cons_self _ _))

theorem extends_registerAll {start : Registry} (hs : start.Extends registry)
    (h : registry.WellFormed) (hf : registry.FindsIds pairs) :
    start.Extends (registry.registerAll pairs).2 := by
  induction pairs generalizing registry with
  | nil => exact hs
  | cons pair rest ih =>
    obtain ⟨decl, hash⟩ := pair
    rw [registerAll_cons]
    exact ih (extends_register hs h decl hash) (wellFormed_register h decl hf.1) hf.2

/-- The declarations have been registered: what was listed before comes first, the identities from
before are where they were, and what has come is listed for one of the declarations. -/
structure Adopts (pairs : List (TypeDeclaration × String)) (before after : Registry) : Prop where
  declarations : ∀ name, before.declarationsOf name <+: after.declarationsOf name
  identity_at : ∀ (index : Nat) (identity : TypeIdentity),
    (before.records[index]?).map Record.identity = some identity →
      (after.records[index]?).map Record.identity = some identity
  listed : ∀ name, ∀ entry ∈ after.declarationsOf name,
    entry ∈ before.declarationsOf name ∨ after.ListedFor pairs name entry
  inPlace : after.InPlace pairs

/-- **Registering.** Further declarations are listed behind those that are there. -/
theorem adopts_registerAll (h : registry.WellFormed) (hf : registry.FindsIds pairs) :
    Adopts pairs registry (registry.registerAll pairs).2 := by
  have hextends := extends_registerAll (Extends.refl registry) h hf
  refine ⟨hextends.declarations, fun index identity hi => ?_,
    fun name entry hm => listed_registerAll h hf hm, inPlace_registerAll h hf⟩
  obtain ⟨record, hr, rfl⟩ := Option.map_eq_some_iff.1 hi
  have hcore : registry.cores[index]? = some (core record) :=
    List.getElem?_map.trans (congrArg (Option.map core) hr)
  have hafter := congrArg (Option.map Prod.fst) (getElem?_of_front hextends.cores hcore)
  rwa [cores, List.getElem?_map, Option.map_map] at hafter

/-! ## The first declaration -/

/-- Before a name is listed, nothing is in front of what a unit declares under it. -/
theorem Adopts.resolveDeclared?_of_nil (h : Adopts pairs before after)
    (hn : (pairs.map (·.1.name)).Nodup) {pair : TypeDeclaration × String} (hm : pair ∈ pairs)
    (hnone : before.declarationsOf pair.1.name = []) :
    ∃ identity, identity.contentHash = pair.2 ∧
      after.resolveDeclared? pair.1.name = some identity := by
  obtain ⟨index, identity, -, hplaced⟩ := h.inPlace pair hm
  unfold resolveDeclared? recordAt?
  cases he : (after.declarationsOf pair.1.name).head? with
  | none =>
    rw [List.head?_eq_none_iff] at he
    have hlisted : (pair.1.source.file, index) ∈ after.declarationsOf pair.1.name := hplaced.listed
    rw [he] at hlisted
    cases hlisted
  | some entry =>
    have hentry := (h.listed _ entry (List.mem_of_head? he)).resolve_left (by
      rw [hnone]
      exact List.not_mem_nil)
    exact hentry.identity hn hm rfl

/-- The first declaration of a name is the first one later on. -/
theorem Adopts.resolveDeclared? (h : Adopts pairs before after) {name : String}
    {identity : TypeIdentity} (hi : before.resolveDeclared? name = some identity) :
    after.resolveDeclared? name = some identity := by
  unfold Registry.resolveDeclared? recordAt? at hi ⊢
  obtain ⟨record, hr, rfl⟩ := Option.map_eq_some_iff.1 hi
  obtain ⟨index, hindex, hr⟩ := Option.bind_eq_some_iff.1 hr
  obtain ⟨entry, he, rfl⟩ := Option.map_eq_some_iff.1 hindex
  obtain ⟨more, hmore⟩ := h.declarations name
  rw [← hmore, List.head?_append, he]
  exact h.identity_at entry.2 record.identity (by rw [hr]; rfl)

/-- A source that does not declare a name takes the first declaration of it. -/
theorem resolveDeclaredIn?_of_first {name source : String}
    (h : ∀ entry ∈ registry.declarationsOf name, entry.1 ≠ source) :
    registry.resolveDeclaredIn? name source = registry.resolveDeclared? name := by
  unfold resolveDeclaredIn? resolveDeclared?
  have hnone : (registry.declarationsOf name).find? (·.1 == source) = none :=
    List.find?_eq_none.2 fun entry hm he => h entry hm (eq_of_beq he)
  dsimp only
  rw [hnone]
  rfl

end UniformLayout.Registry
