import UniformLayout.Proofs.Compilation.Lookups
import UniformLayout.Proofs.Compilation.Stored
import UniformLayout.Proofs.Resolution.Lockstep

/-!
# Plans over two registries

A unit that declares every aggregate it uses is planned over any registry if it is over one, and each
of its types has the same skeleton in both plans. That a declaration can be laid out over the second
registry is seen from the layout that the first one has for it: both have the hash of the declaration.

* `Resolution.Course.layOutAll_isOk`: where there is a sealed layout for every hash, all declarations
  can be laid out.
* `assignSlots_eq`: plans that match are given the same slots.

Main statement: `plannedTypes_over`.
-/

namespace UniformLayout

variable {registry another : Registry} {limit : Nat} {texts : List String} {key : String}
  {decls distinct distinct' handled : List TypeDeclaration}
  {resolution other referenced referenced' : Resolution}

/-! ## Declarations that can be laid out -/

/-- A declaration can be laid out where there is a sealed layout with its hash. -/
theorem Resolution.Course.layOut_isOk
    (hc : resolution.Course registry key decls distinct handled referenced)
    (hu : UserNames decls) (hw : IdentifierFields decls) (hno : NoCollision texts)
    {decl : TypeDeclaration} (hd : decl ∈ handled)
    (hp : decl.fingerprint resolution.hashes ∈ texts) {layout : StructLayout}
    (hl : layout.SealedIn texts) (hhash : layout.contentHash = resolution.hashOf decl)
    {nested : LayoutTable} (hn : nested.Holds (StructLayout.SealedIn texts) resolution.hashes)
    (hcovers : nested.Covers decl.fields) :
    ∃ made, decl.layOut (resolution.hashOf decl) nested = .ok made ∧
      LayoutTable.Holds (StructLayout.SealedIn texts) resolution.hashes
        ((decl.name, made) :: nested) := by
  have hinner : ∀ name below, nested.lookup name = some below → below.SealedIn texts :=
    fun name below hb => (hn name below hb).1
  have hready := hc.ready hu hw
    (fun name below hb => ⟨(hn name below hb).1.isSealed, (hn name below hb).2⟩) hd hcovers
  have hown := (hc.hash hu).1 decl hd
  obtain ⟨made, hmade⟩ := layOut_of_sealed hno hready hinner hp hl (hhash.trans hown)
  rw [hown]
  refine ⟨made, hmade, hn.cons (sealedIn_of_layOut hready hinner hp hmade) ?_⟩
  rw [contentHash_of_layOut hmade, ← hown]
  exact hc.lookup_hashOf decl hd

/-- Declarations for whose hashes there are sealed layouts can be laid out. -/
theorem Resolution.Course.layOutAll_isOk
    (hc : resolution.Course registry key decls distinct handled referenced)
    (hu : UserNames decls) (hw : IdentifierFields decls) (hs : registry.Settled limit)
    (hstores : registry.Stores (StructLayout.SealedIn texts)) (hno : NoCollision texts)
    (hp : ∀ decl ∈ handled, decl.fingerprint resolution.hashes ∈ texts)
    (hl : ∀ decl ∈ handled, ∃ layout : StructLayout, layout.SealedIn texts ∧
      layout.contentHash = resolution.hashOf decl) :
    ∃ fresh, layOutAll resolution.reusedLayouts resolution.order = .ok fresh := by
  have hstep : ∀ decl ∈ handled, ∀ nested : LayoutTable,
      nested.Holds (StructLayout.SealedIn texts) resolution.hashes → nested.Covers decl.fields →
      ∃ made, decl.layOut (resolution.hashOf decl) nested = .ok made ∧
        LayoutTable.Holds (StructLayout.SealedIn texts) resolution.hashes
          ((decl.name, made) :: nested) := by
    intro decl hd nested hholds hcovers
    obtain ⟨layout, hlayout, hhash⟩ := hl decl hd
    exact hc.layOut_isOk hu hw hno hd (hp decl hd) hlayout hhash hholds hcovers
  cases h : layOutAll resolution.reusedLayouts resolution.order with
  | ok fresh => exact ⟨fresh, rfl⟩
  | error e =>
    refine (hc.layOutAll_failsWith (E := fun _ => False) (hc.reusedLayouts_holds hs hstores)
      (fun decl hd nested hholds hcovers layout hlayout => ?_)
      (fun decl hd nested hholds hcovers e he => ?_) h).elim
    · obtain ⟨made, hmade, hafter⟩ := hstep decl hd nested hholds hcovers
      obtain rfl := Except.ok.inj (hmade.symm.trans hlayout)
      exact hafter
    · obtain ⟨made, hmade, -⟩ := hstep decl hd nested hholds hcovers
      rw [hmade] at he
      cases he

/-! ## Plans that match -/

/-- The type has a sealed layout under the hash of the declaration. -/
structure PlannedType.Describes (texts : List String) (resolution : Resolution)
    (decl : TypeDeclaration) (planned : PlannedType) : Prop where
  declaration : planned.declaration = decl
  layout : planned.layout.SealedIn texts
  contentHash : planned.layout.contentHash = resolution.hashOf decl

theorem Resolution.Course.describes
    (hc : resolution.Course registry key decls distinct handled referenced)
    (hs : registry.Settled limit) (hstores : registry.Stores (StructLayout.SealedIn texts))
    (hu : UserNames decls) (hw : IdentifierFields decls)
    (hp : ∀ decl ∈ handled, decl.fingerprint resolution.hashes ∈ texts) {types : List PlannedType}
    (ht : resolution.plannedTypes = .ok types) :
    List.Forall₂ (PlannedType.Describes texts resolution) handled types := by
  have htypes := hc.planned ht fun fresh =>
    hc.made_sealed hs (hstores.mono fun _ h => h.isSealed) hu hw
  have hprints : ∀ planned ∈ types, planned.layout.Throughout (·.print ∈ texts) := by
    refine (plannedTypes_spec hc ht).throughout
      (fun _ _ hd => (hstores.of_descriptorOfHash hd).prints) fun planned hm hnone => ?_
    obtain ⟨decl, hd, hstands⟩ := exists_of_mem_right htypes hm
    rw [(PlannedType.StandsFor.layout hstands hnone).2.2]
    exact hp decl hd
  have hboth := ((List.forall₂_and_left _ _).2 ⟨hprints, htypes.flip⟩).flip
  refine hboth.imp fun decl planned h => ?_
  obtain ⟨hprint, hstands⟩ := h
  refine ⟨PlannedType.StandsFor.declaration hstands, ⟨?_, hprint⟩, ?_⟩
  · rcases hstands with ⟨descriptor, hd, rfl⟩ | ⟨-, hmade⟩
    · exact (hstores.of_descriptorOfHash hd).isSealed
    · exact hmade.layout.1
  · rcases hstands with ⟨descriptor, hd, rfl⟩ | ⟨-, hmade⟩
    · exact hs.hash_of_descriptor hd
    · exact hmade.layout.2.1

/-- The types stand for one declaration, and differ in names and hashes of layouts only. -/
structure PlannedType.Matches (planned other : PlannedType) : Prop where
  declaration : planned.declaration = other.declaration
  contentHash : planned.layout.contentHash = other.layout.contentHash
  skeleton : planned.layout.skeleton = other.layout.skeleton

/-- **Plans.** The types of a plan can be planned over another registry, with the same skeletons. -/
theorem plannedTypes_over (hu : SelfContained decls) (hw : IdentifierFields decls)
    (hno : NoCollision texts) (hp : fingerprints decls resolution.hashes ⊆ texts)
    (hr : (resolve registry key decls).result = .ok resolution)
    (hs : registry.Settled limit) (hstores : registry.Stores (StructLayout.SealedIn texts))
    (ho : (resolve another key decls).result = .ok other)
    (hs' : another.Settled limit) (hstores' : another.Stores (StructLayout.SealedIn texts))
    (hhashes : other.hashes = resolution.hashes) (hwaves : other.waves = resolution.waves)
    {types : List PlannedType} (ht : resolution.plannedTypes = .ok types) :
    ∃ types', other.plannedTypes = .ok types' ∧
      (∀ planned ∈ types ++ types', planned.layout.SealedIn texts) ∧
      List.Forall₂ PlannedType.Matches types types' := by
  obtain ⟨distinct, handled, referenced, hc⟩ := resolve_eq_ok hr
  obtain ⟨distinct', handled', referenced', hc'⟩ := resolve_eq_ok ho
  obtain rfl := hc.handled_eq hc' hwaves
  have hprints : ∀ decl ∈ handled', decl.fingerprint resolution.hashes ∈ texts := by
    intro decl hd
    refine hp (List.mem_map_of_mem (List.mem_filter.2 ⟨?_, ?_⟩))
    · exact mem_of_declared (hc.mem_handled.1 hd)
    · exact decide_eq_true (hc.mem_handled.1 hd)
  have hdescribes := hc.describes hs hstores hu.userNames hw hprints ht
  have hsame : ∀ decl, other.hashOf decl = resolution.hashOf decl := by
    intro decl
    unfold Resolution.hashOf
    rw [hhashes]
  obtain ⟨fresh, hf⟩ := hc'.layOutAll_isOk hu.userNames hw hs' hstores' hno (by rwa [hhashes])
    fun decl hd => by
      obtain ⟨planned, -, hplanned⟩ := exists_of_mem_left hdescribes hd
      exact ⟨_, hplanned.layout, hplanned.contentHash.trans (hsame decl).symm⟩
  have ht' : ∃ types', other.plannedTypes = .ok types' := by
    unfold Resolution.plannedTypes
    rw [hf]
    exact ⟨_, rfl⟩
  obtain ⟨types', ht'⟩ := ht'
  have hdescribes' := hc'.describes hs' hstores' hu.userNames hw (by rwa [hhashes]) ht'
  refine ⟨types', ht', List.forall_mem_append.2 ⟨fun planned hm => ?_, fun planned hm => ?_⟩,
    forall₂_of_common hdescribes hdescribes' fun decl planned planned' h h' => ?_⟩
  · obtain ⟨decl, -, hplanned⟩ := exists_of_mem_right hdescribes hm
    exact hplanned.layout
  · obtain ⟨decl, -, hplanned⟩ := exists_of_mem_right hdescribes' hm
    exact hplanned.layout
  · have hhash : planned.layout.contentHash = planned'.layout.contentHash :=
      h.contentHash.trans ((hsame decl).symm.trans h'.contentHash.symm)
    exact ⟨h.declaration.trans h'.declaration.symm, hhash, h.layout.skeleton_eq hno h'.layout hhash⟩

/-! ## Slots -/

/-- Plans that match are given the same slots. -/
theorem assignSlots_eq {σ : Type} (allocator : SlotAllocator σ) {types types' : List PlannedType}
    (h : List.Forall₂ PlannedType.Matches types types') (slots : σ) :
    assignSlots limit allocator types' slots = assignSlots limit allocator types slots := by
  induction h generalizing slots with
  | nil => rfl
  | @cons planned planned' rest rest' hfirst _ ih =>
    have hunits : assignTextureUnits planned'.layout.fields limit =
        assignTextureUnits planned.layout.fields limit := by
      have hskeleton := hfirst.skeleton
      rw [StructLayout.skeleton_eq, StructLayout.skeleton_eq, StructLayout.mk.injEq] at hskeleton
      rw [← assignTextureUnits_skeleton, ← hskeleton.2.2.2.1, assignTextureUnits_skeleton]
    unfold assignSlots
    rw [PlannedType.name, PlannedType.name, ← hfirst.declaration, hunits]
    simp only [ih]

end UniformLayout
