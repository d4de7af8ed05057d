import UniformLayout.Proofs.Compilation.Plan
import UniformLayout.Proofs.Lists
import UniformLayout.Proofs.Resolution.Parts

/-!
# Where the types of a plan come from

A plan has one type for every declaration that the unit keeps, in the order in which they were
handled. What the registry has generated under the hash of the declaration is taken as it is
(`PlannedType.TakenFor`); any other declaration is laid out, on top of the layouts before it
(`PlannedType.MadeFor`).

* `layOutAll_induction`: what holds of every layout that is made, by an invariant of the table that the
  layouts are collected in.

Main statement: `Resolution.Course.planned`.
-/

namespace UniformLayout

/-! ## Layouts that are made -/

/-- The layout has been made for the declaration. -/
structure PlannedType.MadeFrom (P : ResolvedType → StructLayout → Prop) (resolved : ResolvedType)
    (planned : PlannedType) : Prop where
  declaration : planned.declaration = resolved.declaration
  contentHash : planned.contentHash = resolved.contentHash
  known : planned.known = none
  layout : P resolved planned.layout

theorem layOutAll_induction {I : LayoutTable → Prop} {P : ResolvedType → StructLayout → Prop}
    {order : List ResolvedType}
    (step : ∀ table, I table → ∀ resolved ∈ order, ∀ layout,
      resolved.declaration.layOut resolved.contentHash table = .ok layout →
        P resolved layout ∧ I ((resolved.declaration.name, layout) :: table))
    {nested : LayoutTable} {fresh : List PlannedType} (hi : I nested)
    (h : layOutAll nested order = .ok fresh) :
    List.Forall₂ (PlannedType.MadeFrom P) order fresh := by
  induction order generalizing nested fresh with
  | nil =>
    obtain rfl := Except.ok.inj h
    exact .nil
  | cons resolved rest ih =>
    rw [layOutAll] at h
    obtain ⟨layout, hl, h⟩ := bind_eq_ok_iff.1 h
    obtain ⟨others, ho, h⟩ := bind_eq_ok_iff.1 h
    obtain rfl := Except.ok.inj h
    obtain ⟨hlayout, hnext⟩ := step nested hi resolved List.mem_cons_self layout hl
    exact .cons ⟨rfl, rfl, rfl, hlayout⟩
      (ih (fun table ht other hm => step table ht other (List.mem_cons_of_mem _ hm)) hnext ho)

/-! ## One type for each declaration -/

/-- What the registry has generated under the hash. -/
def PlannedType.TakenFor (registry : Registry) (hash : String) (decl : TypeDeclaration)
    (planned : PlannedType) : Prop :=
  ∃ descriptor, registry.descriptorOfHash? hash = some descriptor ∧
    planned = ⟨decl, descriptor.identity.contentHash, descriptor.layout, some descriptor⟩

/-- A layout for the declaration, whose hash the registry has not generated. -/
def PlannedType.MadeFor (registry : Registry) (P : ResolvedType → StructLayout → Prop)
    (hash : String) (decl : TypeDeclaration) (planned : PlannedType) : Prop :=
  registry.descriptorOfHash? hash = none ∧ planned.MadeFrom P ⟨decl, hash⟩

/-- The type that a plan has for a declaration. -/
def PlannedType.StandsFor (registry : Registry) (P : ResolvedType → StructLayout → Prop)
    (hash : String) (decl : TypeDeclaration) (planned : PlannedType) : Prop :=
  planned.TakenFor registry hash decl ∨ planned.MadeFor registry P hash decl

variable {registry : Registry} {P : ResolvedType → StructLayout → Prop}

theorem PlannedType.StandsFor.declaration {hash : String} {decl : TypeDeclaration}
    {planned : PlannedType} (h : planned.StandsFor registry P hash decl) :
    planned.declaration = decl := by
  rcases h with ⟨descriptor, -, rfl⟩ | ⟨-, hmade⟩
  · rfl
  · exact hmade.declaration

/-- A type that the registry does not know has been made for its declaration. -/
theorem PlannedType.StandsFor.layout {hash : String} {decl : TypeDeclaration}
    {planned : PlannedType} (h : planned.StandsFor registry P hash decl)
    (hk : planned.known = none) : P ⟨decl, hash⟩ planned.layout := by
  rcases h with ⟨descriptor, -, rfl⟩ | ⟨-, hmade⟩
  · cases hk
  · exact hmade.layout

theorem mem_newTypes {hash : TypeDeclaration → String} {decls : List TypeDeclaration}
    {resolved : ResolvedType} : resolved ∈ newTypes registry hash decls ↔
      ∃ decl ∈ decls, registry.descriptorOfHash? (hash decl) = none ∧
        resolved = ⟨decl, hash decl⟩ := by
  unfold newTypes
  rw [List.mem_filterMap]
  refine exists_congr fun decl => and_congr_right fun _ => ?_
  cases registry.descriptorOfHash? (hash decl) with
  | none => simp [eq_comm]
  | some descriptor => simp

variable {key : String} {decls distinct handled : List TypeDeclaration}
  {resolution referenced : Resolution}

theorem Resolution.Course.mem_reusedTypes
    (hc : resolution.Course registry key decls distinct handled referenced)
    {planned : PlannedType} : planned ∈ resolution.reusedTypes ↔
      ∃ decl ∈ handled, planned.TakenFor registry (resolution.hashOf decl) decl := by
  unfold Resolution.reusedTypes
  rw [hc.parts.2, List.mem_filterMap]
  constructor
  · rintro ⟨entry, hm, hp⟩
    rcases List.mem_append.1 hm with hm | hm
    · rw [((resolveReferences_spec hc.references).reused entry hm).1] at hp
      cases hp
    · obtain ⟨decl, hd, he⟩ := List.mem_filterMap.1 hm
      obtain ⟨descriptor, hdescriptor, rfl⟩ := Option.map_eq_some_iff.1 he
      exact ⟨decl, hd, descriptor, hdescriptor, (Option.some.inj hp).symm⟩
  · rintro ⟨decl, hd, descriptor, hdescriptor, rfl⟩
    refine ⟨{ name := decl.name, descriptor, declaration := some decl }, ?_, rfl⟩
    refine List.mem_append_right _ (List.mem_filterMap.2 ⟨decl, hd, ?_⟩)
    rw [hdescriptor]
    rfl

/-- **Plans.** The types of a plan stand for the declarations that the unit keeps. -/
theorem Resolution.Course.planned
    (hc : resolution.Course registry key decls distinct handled referenced)
    {types : List PlannedType} (h : resolution.plannedTypes = .ok types)
    (hmade : ∀ fresh, layOutAll resolution.reusedLayouts resolution.order = .ok fresh →
      List.Forall₂ (PlannedType.MadeFrom P) resolution.order fresh) :
    List.Forall₂ (fun decl planned => planned.StandsFor registry P (resolution.hashOf decl) decl)
      handled types := by
  unfold Resolution.plannedTypes at h
  obtain ⟨fresh, hf, h⟩ := bind_eq_ok_iff.1 h
  have hp := hmade fresh hf
  obtain rfl := Except.ok.inj h
  rw [hc.waves, List.filterMap_map]
  have hall : ∀ planned ∈ resolution.reusedTypes ++ fresh, ∃ decl ∈ handled,
      planned.StandsFor registry P (resolution.hashOf decl) decl := by
    intro planned hm
    rcases List.mem_append.1 hm with hm | hm
    · obtain ⟨decl, hd, htaken⟩ := hc.mem_reusedTypes.1 hm
      exact ⟨decl, hd, .inl htaken⟩
    · obtain ⟨resolved, hr, hmade⟩ := exists_of_mem_right hp hm
      rw [hc.parts.1] at hr
      obtain ⟨decl, hd, hnew, rfl⟩ := mem_newTypes.1 hr
      exact ⟨decl, hd, .inr ⟨hnew, hmade⟩⟩
  have hcover : ∀ decl ∈ handled, ∃ planned ∈ resolution.reusedTypes ++ fresh,
      planned.declaration = decl := by
    intro decl hd
    cases hdescriptor : registry.descriptorOfHash? (resolution.hashOf decl) with
    | some descriptor =>
      refine ⟨_, List.mem_append_left _ (hc.mem_reusedTypes.2 ⟨decl, hd, descriptor, ?_, rfl⟩), rfl⟩
      exact hdescriptor
    | none =>
      have hm : ⟨decl, resolution.hashOf decl⟩ ∈ resolution.order := by
        rw [hc.parts.1]
        exact mem_newTypes.2 ⟨decl, hd, hdescriptor, rfl⟩
      obtain ⟨planned, hplanned, hmade⟩ := exists_of_mem_left hp hm
      exact ⟨planned, List.mem_append_right _ hplanned, hmade.declaration⟩
  -- A name finds a type for the declaration of this name, since no two of them share one.
  refine forall₂_filterMap fun decl hd => ?_
  obtain ⟨planned, hplanned, hdecl⟩ := hcover decl hd
  have hsome : ((resolution.reusedTypes ++ fresh).find? (·.name == decl.name)).isSome := by
    rw [List.find?_isSome]
    exact ⟨planned, hplanned, by rw [PlannedType.name, hdecl, beq_self_eq_true]⟩
  obtain ⟨found, hfound⟩ := Option.isSome_iff_exists.1 hsome
  obtain ⟨other, ho, hstands⟩ := hall found (List.mem_of_find?_eq_some hfound)
  have hname : other.name = decl.name := by
    rw [← hstands.declaration]
    exact eq_of_beq (List.find?_some hfound :)
  obtain rfl := List.inj_on_of_nodup_map hc.names_nodup ho hd hname
  exact ⟨found, hfound, hstands⟩

/-! ## Plans of units -/

/-- A plan is made of what is read, resolved and laid out. -/
theorem plan_eq_ok_iff {unit : SourceUnit} {plan : Plan} :
    (unit.plan registry).result = .ok plan ↔
      ∃ contents shared resolution types, unit.read.result = .ok (contents, shared) ∧
        (resolve registry unit.key (SourceUnit.declarations contents shared)).result =
          .ok resolution ∧
        resolution.plannedTypes = .ok types ∧
        plan = { types, warnings := contents.warnings
                 anonymousBlocks := contents.anonymousBlocks } := by
  unfold SourceUnit.plan
  rw [Logged.result_bind_eq_ok_iff]
  constructor
  · rintro ⟨⟨contents, shared⟩, hread, h⟩
    rw [Logged.result_bind_eq_ok_iff] at h
    obtain ⟨resolution, hr, h⟩ := h
    rw [Logged.result_bind_eq_ok_iff] at h
    obtain ⟨types, ht, h⟩ := h
    exact ⟨contents, shared, resolution, types, hread, hr, ht, (Except.ok.inj h).symm⟩
  · rintro ⟨contents, shared, resolution, types, hread, hr, ht, rfl⟩
    refine ⟨(contents, shared), hread, ?_⟩
    refine Logged.result_bind_eq_ok_iff.2 ⟨resolution, hr, ?_⟩
    exact Logged.result_bind_eq_ok_iff.2 ⟨types, ht, rfl⟩

/-- What a plan that can be made consists of. -/
theorem plan_eq_ok {unit : SourceUnit} {plan : Plan}
    (h : (unit.plan registry).result = .ok plan) :
    ∃ contents shared resolution, unit.read.result = .ok (contents, shared) ∧
      (resolve registry unit.key (SourceUnit.declarations contents shared)).result =
        .ok resolution ∧
      resolution.plannedTypes = .ok plan.types := by
  obtain ⟨contents, shared, resolution, types, hread, hr, ht, rfl⟩ := plan_eq_ok_iff.1 h
  exact ⟨contents, shared, resolution, hread, hr, ht⟩

/-- What holds throughout the layouts of the registry, and of each layout that is made, holds throughout
the layouts of a plan. -/
theorem Sourced.throughout {P : StructLayout → Prop} {base : List StructLayout}
    {types : List PlannedType} (h : Sourced registry base types)
    (hk : ∀ hash descriptor, registry.descriptorOfHash? hash = some descriptor →
      descriptor.layout.Throughout P)
    (hf : ∀ planned ∈ types, planned.known = none → P planned.layout) :
    ∀ planned ∈ types, planned.layout.Throughout P := by
  have hstages : ∀ (types : List PlannedType) (available : List StructLayout),
      Staged available types → (∀ layout ∈ available, layout.Throughout P) →
      (∀ planned ∈ types, planned.IsFresh ∨ planned.IsKnown registry) →
      (∀ planned ∈ types, planned.known = none → P planned.layout) →
        ∀ planned ∈ types, planned.layout.Throughout P := by
    intro types
    induction types with
    | nil => simp
    | cons planned rest ih =>
      intro available hstaged havailable heach hfresh
      obtain ⟨hfirst, heach⟩ := List.forall_mem_cons.1 heach
      obtain ⟨hself, hfresh⟩ := List.forall_mem_cons.1 hfresh
      have hplanned : planned.layout.Throughout P := by
        rcases hfirst with hnew | ⟨descriptor, hash, -, hlayout, -, hd⟩
        · refine .intro (hself hnew.known) fun field hm inner hs => ?_
          exact havailable inner (hstaged.1 hnew.known field hm inner hs)
        · rw [hlayout]
          exact hk hash descriptor hd
      exact List.forall_mem_cons.2 ⟨hplanned, ih _ hstaged.2
        (List.forall_mem_cons.2 ⟨hplanned, havailable⟩) heach hfresh⟩
  refine hstages types base h.staged (fun layout hm => ?_) h.each hf
  obtain ⟨hash, descriptor, hd, rfl⟩ := h.base layout hm
  exact hk hash descriptor hd

end UniformLayout
