import UniformLayout.Resolution
import Mathlib.Data.List.Nodup

/-!
# The order of the waves

`resolveWaves` handles the pending declarations one after the other, each when its field types are
resolved. `resolveWaves_eq_ok` gives the order in which it does so: the result is a fold of
`Resolution.addDeclaration` over a permutation of the pending declarations (`Resolution.Handles`),
and the waves list their names in this order.

* `deduplicate_spec`: the declarations that are resolved are the first ones of their names.
* `resolveReferences_spec`: what the unit does not declare is taken from the registry.
* `addAll_split`: which declarations need a layout, and which are taken from the registry.
-/

namespace UniformLayout

/-! ## Copies -/

theorem addDistinct_eq_ok {key : String} {distinct after : List TypeDeclaration}
    {decl : TypeDeclaration} (h : (addDistinct key distinct decl).result = .ok after) :
    after = distinct ∧ (distinct.find? (·.name == decl.name)).isSome ∨
      after = distinct ++ [decl] ∧ distinct.find? (·.name == decl.name) = none := by
  unfold addDistinct at h
  split at h
  · rename_i hf
    right
    exact ⟨(Except.ok.inj h).symm, hf⟩
  · rename_i first hf
    split at h
    · left
      exact ⟨(Except.ok.inj h).symm, by rw [hf]; rfl⟩
    · cases h

theorem find?_name_eq {α : Type} {name : α → String} {list : List α} (hn : (list.map name).Nodup)
    {a : α} (hm : a ∈ list) : list.find? (name · == name a) = some a := by
  induction list with
  | nil => cases hm
  | cons first rest ih =>
    obtain ⟨hnew, hrest⟩ := List.nodup_cons.1 hn
    rw [List.find?_cons]
    rcases List.mem_cons.1 hm with rfl | hm
    · rw [beq_self_eq_true]
    · have hne : (name first == name a) = false := by
        rw [beq_eq_false_iff_ne]
        intro he
        exact hnew (he ▸ List.mem_map_of_mem hm)
      rw [hne]
      exact ih hrest hm

/-- The declarations that are kept are the first ones of their names. -/
structure FirstOfNames (decls distinct : List TypeDeclaration) : Prop where
  nodup : (distinct.map TypeDeclaration.name).Nodup
  find : ∀ name, distinct.find? (·.name == name) = decls.find? (·.name == name)

theorem firstOfNames_concat {decls distinct after : List TypeDeclaration} {decl : TypeDeclaration}
    {key : String} (h : FirstOfNames decls distinct)
    (ha : (addDistinct key distinct decl).result = .ok after) :
    FirstOfNames (decls ++ [decl]) after := by
  obtain ⟨hnodup, hfind⟩ := h
  rcases addDistinct_eq_ok ha with ⟨rfl, hsome⟩ | ⟨rfl, hnone⟩
  · refine ⟨hnodup, fun name => ?_⟩
    rw [List.find?_append, ← hfind]
    cases hn : after.find? (·.name == name) with
    | some first => rfl
    | none =>
      have hne : (decl.name == name) = false := by
        by_contra hc
        have he : decl.name = name := by simpa using hc
        rw [he, hn] at hsome
        cases hsome
      simp [hne]
  · have hnew : decl.name ∉ distinct.map TypeDeclaration.name := by
      intro hm
      obtain ⟨other, ho, he⟩ := List.mem_map.1 hm
      have := List.find?_eq_none.1 hnone other ho
      simp [he] at this
    constructor
    · rw [List.map_append, List.nodup_append]
      refine ⟨hnodup, List.nodup_singleton _, ?_⟩
      rintro name hm other ho rfl
      rw [List.map_singleton, List.mem_singleton] at ho
      exact hnew (ho ▸ hm)
    · intro name
      rw [List.find?_append, List.find?_append, hfind]

theorem deduplicate_spec {key : String} {decls distinct : List TypeDeclaration}
    (h : (deduplicate key decls).result = .ok distinct) : FirstOfNames decls distinct := by
  -- The induction is on the declarations that are still to come.
  have hfold : ∀ (rest before kept : List TypeDeclaration), FirstOfNames before kept →
      (rest.foldlM (addDistinct key) kept).result = .ok distinct →
        FirstOfNames (before ++ rest) distinct := by
    intro rest
    induction rest with
    | nil =>
      intro before kept hk hr
      obtain rfl : kept = distinct := Except.ok.inj hr
      rwa [List.append_nil]
    | cons decl rest ih =>
      intro before kept hk hr
      rw [List.foldlM_cons, Logged.result_bind_eq_ok_iff] at hr
      obtain ⟨after, ha, hr⟩ := hr
      have := ih (before ++ [decl]) after (firstOfNames_concat hk ha) hr
      rwa [List.append_assoc] at this
  exact hfold decls [] [] ⟨List.nodup_nil, fun _ => rfl⟩ h

/-! ## References -/

/-- What a resolution takes from the registry. -/
def ReusedType.DrawnFrom (entry : ReusedType) (registry : Registry) : Prop :=
  ∃ hash, registry.descriptorOfHash? hash = some entry.descriptor

/-- A resolution that holds nothing but types to which the unit refers. -/
structure Resolution.OnlyRefers (registry : Registry) (resolution : Resolution) : Prop where
  waves : resolution.waves = []
  order : resolution.order = []
  reused : ∀ entry ∈ resolution.reused, entry.declaration = none ∧ entry.DrawnFrom registry

/-- A name that is known adds nothing, and for another one the registry's answer is added. -/
theorem resolveReference_eq_ok {registry : Registry} {key name : String} {owner : TypeDeclaration}
    {before after : Resolution} (h : resolveReference registry key owner before name = .ok after) :
    (before.knows name ∧ after = before) ∨ ¬ before.knows name ∧ ∃ identity descriptor,
      registry.resolveDeclaredIn? name key = some identity ∧
      registry.descriptorOfHash? identity.contentHash = some descriptor ∧
      after = { before with
        hashes := before.hashes.insert name descriptor.identity.contentHash
        reused := before.reused ++ [{ name, descriptor, declaration := none }] } := by
  unfold resolveReference at h
  split at h
  · rename_i hk
    exact .inl ⟨hk, (Except.ok.inj h).symm⟩
  · rename_i hk
    dsimp only at h
    split at h
    · cases h
    · rename_i descriptor hd
      obtain ⟨identity, hi, hd⟩ := Option.bind_eq_some_iff.1 hd
      exact .inr ⟨hk, identity, descriptor, hi, hd, (Except.ok.inj h).symm⟩

theorem resolveReference_spec {registry : Registry} {key name : String} {owner : TypeDeclaration}
    {resolution after : Resolution} (h : resolution.OnlyRefers registry)
    (ha : resolveReference registry key owner resolution name = .ok after) :
    after.OnlyRefers registry := by
  rcases resolveReference_eq_ok ha with ⟨-, rfl⟩ | ⟨-, identity, descriptor, -, hd, rfl⟩
  · exact h
  · refine ⟨h.waves, h.order, fun entry hm => ?_⟩
    rcases List.mem_append.1 hm with hm | hm
    · exact h.reused entry hm
    · rw [List.mem_singleton.1 hm]
      exact ⟨rfl, _, hd⟩

/-- What holds of an empty resolution and is kept by each reference that the unit does not declare, holds
of the resolution in the end. -/
theorem resolveReferences_induction {registry : Registry} {key : String}
    {decls : List TypeDeclaration} {resolution : Resolution} {P : Resolution → Prop} (start : P {})
    (step : ∀ owner ∈ decls, ∀ name ∈ owner.dependencies, name ∉ decls.map TypeDeclaration.name →
      ∀ before after, P before → resolveReference registry key owner before name = .ok after →
        P after)
    (h : resolveReferences registry key decls = .ok resolution) : P resolution := by
  unfold resolveReferences at h
  dsimp only at h
  have hfold : ∀ (references : List (TypeDeclaration × String)) (before : Resolution),
      (∀ reference ∈ references, reference.1 ∈ decls ∧ reference.2 ∈ reference.1.dependencies ∧
        reference.2 ∉ decls.map TypeDeclaration.name) →
      P before →
      references.foldlM (fun resolution reference =>
        resolveReference registry key reference.1 resolution reference.2) before = .ok resolution →
        P resolution := by
    intro references
    induction references with
    | nil =>
      intro before _ hb hr
      obtain rfl : before = resolution := Except.ok.inj hr
      exact hb
    | cons reference rest ih =>
      intro before hall hb hr
      obtain ⟨⟨howner, hname, hnot⟩, hrest⟩ := List.forall_mem_cons.1 hall
      rw [List.foldlM_cons] at hr
      obtain ⟨after, ha, hr⟩ := bind_eq_ok_iff.1 hr
      exact ih after hrest (step _ howner _ hname hnot _ _ hb ha) hr
  refine hfold _ {} (fun reference hm => ?_) start h
  obtain ⟨decl, hd, hm⟩ := List.mem_flatMap.1 hm
  obtain ⟨name, hname, rfl⟩ := List.mem_map.1 hm
  obtain ⟨hdependency, hnot⟩ := List.mem_filter.1 hname
  exact ⟨hd, hdependency, by simpa using hnot⟩

theorem resolveReferences_spec {registry : Registry} {key : String} {decls : List TypeDeclaration}
    {resolution : Resolution} (h : resolveReferences registry key decls = .ok resolution) :
    resolution.OnlyRefers registry :=
  resolveReferences_induction ⟨rfl, rfl, by simp⟩
    (fun _ _ _ _ _ _ _ hb ha => resolveReference_spec hb ha) h

/-! ## Waves -/

/-- The resolution after the declarations, one after the other. -/
def Resolution.addAll (registry : Registry) (resolution : Resolution)
    (decls : List TypeDeclaration) : Resolution :=
  decls.foldl (Resolution.addDeclaration registry) resolution

/-- Each declaration comes when all its field types are resolved. -/
def Resolution.Handles (registry : Registry) (resolution : Resolution) :
    List TypeDeclaration → Prop
  | [] => True
  | decl :: rest =>
    resolution.isReady decl ∧ (resolution.addDeclaration registry decl).Handles registry rest

variable {registry : Registry}

theorem hashes_addDeclaration (registry : Registry) (resolution : Resolution)
    (decl : TypeDeclaration) : (resolution.addDeclaration registry decl).hashes =
      resolution.hashes.insert decl.name (decl.contentHash resolution.hashes) := by
  unfold Resolution.addDeclaration
  dsimp only
  split
  · rfl
  · rfl

/-- A structure that the registry has not generated gets a layout. -/
theorem addDeclaration_of_new {resolution : Resolution} {decl : TypeDeclaration}
    (h : registry.descriptorOfHash? (decl.contentHash resolution.hashes) = none) :
    (resolution.addDeclaration registry decl).order =
        resolution.order ++ [⟨decl, decl.contentHash resolution.hashes⟩] ∧
      (resolution.addDeclaration registry decl).reused = resolution.reused := by
  unfold Resolution.addDeclaration
  dsimp only
  rw [h]
  exact ⟨rfl, rfl⟩

/-- A structure that the registry has generated is taken from there. -/
theorem addDeclaration_of_generated {resolution : Resolution} {decl : TypeDeclaration}
    {descriptor : LayoutDescriptor}
    (h : registry.descriptorOfHash? (decl.contentHash resolution.hashes) = some descriptor) :
    (resolution.addDeclaration registry decl).order = resolution.order ∧
      (resolution.addDeclaration registry decl).reused =
        resolution.reused ++ [{ name := decl.name, descriptor, declaration := some decl }] := by
  unfold Resolution.addDeclaration
  dsimp only
  rw [h]
  exact ⟨rfl, rfl⟩

theorem knows_addDeclaration {resolution : Resolution} {decl : TypeDeclaration} {name : String} :
    (resolution.addDeclaration registry decl).knows name ↔
      name = decl.name ∨ resolution.knows name := by
  unfold Resolution.knows
  rw [hashes_addDeclaration]
  by_cases he : name = decl.name
  · subst he
    rw [Table.lookup_insert_self]
    simp
  · rw [Table.lookup_insert_of_ne he]
    simp [he]

theorem isReady_mono {before after : Resolution}
    (h : ∀ name, before.knows name → after.knows name) {decl : TypeDeclaration}
    (hd : before.isReady decl) : after.isReady decl := by
  unfold Resolution.isReady at hd ⊢
  rw [List.all_eq_true] at hd ⊢
  intro name hm
  exact h name (hd name hm)

/-- Declarations that are all ready may be handled in any order. -/
theorem handles_of_ready {resolution : Resolution} {ready : List TypeDeclaration}
    (h : ∀ decl ∈ ready, resolution.isReady decl) : resolution.Handles registry ready := by
  induction ready generalizing resolution with
  | nil => trivial
  | cons decl rest ih =>
    refine ⟨h decl List.mem_cons_self, ih fun other hm => ?_⟩
    apply isReady_mono _ (h other (List.mem_cons_of_mem _ hm))
    intro name hn
    exact knows_addDeclaration.2 (Or.inr hn)

theorem handles_append {resolution : Resolution} {first second : List TypeDeclaration}
    (hf : resolution.Handles registry first)
    (hs : (resolution.addAll registry first).Handles registry second) :
    resolution.Handles registry (first ++ second) := by
  induction first generalizing resolution with
  | nil => exact hs
  | cons decl rest ih => exact ⟨hf.1, ih hf.2 hs⟩

/-- The waves have no part in resolving a declaration. -/
theorem addDeclaration_waves (registry : Registry) (resolution : Resolution)
    (decl : TypeDeclaration) (waves : List (List String)) :
    Resolution.addDeclaration registry { resolution with waves } decl =
      { resolution.addDeclaration registry decl with waves } := by
  unfold Resolution.addDeclaration
  dsimp only
  split
  · rfl
  · rfl

theorem addAll_waves (registry : Registry) (resolution : Resolution)
    (decls : List TypeDeclaration) (waves : List (List String)) :
    Resolution.addAll registry { resolution with waves } decls =
      { resolution.addAll registry decls with waves } := by
  induction decls generalizing resolution with
  | nil => rfl
  | cons decl rest ih =>
    show Resolution.addAll registry (Resolution.addDeclaration registry _ decl) rest = _
    rw [addDeclaration_waves]
    exact ih _

theorem waves_addAll (registry : Registry) (resolution : Resolution)
    (decls : List TypeDeclaration) :
    (resolution.addAll registry decls).waves = resolution.waves := by
  show (Resolution.addAll registry { resolution with waves := resolution.waves } decls).waves = _
  rw [addAll_waves]

theorem handles_waves {resolution : Resolution} {decls : List TypeDeclaration}
    {waves : List (List String)} :
    Resolution.Handles registry { resolution with waves } decls ↔
      resolution.Handles registry decls := by
  induction decls generalizing resolution with
  | nil => exact Iff.rfl
  | cons decl rest ih =>
    unfold Resolution.Handles
    rw [addDeclaration_waves, ih]
    rfl

/-- The waves handle the pending declarations in some order. The induction follows the waves. -/
theorem resolveWaves_eq_ok {key : String} {resolution after : Resolution}
    {pending : List TypeDeclaration}
    (h : resolveWaves registry key resolution pending = .ok after) :
    ∃ handled : List TypeDeclaration, handled.Perm pending ∧
      resolution.Handles registry handled ∧
      after.waves.flatten = resolution.waves.flatten ++ handled.map TypeDeclaration.name ∧
      after = { resolution.addAll registry handled with waves := after.waves } := by
  induction hn : pending.length using Nat.strongRecOn generalizing resolution pending with
  | _ n ih =>
    subst hn
    rw [resolveWaves] at h
    split at h
    · rename_i hempty
      obtain rfl := Except.ok.inj h
      obtain rfl := List.isEmpty_iff.1 hempty
      exact ⟨[], List.Perm.refl _, trivial, by simp, rfl⟩
    · split at h
      · cases h
      · rename_i hready
        obtain ⟨handled, hperm, hhandles, hwaves, hafter⟩ :=
          ih _ (blocked_length_lt hready) h rfl
        refine ⟨resolution.ready pending ++ handled, ?_, ?_, ?_, ?_⟩
        · exact (hperm.append_left _).trans (List.filter_append_perm _ _)
        · apply handles_append
          · exact handles_of_ready fun decl hm => (List.mem_filter.1 hm).2
          · exact handles_waves.1 hhandles
        · rw [hwaves]
          unfold Resolution.addWave
          dsimp only
          rw [List.flatten_append, List.flatten_singleton, List.map_append, List.append_assoc]
          congr 2
          exact waves_addAll registry resolution _
        · rw [hafter]
          unfold Resolution.addWave
          dsimp only
          rw [addAll_waves]
          show _ = { Resolution.addAll registry resolution (_ ++ _) with waves := after.waves }
          unfold Resolution.addAll
          rw [List.foldl_append]

/-- How a unit was resolved: which declarations were kept, what they refer to, and in which order
they were handled. -/
structure Resolution.Course (registry : Registry) (key : String) (decls : List TypeDeclaration)
    (resolution : Resolution) (distinct handled : List TypeDeclaration) (referenced : Resolution) :
    Prop where
  first : FirstOfNames decls distinct
  references : resolveReferences registry key distinct = .ok referenced
  perm : handled.Perm distinct
  handles : referenced.Handles registry handled
  waves : resolution.waves.flatten = handled.map TypeDeclaration.name
  result : resolution = { referenced.addAll registry handled with waves := resolution.waves }

theorem resolve_eq_ok_iff {key : String} {decls : List TypeDeclaration} {resolution : Resolution} :
    (resolve registry key decls).result = .ok resolution ↔
      ∃ distinct referenced, (deduplicate key decls).result = .ok distinct ∧
        resolveReferences registry key distinct = .ok referenced ∧
        resolveWaves registry key referenced distinct = .ok resolution := by
  unfold resolve
  rw [Logged.result_bind_eq_ok_iff]
  constructor
  · rintro ⟨distinct, hd, h⟩
    rw [Logged.result_bind_eq_ok_iff] at h
    obtain ⟨referenced, hr, hw⟩ := h
    exact ⟨distinct, referenced, hd, hr, hw⟩
  · rintro ⟨distinct, referenced, hd, hr, hw⟩
    exact ⟨distinct, hd, Logged.result_bind_eq_ok_iff.2 ⟨referenced, hr, hw⟩⟩

/-- The course of resolving the declarations that are left once copies are dropped. -/
theorem resolve_course {key : String} {decls : List TypeDeclaration} {resolution : Resolution}
    (h : (resolve registry key decls).result = .ok resolution) :
    ∃ distinct handled referenced, (deduplicate key decls).result = .ok distinct ∧
      resolution.Course registry key decls distinct handled referenced := by
  obtain ⟨distinct, referenced, hd, hr, hw⟩ := resolve_eq_ok_iff.1 h
  obtain ⟨handled, hperm, hhandles, hwaves, hresult⟩ := resolveWaves_eq_ok hw
  refine ⟨distinct, handled, referenced, hd, deduplicate_spec hd, hr, hperm, hhandles, ?_, hresult⟩
  rw [hwaves, (resolveReferences_spec hr).waves]
  rfl

theorem resolve_eq_ok {key : String} {decls : List TypeDeclaration} {resolution : Resolution}
    (h : (resolve registry key decls).result = .ok resolution) :
    ∃ distinct handled referenced,
      resolution.Course registry key decls distinct handled referenced := by
  obtain ⟨distinct, handled, referenced, -, hc⟩ := resolve_course h
  exact ⟨distinct, handled, referenced, hc⟩

theorem Resolution.Course.names_nodup {key : String} {decls distinct handled : List TypeDeclaration}
    {resolution referenced : Resolution}
    (h : resolution.Course registry key decls distinct handled referenced) :
    (handled.map TypeDeclaration.name).Nodup :=
  (h.perm.map _).nodup_iff.2 h.first.nodup

/-- A declaration gets a layout, or is taken from the registry, and not both. -/
theorem addAll_split {resolution : Resolution} {decls : List TypeDeclaration}
    (hn : (decls.map TypeDeclaration.name).Nodup) :
    ∃ fresh : List TypeDeclaration, fresh.Sublist decls ∧
      (resolution.addAll registry decls).order.map ResolvedType.declaration =
        resolution.order.map ResolvedType.declaration ++ fresh ∧
      ∀ entry ∈ (resolution.addAll registry decls).reused, entry ∈ resolution.reused ∨
        entry.DrawnFrom registry ∧ ∃ decl ∈ decls, entry.declaration = some decl ∧
          decl.name ∉ fresh.map TypeDeclaration.name := by
  induction decls generalizing resolution with
  | nil => exact ⟨[], List.Sublist.refl _, (List.append_nil _).symm, fun entry hm => Or.inl hm⟩
  | cons decl rest ih =>
    rw [List.map_cons, List.nodup_cons] at hn
    obtain ⟨hnew, hn⟩ := hn
    obtain ⟨fresh, hsub, horder, hreused⟩ := @ih (resolution.addDeclaration registry decl) hn
    have hnot : decl.name ∉ fresh.map TypeDeclaration.name :=
      fun hm => hnew ((hsub.map _).subset hm)
    -- Whatever the rest adds, it adds to what `decl` has made of the resolution.
    have hlater : ∀ entry ∈ ((resolution.addDeclaration registry decl).addAll registry rest).reused,
        entry ∈ (resolution.addDeclaration registry decl).reused ∨
          entry.DrawnFrom registry ∧ ∃ other ∈ decl :: rest, entry.declaration = some other ∧
            other.name ∉ decl.name :: fresh.map TypeDeclaration.name := by
      intro entry hm
      rcases hreused entry hm with hm | ⟨hdrawn, other, ho, he, hother⟩
      · exact Or.inl hm
      · refine Or.inr ⟨hdrawn, other, List.mem_cons_of_mem _ ho, he, ?_⟩
        rw [List.mem_cons, not_or]
        refine ⟨fun heq => ?_, hother⟩
        exact hnew (heq ▸ List.mem_map_of_mem ho)
    unfold Resolution.addAll at horder hlater ⊢
    rw [List.foldl_cons]
    cases hd : registry.descriptorOfHash? (decl.contentHash resolution.hashes) with
    | none =>
      have hadd := addDeclaration_of_new hd
      refine ⟨decl :: fresh, hsub.cons_cons decl, ?_, ?_⟩
      · rw [horder, hadd.1, List.map_append, List.append_assoc]
        rfl
      · intro entry hm
        rw [← hadd.2]
        exact hlater entry hm
    | some descriptor =>
      have hadd := addDeclaration_of_generated hd
      refine ⟨fresh, hsub.cons decl, ?_, ?_⟩
      · rw [horder, hadd.1]
      · intro entry hm
        rcases hlater entry hm with hm | ⟨hdrawn, other, ho, he, hother⟩
        · rw [hadd.2, List.mem_append, List.mem_singleton] at hm
          rcases hm with hm | rfl
          · exact Or.inl hm
          · exact Or.inr ⟨⟨_, hd⟩, decl, List.mem_cons_self, rfl, hnot⟩
        · refine Or.inr ⟨hdrawn, other, ho, he, fun hm => hother ?_⟩
          exact List.mem_cons_of_mem _ hm

/-- The declarations that get a layout are handled in their order; everything else comes from the
registry, and stands for no declaration that gets a layout. -/
theorem Resolution.Course.split {key : String} {decls distinct handled : List TypeDeclaration}
    {resolution referenced : Resolution}
    (h : resolution.Course registry key decls distinct handled referenced) :
    (resolution.order.map ResolvedType.declaration).Sublist handled ∧
      ∀ entry ∈ resolution.reused, entry.DrawnFrom registry ∧
        ∀ decl, entry.declaration = some decl →
          decl.name ∉ (resolution.order.map ResolvedType.declaration).map TypeDeclaration.name := by
  have hrefers := resolveReferences_spec h.references
  obtain ⟨fresh, hsub, horder, hreused⟩ := @addAll_split registry referenced handled h.names_nodup
  rw [hrefers.order, List.map_nil, List.nil_append] at horder
  have hfresh : resolution.order.map ResolvedType.declaration = fresh :=
    (congrArg (·.order.map ResolvedType.declaration) h.result).trans horder
  have hlist : resolution.reused = (referenced.addAll registry handled).reused :=
    (congrArg (·.reused) h.result).trans rfl
  rw [hfresh, hlist]
  refine ⟨hsub, fun entry hm => ?_⟩
  rcases hreused entry hm with hm | ⟨hdrawn, decl, -, he, hnew⟩
  · obtain ⟨hnone, hdrawn⟩ := hrefers.reused entry hm
    refine ⟨hdrawn, fun decl he => ?_⟩
    rw [hnone] at he
    cases he
  · refine ⟨hdrawn, fun other ho => ?_⟩
    obtain rfl := Option.some.inj (he.symm.trans ho)
    exact hnew

end UniformLayout
