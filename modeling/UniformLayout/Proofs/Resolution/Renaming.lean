import UniformLayout.Proofs.Resolution.Hashes
import Mathlib.Data.List.Find

/-!
# Renaming the aggregates of a unit

A unit whose aggregates get other names is resolved in the same way as before. The two resolutions
run side by side, over registries that need not agree: at each step a declaration is known under its
new name with the hash that it has under its old one (`Tracks`).

* `deduplicate_rename`: the same declarations are copies.
* `resolveWaves_rename`: the waves go on together.

Main statement: `resolve_rename`.
-/

namespace UniformLayout

/-- The field after a renaming of the aggregates. -/
def FieldDeclaration.rename (ρ : String → String) (field : FieldDeclaration) : FieldDeclaration :=
  if field.baseType?.isSome then field else { field with typeName := ρ field.typeName }

/-- The declaration after a renaming of the aggregates. -/
def TypeDeclaration.rename (ρ : String → String) (decl : TypeDeclaration) : TypeDeclaration :=
  { decl with name := ρ decl.name, fields := decl.fields.map (FieldDeclaration.rename ρ) }

/-- The new names are told apart as the old ones are, and none of them is a base type. -/
structure Renames (ρ : String → String) (decls : List TypeDeclaration) : Prop where
  injective : ∀ a ∈ decls, ∀ b ∈ decls, ρ a.name = ρ b.name → a.name = b.name
  userNames : ∀ a ∈ decls, BaseType.ofName? (ρ a.name) = none

variable {ρ : String → String} {decls : List TypeDeclaration}

/-! ## Fields -/

theorem rename_of_base {field : FieldDeclaration} (h : field.baseType?.isSome) :
    field.rename ρ = field := by
  unfold FieldDeclaration.rename
  rw [if_pos h]

theorem typeName_rename {field : FieldDeclaration} (h : field.baseType? = none) :
    (field.rename ρ).typeName = ρ field.typeName := by
  unfold FieldDeclaration.rename
  rw [h]
  rfl

/-- An aggregate type of a field is one of the declared names. -/
theorem SelfContained.exists_decl (hu : SelfContained decls) {decl : TypeDeclaration}
    (hd : decl ∈ decls) {field : FieldDeclaration} (hf : field ∈ decl.fields)
    (hb : field.baseType? = none) : ∃ inner ∈ decls, inner.name = field.typeName := by
  obtain ⟨inner, hi⟩ := Option.isSome_iff_exists.1 (hu.covered decl hd field hf hb)
  exact ⟨inner, mem_of_declared hi, name_of_declared hi⟩

theorem Renames.baseType?_rename (hr : Renames ρ decls) (hu : SelfContained decls)
    {decl : TypeDeclaration} (hd : decl ∈ decls) {field : FieldDeclaration}
    (hf : field ∈ decl.fields) : (field.rename ρ).baseType? = field.baseType? := by
  cases hb : field.baseType? with
  | some type =>
    rw [rename_of_base (by rw [hb]; rfl), hb]
  | none =>
    obtain ⟨inner, hi, he⟩ := hu.exists_decl hd hf hb
    unfold FieldDeclaration.baseType?
    rw [typeName_rename hb, ← he, hr.userNames inner hi]

theorem Renames.typeName_inj (hr : Renames ρ decls) (hu : SelfContained decls)
    {a b : TypeDeclaration} (ha : a ∈ decls) (hb : b ∈ decls) {field other : FieldDeclaration}
    (hf : field ∈ a.fields) (ho : other ∈ b.fields) :
    (field.rename ρ).typeName = (other.rename ρ).typeName ↔ field.typeName = other.typeName := by
  constructor
  · intro h
    have hbase : field.baseType? = other.baseType? := by
      rw [← hr.baseType?_rename hu ha hf, ← hr.baseType?_rename hu hb ho]
      exact congrArg BaseType.ofName? h
    cases hfield : field.baseType? with
    | some type =>
      rwa [rename_of_base (by rw [hfield]; rfl), rename_of_base (by rw [← hbase, hfield]; rfl)] at h
    | none =>
      have hother : other.baseType? = none := hbase.symm.trans hfield
      rw [typeName_rename hfield, typeName_rename hother] at h
      obtain ⟨x, hx, hxn⟩ := hu.exists_decl ha hf hfield
      obtain ⟨y, hy, hyn⟩ := hu.exists_decl hb ho hother
      rw [← hxn, ← hyn] at h ⊢
      exact hr.injective x hx y hy h
  · intro h
    have hbase : field.baseType? = other.baseType? := congrArg BaseType.ofName? h
    cases hfield : field.baseType? with
    | some type =>
      rwa [rename_of_base (by rw [hfield]; rfl), rename_of_base (by rw [← hbase, hfield]; rfl)]
    | none =>
      rw [typeName_rename hfield, typeName_rename (hbase.symm.trans hfield), h]

theorem name_rename (field : FieldDeclaration) : (field.rename ρ).name = field.name := by
  unfold FieldDeclaration.rename
  split
  · rfl
  · rfl

theorem arrayLength_rename (field : FieldDeclaration) :
    (field.rename ρ).arrayLength = field.arrayLength := by
  unfold FieldDeclaration.rename
  split
  · rfl
  · rfl

theorem qualifiers_rename (field : FieldDeclaration) :
    (field.rename ρ).qualifiers = field.qualifiers := by
  unfold FieldDeclaration.rename
  split
  · rfl
  · rfl

/-! ## Copies -/

theorem Renames.sameShape_rename (hr : Renames ρ decls) (hu : SelfContained decls)
    {a b : TypeDeclaration} (ha : a ∈ decls) (hb : b ∈ decls) :
    (a.rename ρ).sameShape (b.rename ρ) = a.sameShape b := by
  have hfields : ∀ pair ∈ a.fields.zip b.fields,
      (pair.1.rename ρ).sameShape (pair.2.rename ρ) = pair.1.sameShape pair.2 := by
    intro pair hm
    obtain ⟨hf, ho⟩ := List.of_mem_zip hm
    unfold FieldDeclaration.sameShape
    rw [name_rename, name_rename, arrayLength_rename, arrayLength_rename]
    have htype : ((pair.1.rename ρ).typeName == (pair.2.rename ρ).typeName) =
        (pair.1.typeName == pair.2.typeName) := by
      rw [Bool.eq_iff_iff, beq_iff_eq, beq_iff_eq]
      exact hr.typeName_inj hu ha hb hf ho
    rw [htype]
  unfold TypeDeclaration.sameShape TypeDeclaration.rename
  dsimp only
  rw [List.length_map, List.length_map, List.zip_map, List.all_map]
  congr 1
  rw [Bool.eq_iff_iff, List.all_eq_true, List.all_eq_true]
  exact forall₂_congr fun pair hm => Bool.eq_iff_iff.1 (hfields pair hm)

/-- A declared name is found where its new name is. -/
theorem Renames.find?_rename (hr : Renames ρ decls) {kept : List TypeDeclaration}
    (hk : ∀ other ∈ kept, other ∈ decls) {decl : TypeDeclaration} (hd : decl ∈ decls) :
    (kept.map (TypeDeclaration.rename ρ)).find? (·.name == ρ decl.name) =
      (kept.find? (·.name == decl.name)).map (TypeDeclaration.rename ρ) := by
  rw [List.find?_map]
  congr 1
  apply List.find?_congr
  intro other ho
  show (ρ other.name == ρ decl.name) = _
  rw [Bool.eq_iff_iff, beq_iff_eq, beq_iff_eq]
  exact ⟨hr.injective other (hk other ho) decl hd, congrArg ρ⟩

theorem Renames.addDistinct_rename (hr : Renames ρ decls) (hu : SelfContained decls)
    {kept after : List TypeDeclaration} (hk : ∀ other ∈ kept, other ∈ decls)
    {decl : TypeDeclaration} (hd : decl ∈ decls) {key : String} (newKey : String)
    (h : (addDistinct key kept decl).result = .ok after) :
    (addDistinct newKey (kept.map (TypeDeclaration.rename ρ)) (decl.rename ρ)).result =
      .ok (after.map (TypeDeclaration.rename ρ)) := by
  have hfind := hr.find?_rename hk hd
  unfold addDistinct at h ⊢
  rw [show (decl.rename ρ).name = ρ decl.name from rfl, hfind]
  cases hf : kept.find? (·.name == decl.name) with
  | none =>
    rw [hf] at h
    obtain rfl := Except.ok.inj h
    rw [List.map_append]
    rfl
  | some first =>
    rw [hf] at h
    have hfirst : first ∈ decls := hk first (List.mem_of_find?_eq_some hf)
    dsimp only [Option.map_some] at h ⊢
    rw [hr.sameShape_rename hu hfirst hd]
    cases hs : first.sameShape decl with
    | true =>
      rw [hs] at h
      obtain rfl : kept = after := Except.ok.inj h
      rfl
    | false =>
      rw [hs] at h
      cases h

theorem Renames.deduplicate_rename (hr : Renames ρ decls) (hu : SelfContained decls)
    {distinct : List TypeDeclaration} {key : String} (newKey : String)
    (h : (deduplicate key decls).result = .ok distinct) :
    (deduplicate newKey (decls.map (TypeDeclaration.rename ρ))).result =
      .ok (distinct.map (TypeDeclaration.rename ρ)) := by
  -- The induction is on the declarations that are still to come.
  have hfold : ∀ (rest kept : List TypeDeclaration), (∀ other ∈ rest, other ∈ decls) →
      (∀ other ∈ kept, other ∈ decls) →
      (rest.foldlM (addDistinct key) kept).result = .ok distinct →
        ((rest.map (TypeDeclaration.rename ρ)).foldlM (addDistinct newKey)
          (kept.map (TypeDeclaration.rename ρ))).result =
            .ok (distinct.map (TypeDeclaration.rename ρ)) := by
    intro rest
    induction rest with
    | nil =>
      intro kept _ _ h
      obtain rfl : kept = distinct := Except.ok.inj h
      rfl
    | cons decl rest ih =>
      intro kept hrest hk h
      obtain ⟨hd, hrest⟩ := List.forall_mem_cons.1 hrest
      rw [List.foldlM_cons, Logged.result_bind_eq_ok_iff] at h
      obtain ⟨after, ha, h⟩ := h
      have hafter : ∀ other ∈ after, other ∈ decls := by
        intro other ho
        rcases addDistinct_eq_ok ha with ⟨rfl, -⟩ | ⟨rfl, -⟩
        · exact hk other ho
        · rcases List.mem_append.1 ho with ho | ho
          · exact hk other ho
          · rwa [List.mem_singleton.1 ho]
      rw [List.map_cons, List.foldlM_cons, Logged.result_bind_eq_ok_iff]
      exact ⟨_, hr.addDistinct_rename hu hk hd newKey ha, ih after hrest hafter h⟩
  exact hfold decls [] (fun _ hm => hm) (by simp) h

/-! ## Waves -/

/-- The declarations are known under their new names with the hashes that they have under their old
ones. -/
structure Tracks (ρ : String → String) (decls : List TypeDeclaration)
    (resolution renamed : Resolution) : Prop where
  user : ∀ decl ∈ decls,
    renamed.hashes.lookup (ρ decl.name) = resolution.hashes.lookup decl.name
  base : ∀ name, (BaseType.ofName? name).isSome →
    resolution.hashes.lookup name = none ∧ renamed.hashes.lookup name = none

/-- A declaration is ready when its aggregate field types are known. -/
theorem isReady_iff {resolution : Resolution} {decl : TypeDeclaration} :
    resolution.isReady decl ↔
      ∀ field ∈ decl.fields, field.baseType? = none → resolution.knows field.typeName := by
  unfold Resolution.isReady
  rw [List.all_eq_true]
  constructor
  · intro h field hf hb
    exact h field.typeName (mem_dependencies.2 ⟨field, hf, hb, rfl⟩)
  · intro h name hm
    obtain ⟨field, hf, hb, rfl⟩ := mem_dependencies.1 hm
    exact h field hf hb

section

variable {resolution renamed : Resolution} (ht : Tracks ρ decls resolution renamed)
  (hr : Renames ρ decls) (hu : SelfContained decls)

include ht hu

/-- The field types have the same hashes. -/
theorem Tracks.lookup_rename {decl : TypeDeclaration} (hd : decl ∈ decls)
    {field : FieldDeclaration} (hf : field ∈ decl.fields) :
    renamed.hashes.lookup (field.rename ρ).typeName = resolution.hashes.lookup field.typeName := by
  cases hb : field.baseType? with
  | some type =>
    have hbase : (BaseType.ofName? field.typeName).isSome := by
      rw [← FieldDeclaration.baseType?, hb]
      rfl
    rw [rename_of_base (by rw [hb]; rfl), (ht.base _ hbase).1, (ht.base _ hbase).2]
  | none =>
    obtain ⟨inner, hi, he⟩ := hu.exists_decl hd hf hb
    rw [typeName_rename hb, ← he]
    exact ht.user inner hi

/-- A declaration whose field types are known has the same hash. -/
theorem Tracks.contentHash_rename {decl : TypeDeclaration} (hd : decl ∈ decls)
    (hready : resolution.isReady decl) :
    (decl.rename ρ).contentHash renamed.hashes = decl.contentHash resolution.hashes := by
  have hprint : ∀ field ∈ decl.fields,
      TypeDeclaration.fieldPrint renamed.hashes (field.rename ρ) =
        TypeDeclaration.fieldPrint resolution.hashes field := by
    intro field hf
    have htype : (renamed.hashes.lookup (field.rename ρ).typeName).getD (field.rename ρ).typeName =
        (resolution.hashes.lookup field.typeName).getD field.typeName := by
      rw [ht.lookup_rename hu hd hf]
      cases hb : field.baseType? with
      | some type => rw [rename_of_base (by rw [hb]; rfl)]
      | none =>
        obtain ⟨hash, hh⟩ := Option.isSome_iff_exists.1 (isReady_iff.1 hready field hf hb)
        rw [hh]
        rfl
    unfold TypeDeclaration.fieldPrint
    rw [htype, name_rename, arrayLength_rename, qualifiers_rename]
  unfold TypeDeclaration.contentHash TypeDeclaration.fingerprint
  have hprints : (decl.rename ρ).fields.map (TypeDeclaration.fieldPrint renamed.hashes) =
      decl.fields.map (TypeDeclaration.fieldPrint resolution.hashes) := by
    show (decl.fields.map _).map _ = _
    rw [List.map_map]
    exact List.map_congr_left hprint
  rw [hprints]
  rfl

include hr

theorem Tracks.isReady_rename {decl : TypeDeclaration} (hd : decl ∈ decls) :
    renamed.isReady (decl.rename ρ) = resolution.isReady decl := by
  rw [Bool.eq_iff_iff, isReady_iff, isReady_iff]
  unfold TypeDeclaration.rename
  rw [List.forall_mem_map]
  refine forall₂_congr fun field hf => ?_
  rw [hr.baseType?_rename hu hd hf]
  unfold Resolution.knows
  rw [ht.lookup_rename hu hd hf]

theorem Tracks.addDeclaration {decl : TypeDeclaration} (hd : decl ∈ decls)
    (hready : resolution.isReady decl) (registry newRegistry : Registry) :
    Tracks ρ decls (resolution.addDeclaration registry decl)
      (renamed.addDeclaration newRegistry (decl.rename ρ)) := by
  have hhash := ht.contentHash_rename hu hd hready
  refine ⟨fun other ho => ?_, fun name hb => ?_⟩
  · rw [hashes_addDeclaration, hashes_addDeclaration, hhash]
    show (Table.insert (ρ decl.name) _ _).lookup _ = _
    by_cases he : other.name = decl.name
    · rw [he, Table.lookup_insert_self, Table.lookup_insert_self]
    · have hne : ρ other.name ≠ ρ decl.name := fun h => he (hr.injective other ho decl hd h)
      rw [Table.lookup_insert_of_ne he, Table.lookup_insert_of_ne hne]
      exact ht.user other ho
  · rw [hashes_addDeclaration, hashes_addDeclaration]
    show _ ∧ (Table.insert (ρ decl.name) _ _).lookup _ = _
    have hold : name ≠ decl.name := by
      rintro rfl
      rw [hu.userNames decl hd] at hb
      cases hb
    have hnew : name ≠ ρ decl.name := by
      rintro rfl
      rw [hr.userNames decl hd] at hb
      cases hb
    rw [Table.lookup_insert_of_ne hold, Table.lookup_insert_of_ne hnew]
    exact ht.base name hb

end

section

variable {registry : Registry} (hr : Renames ρ decls) (hu : SelfContained decls)
  (newRegistry : Registry)

include hr hu

theorem Tracks.addAll {resolution renamed : Resolution} (ht : Tracks ρ decls resolution renamed)
    {handled : List TypeDeclaration} (hd : ∀ decl ∈ handled, decl ∈ decls)
    (hh : resolution.Handles registry handled) :
    Tracks ρ decls (resolution.addAll registry handled)
      (renamed.addAll newRegistry (handled.map (TypeDeclaration.rename ρ))) := by
  induction handled generalizing resolution renamed with
  | nil => exact ht
  | cons decl rest ih =>
    obtain ⟨hdecl, hrest⟩ := List.forall_mem_cons.1 hd
    exact ih (ht.addDeclaration hr hu hdecl hh.1 registry newRegistry) hrest hh.2

theorem Tracks.ready_rename {resolution renamed : Resolution}
    (ht : Tracks ρ decls resolution renamed) {pending : List TypeDeclaration}
    (hp : ∀ decl ∈ pending, decl ∈ decls) :
    renamed.ready (pending.map (TypeDeclaration.rename ρ)) =
        (resolution.ready pending).map (TypeDeclaration.rename ρ) ∧
      renamed.blocked (pending.map (TypeDeclaration.rename ρ)) =
        (resolution.blocked pending).map (TypeDeclaration.rename ρ) := by
  unfold Resolution.ready Resolution.blocked
  rw [List.filter_map, List.filter_map]
  constructor
  · congr 1
    exact List.filter_congr fun decl hm => ht.isReady_rename hr hu (hp decl hm)
  · congr 1
    exact List.filter_congr fun decl hm => congrArg (!·) (ht.isReady_rename hr hu (hp decl hm))

/-- The waves go on together, and end together. The induction follows the waves. -/
theorem resolveWaves_rename {key : String} (newKey : String)
    {resolution renamed after : Resolution} (ht : Tracks ρ decls resolution renamed)
    {pending : List TypeDeclaration} (hp : ∀ decl ∈ pending, decl ∈ decls)
    (h : resolveWaves registry key resolution pending = .ok after) :
    ∃ other, resolveWaves newRegistry newKey renamed (pending.map (TypeDeclaration.rename ρ)) =
      .ok other ∧ Tracks ρ decls after other := by
  induction hn : pending.length using Nat.strongRecOn generalizing resolution renamed pending with
  | _ n ih =>
    subst hn
    rw [resolveWaves] at h
    split at h
    · rename_i hempty
      obtain rfl : resolution = after := Except.ok.inj h
      obtain rfl := List.isEmpty_iff.1 hempty
      exact ⟨renamed, resolveWaves_nil _ _ _, ht⟩
    · rename_i hempty
      split at h
      · cases h
      · rename_i hready
        obtain ⟨hnow, hlater⟩ := ht.ready_rename hr hu hp
        have hwave : Tracks ρ decls (resolution.addWave registry (resolution.ready pending))
            (renamed.addWave newRegistry
              ((resolution.ready pending).map (TypeDeclaration.rename ρ))) := by
          have hadd := ht.addAll hr hu newRegistry
            (fun decl hm => hp decl (List.mem_filter.1 hm).1)
            (@handles_of_ready registry _ _ fun decl hm => (List.mem_filter.1 hm).2)
          exact ⟨hadd.user, hadd.base⟩
        have hblocked : ∀ decl ∈ resolution.blocked pending, decl ∈ decls :=
          fun decl hm => hp decl (List.mem_filter.1 hm).1
        obtain ⟨other, ho, hto⟩ := ih _ (blocked_length_lt hready) hwave hblocked h rfl
        refine ⟨other, ?_, hto⟩
        rw [← hnow, ← hlater] at ho
        rw [resolveWaves, if_neg, dif_neg]
        · exact ho
        · rwa [hnow, List.map_eq_nil_iff]
        · rwa [List.isEmpty_map]

/-- The renamed unit declares what it uses. -/
theorem SelfContained.rename : SelfContained (decls.map (TypeDeclaration.rename ρ)) := by
  refine ⟨?_, List.forall_mem_map.2 hr.userNames⟩
  rw [List.forall_mem_map]
  intro decl hd
  unfold TypeDeclaration.rename
  rw [List.forall_mem_map]
  intro field hf hb
  rw [hr.baseType?_rename hu hd hf] at hb
  obtain ⟨inner, hi, he⟩ := hu.exists_decl hd hf hb
  have hfind := hr.find?_rename (fun _ hm => hm) hi
  have hcovered := hu.covered decl hd field hf hb
  unfold declared? at hcovered ⊢
  rw [typeName_rename hb, ← he]
  unfold TypeDeclaration.rename at hfind
  rw [hfind, he, Option.isSome_map]
  exact hcovered

/-- A unit whose aggregates are renamed is resolved when the unit is, over any registry, and each
declaration keeps its hash. -/
theorem resolve_rename {key : String} (newKey : String) {resolution : Resolution}
    (h : (resolve registry key decls).result = .ok resolution) :
    ∃ renamed, (resolve newRegistry newKey (decls.map (TypeDeclaration.rename ρ))).result =
        .ok renamed ∧
      ∀ decl ∈ decls,
        renamed.hashes.lookup (ρ decl.name) = resolution.hashes.lookup decl.name := by
  obtain ⟨distinct, referenced, hd, href, hw⟩ := resolve_eq_ok_iff.1 h
  have hfirst := deduplicate_spec hd
  have hd' := hr.deduplicate_rename hu newKey hd
  have href' := @resolveReferences_of_selfContained newRegistry _ _ (SelfContained.rename hr hu)
    (deduplicate_spec hd') newKey
  have hempty : referenced = {} := by
    rw [resolveReferences_of_selfContained hu hfirst key] at href
    exact (Except.ok.inj href).symm
  have hstart : Tracks ρ decls referenced {} := by
    rw [hempty]
    exact ⟨fun _ _ => rfl, fun _ _ => ⟨rfl, rfl⟩⟩
  obtain ⟨renamed, hw', ht⟩ := resolveWaves_rename hr hu newRegistry newKey hstart
    (fun decl hm => mem_of_declared (hfirst.mem_iff.1 hm)) hw
  exact ⟨renamed, resolve_eq_ok_iff.2 ⟨_, _, hd', href', hw'⟩, ht.user⟩

end

end UniformLayout
