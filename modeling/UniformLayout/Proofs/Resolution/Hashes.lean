import UniformLayout.Proofs.Identity.Fingerprint
import UniformLayout.Proofs.Resolution.Waves

/-!
# The hashes of a resolved unit

A unit that declares every aggregate it uses is resolved without the registry, as far as its hashes
go: each declaration has the hash that it has on top of all hashes of the unit, and the aggregates
that it uses are of lower rank (`Hashed`).

Main statement: `hashed_of_resolve`.
-/

namespace UniformLayout

/-- The declaration that a name stands for: the first one of that name. -/
def declared? (decls : List TypeDeclaration) (name : String) : Option TypeDeclaration :=
  decls.find? (·.name == name)

/-- The unit declares every aggregate that it uses, under names that are no base types. -/
structure SelfContained (decls : List TypeDeclaration) : Prop where
  covered : ∀ decl ∈ decls, ∀ field ∈ decl.fields, field.baseType? = none →
    (declared? decls field.typeName).isSome
  userNames : ∀ decl ∈ decls, BaseType.ofName? decl.name = none

theorem name_of_declared {decls : List TypeDeclaration} {name : String} {decl : TypeDeclaration}
    (h : declared? decls name = some decl) : decl.name = name := by
  simpa using List.find?_some h

theorem declared_self {decls : List TypeDeclaration} {name : String} {decl : TypeDeclaration}
    (h : declared? decls name = some decl) : declared? decls decl.name = some decl := by
  rw [name_of_declared h]
  exact h

theorem mem_of_declared {decls : List TypeDeclaration} {name : String} {decl : TypeDeclaration}
    (h : declared? decls name = some decl) : decl ∈ decls :=
  List.mem_of_find?_eq_some h

/-- The hashes of a unit, and a rank that falls from each declaration to those that it uses. -/
structure Hashed (decls : List TypeDeclaration) (hashes : Table String String)
    (rank : String → Nat) : Prop where
  hash : ∀ decl, declared? decls decl.name = some decl →
    hashes.lookup decl.name = some (decl.contentHash hashes)
  base : ∀ name, (BaseType.ofName? name).isSome → hashes.lookup name = none
  nested : ∀ decl, declared? decls decl.name = some decl → ∀ field ∈ decl.fields,
    field.baseType? = none →
      ∃ inner, declared? decls field.typeName = some inner ∧ rank inner.name < rank decl.name
  bound : ∀ decl, declared? decls decl.name = some decl → rank decl.name < decls.length

/-! ## Dependencies -/

theorem mem_dependencies {decl : TypeDeclaration} {name : String} :
    name ∈ decl.dependencies ↔
      ∃ field ∈ decl.fields, field.baseType? = none ∧ field.typeName = name := by
  have hfold : ∀ (fields : List FieldDeclaration) (names : List String),
      name ∈ fields.foldl (fun names field =>
          if field.baseType?.isNone && !names.contains field.typeName then
            names ++ [field.typeName]
          else names) names ↔
        name ∈ names ∨ ∃ field ∈ fields, field.baseType? = none ∧ field.typeName = name := by
    intro fields
    induction fields with
    | nil => simp
    | cons field rest ih =>
      intro names
      rw [List.foldl_cons, ih]
      simp only [List.mem_cons, exists_eq_or_imp]
      split
      · rename_i hc
        have hbase : field.baseType? = none := by
          simp only [Bool.and_eq_true, Option.isNone_iff_eq_none] at hc
          exact hc.1
        simp only [List.mem_append, List.mem_singleton, hbase, true_and, or_assoc]
        rw [eq_comm]
      · rename_i hc
        constructor
        · rintro (hm | hm)
          · exact Or.inl hm
          · exact Or.inr (Or.inr hm)
        · rintro (hm | ⟨hbase, rfl⟩ | hm)
          · exact Or.inl hm
          · left
            by_contra hn
            exact hc (by simp [hbase, hn])
          · exact Or.inr hm
  unfold TypeDeclaration.dependencies
  rw [hfold]
  simp

/-- The hash depends on the hashes of the field types only. -/
theorem contentHash_congr {decl : TypeDeclaration} {nested other : HashTable}
    (h : ∀ field ∈ decl.fields, nested.lookup field.typeName = other.lookup field.typeName) :
    decl.contentHash nested = decl.contentHash other := by
  have hprint : decl.fields.map (TypeDeclaration.fieldPrint nested) =
      decl.fields.map (TypeDeclaration.fieldPrint other) := by
    apply List.map_congr_left
    intro field hm
    unfold TypeDeclaration.fieldPrint
    rw [h field hm]
  unfold TypeDeclaration.contentHash TypeDeclaration.fingerprint
  rw [hprint]

/-! ## Handling one declaration after the other -/

variable {registry : Registry}

/-- Every aggregate that a declaration uses was known, or stands before it. -/
theorem handles_order {resolution : Resolution} {before after : List TypeDeclaration}
    {decl : TypeDeclaration} (h : resolution.Handles registry (before ++ decl :: after)) :
    ∀ name ∈ decl.dependencies,
      resolution.knows name ∨ name ∈ before.map TypeDeclaration.name := by
  induction before generalizing resolution with
  | nil =>
    intro name hm
    exact Or.inl (List.all_eq_true.1 h.1 name hm)
  | cons first rest ih =>
    intro name hm
    rcases ih h.2 name hm with hk | hk
    · rcases knows_addDeclaration.1 hk with rfl | hk
      · exact Or.inr List.mem_cons_self
      · exact Or.inl hk
    · exact Or.inr (List.mem_cons_of_mem _ hk)

/-- A declaration of another name leaves the names of those behind it unknown. -/
theorem not_knows_addDeclaration {resolution : Resolution} {decl : TypeDeclaration}
    {rest : List TypeDeclaration} (hn : decl.name ∉ rest.map TypeDeclaration.name)
    (hnew : ∀ other ∈ decl :: rest, ¬ resolution.knows other.name) :
    ∀ other ∈ rest, ¬ (resolution.addDeclaration registry decl).knows other.name := by
  intro other ho hk
  rcases knows_addDeclaration.1 hk with he | hk
  · exact hn (he ▸ List.mem_map_of_mem ho)
  · exact hnew other (List.mem_cons_of_mem _ ho) hk

/-- What the declarations add to the hashes. Names that are known keep their hash. -/
theorem addAll_hashes {resolution : Resolution} {decls : List TypeDeclaration}
    (hn : (decls.map TypeDeclaration.name).Nodup)
    (hnew : ∀ decl ∈ decls, ¬ resolution.knows decl.name) :
    (∀ name, (resolution.addAll registry decls).knows name ↔
        resolution.knows name ∨ name ∈ decls.map TypeDeclaration.name) ∧
      ∀ name, resolution.knows name →
        (resolution.addAll registry decls).hashes.lookup name = resolution.hashes.lookup name := by
  induction decls generalizing resolution with
  | nil => exact ⟨fun name => by simp [Resolution.addAll], fun _ _ => rfl⟩
  | cons decl rest ih =>
    rw [List.map_cons, List.nodup_cons] at hn
    have hlater := @not_knows_addDeclaration registry _ _ _ hn.1 hnew
    obtain ⟨hknows, hkeeps⟩ := ih hn.2 hlater
    refine ⟨fun name => ?_, fun name hk => ?_⟩
    · refine (hknows name).trans ?_
      rw [knows_addDeclaration, List.map_cons, List.mem_cons]
      exact or_assoc.trans or_left_comm
    · refine (hkeeps name (knows_addDeclaration.2 (Or.inr hk))).trans ?_
      rw [hashes_addDeclaration]
      refine Table.lookup_insert_of_ne ?_ _ _
      rintro rfl
      exact hnew decl List.mem_cons_self hk

/-- Each declaration has its hash on top of all hashes, since the hashes that came later are those
of other names. -/
theorem addAll_hash {resolution : Resolution} {decls : List TypeDeclaration}
    (hh : resolution.Handles registry decls) (hn : (decls.map TypeDeclaration.name).Nodup)
    (hnew : ∀ decl ∈ decls, ¬ resolution.knows decl.name)
    (hbase : ∀ name, (BaseType.ofName? name).isSome →
      ¬ (resolution.addAll registry decls).knows name) :
    ∀ decl ∈ decls, (resolution.addAll registry decls).hashes.lookup decl.name =
      some (decl.contentHash (resolution.addAll registry decls).hashes) := by
  induction decls generalizing resolution with
  | nil =>
    intro decl hm
    cases hm
  | cons decl rest ih =>
    rw [List.map_cons, List.nodup_cons] at hn
    have hlater := @not_knows_addDeclaration registry _ _ _ hn.1 hnew
    refine List.forall_mem_cons.2 ⟨?_, ih hh.2 hn.2 hlater hbase⟩
    have hdecl : ¬ resolution.knows decl.name := hnew decl List.mem_cons_self
    obtain ⟨hknows, hkeeps⟩ := @addAll_hashes registry (resolution.addDeclaration registry decl)
      rest hn.2 hlater
    have hself : (resolution.addAll registry (decl :: rest)).hashes.lookup decl.name =
        some (decl.contentHash resolution.hashes) := by
      refine (hkeeps decl.name (knows_addDeclaration.2 (Or.inl rfl))).trans ?_
      rw [hashes_addDeclaration]
      exact Table.lookup_insert_self _ _ _
    rw [hself]
    refine congrArg some (contentHash_congr fun field hf => ?_)
    cases hb : field.baseType? with
    | none =>
      have hk := List.all_eq_true.1 hh.1 field.typeName (mem_dependencies.2 ⟨field, hf, hb, rfl⟩)
      refine ((hkeeps field.typeName (knows_addDeclaration.2 (Or.inr hk))).trans ?_).symm
      rw [hashes_addDeclaration]
      refine Table.lookup_insert_of_ne ?_ _ _
      intro he
      exact hdecl (he ▸ hk)
    | some type =>
      have hafter := hbase field.typeName (by rw [← FieldDeclaration.baseType?, hb]; rfl)
      have hbefore : ¬ resolution.knows field.typeName := fun hk =>
        hafter ((hknows _).2 (Or.inl (knows_addDeclaration.2 (Or.inr hk))))
      unfold Resolution.knows at hafter hbefore
      rw [Option.isSome_iff_ne_none, not_not] at hafter hbefore
      exact hbefore.trans hafter.symm

/-! ## The unit -/

theorem FirstOfNames.mem_iff {decls distinct : List TypeDeclaration}
    (h : FirstOfNames decls distinct) {decl : TypeDeclaration} :
    decl ∈ distinct ↔ declared? decls decl.name = some decl := by
  unfold declared?
  rw [← h.find]
  constructor
  · exact find?_name_eq h.nodup
  · exact List.mem_of_find?_eq_some

/-- A unit that declares what it uses takes nothing from the registry. -/
theorem resolveReferences_of_selfContained {decls distinct : List TypeDeclaration}
    (hu : SelfContained decls) (hf : FirstOfNames decls distinct) (key : String) :
    resolveReferences registry key distinct = .ok {} := by
  have hnone : (distinct.flatMap fun decl =>
      (decl.dependencies.filter (!(distinct.map TypeDeclaration.name).contains ·)).map (decl, ·)) =
        [] := by
    rw [List.flatMap_eq_nil_iff]
    intro decl hm
    rw [List.map_eq_nil_iff, List.filter_eq_nil_iff]
    intro name hd
    obtain ⟨field, hfield, hb, rfl⟩ := mem_dependencies.1 hd
    have hcovered := hu.covered decl (mem_of_declared (hf.mem_iff.1 hm)) field hfield hb
    unfold declared? at hcovered
    rw [← hf.find] at hcovered
    obtain ⟨inner, hi⟩ := Option.isSome_iff_exists.1 hcovered
    have hname : inner.name = field.typeName := by simpa using List.find?_some hi
    have hmem : field.typeName ∈ distinct.map TypeDeclaration.name :=
      hname ▸ List.mem_map_of_mem (List.mem_of_find?_eq_some hi)
    simpa using hmem
  unfold resolveReferences
  dsimp only
  rw [hnone]
  rfl

theorem idxOf_lt_of_before {before after : List String} {name other : String}
    (hn : (before ++ other :: after).Nodup) (hm : name ∈ before) :
    (before ++ other :: after).idxOf name < (before ++ other :: after).idxOf other := by
  have hnew : other ∉ before := by
    intro hb
    exact (List.nodup_append.1 hn).2.2 other hb other List.mem_cons_self rfl
  rw [List.idxOf_append_of_mem hm, List.idxOf_append_of_notMem hnew]
  have := List.idxOf_lt_length_of_mem hm
  omega

/-- Resolving a unit that declares what it uses gives each declaration its hash. The rank of a
declaration is its place in the order in which they are handled. -/
theorem hashed_of_resolve {key : String} {decls : List TypeDeclaration} {resolution : Resolution}
    (hu : SelfContained decls) (h : (resolve registry key decls).result = .ok resolution) :
    ∃ rank, Hashed decls resolution.hashes rank := by
  obtain ⟨distinct, handled, referenced, hc⟩ := resolve_eq_ok h
  have hempty : referenced = {} := by
    have := hc.references
    rw [resolveReferences_of_selfContained hu hc.first key] at this
    exact (Except.ok.inj this).symm
  have hunknown : ∀ name, ¬ referenced.knows name := by
    intro name hk
    unfold Resolution.knows at hk
    rw [hempty] at hk
    cases hk
  have hhashes : resolution.hashes = (referenced.addAll registry handled).hashes :=
    (congrArg (·.hashes) hc.result).trans rfl
  have hmem : ∀ {decl : TypeDeclaration},
      declared? decls decl.name = some decl ↔ decl ∈ handled := by
    intro decl
    rw [← hc.first.mem_iff, hc.perm.mem_iff]
  have hnew : ∀ decl ∈ handled, ¬ referenced.knows decl.name := fun decl _ => hunknown decl.name
  have hknows := (@addAll_hashes registry referenced handled hc.names_nodup hnew).1
  have hbase : ∀ name, (BaseType.ofName? name).isSome →
      ¬ (referenced.addAll registry handled).knows name := by
    intro name hb hk
    rcases (hknows name).1 hk with hk | hm
    · exact hunknown name hk
    · obtain ⟨decl, hd, rfl⟩ := List.mem_map.1 hm
      rw [hu.userNames decl (mem_of_declared (hmem.2 hd))] at hb
      cases hb
  refine ⟨(handled.map TypeDeclaration.name).idxOf, ?_, ?_, ?_, ?_⟩
  · intro decl hd
    rw [hhashes]
    exact addAll_hash hc.handles hc.names_nodup hnew hbase decl (hmem.1 hd)
  · intro name hb
    have := hbase name hb
    unfold Resolution.knows at this
    rw [hhashes]
    rwa [Option.isSome_iff_ne_none, not_not] at this
  · intro decl hd field hf hb
    obtain ⟨inner, hi⟩ := Option.isSome_iff_exists.1
      (hu.covered decl (mem_of_declared hd) field hf hb)
    refine ⟨inner, hi, ?_⟩
    obtain ⟨before, after, rfl⟩ := List.append_of_mem (hmem.1 hd)
    rcases handles_order hc.handles field.typeName (mem_dependencies.2 ⟨field, hf, hb, rfl⟩) with
      hk | hm
    · exact absurd hk (hunknown _)
    · have hnodup := hc.names_nodup
      rw [List.map_append, List.map_cons] at hnodup ⊢
      rw [name_of_declared hi]
      exact idxOf_lt_of_before hnodup hm
  · intro decl hd
    have hlt := List.idxOf_lt_length_of_mem (List.mem_map_of_mem (f := TypeDeclaration.name)
      (hmem.1 hd))
    rw [List.length_map] at hlt
    have hle : handled.length ≤ decls.length :=
      (hc.names_nodup.of_map _).length_le_of_subset fun other ho => mem_of_declared (hmem.2 ho)
    exact Nat.lt_of_lt_of_le hlt hle

end UniformLayout
