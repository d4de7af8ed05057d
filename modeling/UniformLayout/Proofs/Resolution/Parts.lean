import UniformLayout.Proofs.Resolution.Hashes

/-!
# What is laid out and what is reused

Every declaration that a unit keeps has a hash in the end, and the registry decides by this hash what
becomes of it: `knownTypes` lists the declarations whose structure it has generated, `newTypes` those
that need a layout. What the unit only refers to has a hash as well, the one under which it was
generated.

* `Resolution.Course.parts`: the two lists of a resolved unit.
* `Resolution.Course.hash`: the hash of a declaration on top of all hashes of the unit.

Main statement: `Resolution.Course.hash`.
-/

namespace UniformLayout

/-- The declarations whose structure has been generated. -/
def knownTypes (registry : Registry) (hash : TypeDeclaration → String)
    (decls : List TypeDeclaration) : List ReusedType :=
  decls.filterMap fun decl =>
    (registry.descriptorOfHash? (hash decl)).map fun descriptor =>
      { name := decl.name, descriptor, declaration := some decl }

/-- The declarations that need a layout. -/
def newTypes (registry : Registry) (hash : TypeDeclaration → String)
    (decls : List TypeDeclaration) : List ResolvedType :=
  decls.filterMap fun decl =>
    if (registry.descriptorOfHash? (hash decl)).isSome then none else some ⟨decl, hash decl⟩

/-- What is compared of the fields of two declarations. -/
def FieldDeclaration.outline (field : FieldDeclaration) : String × String × Option Nat :=
  (field.typeName, field.name, field.arrayLength)

theorem sameShape_iff {a b : TypeDeclaration} : a.sameShape b ↔
    a.kind.tag = b.kind.tag ∧
      a.fields.map FieldDeclaration.outline = b.fields.map FieldDeclaration.outline := by
  have hfields : ∀ xs ys : List FieldDeclaration,
      (xs.length = ys.length ∧ ∀ pair ∈ xs.zip ys, pair.1.sameShape pair.2) ↔
        xs.map FieldDeclaration.outline = ys.map FieldDeclaration.outline := by
    intro xs
    induction xs with
    | nil => intro ys; cases ys <;> simp
    | cons x xs ih =>
      intro ys
      cases ys with
      | nil => simp
      | cons y ys =>
        rw [List.map_cons, List.map_cons, List.cons.injEq, ← ih ys]
        simp only [List.length_cons, Nat.succ.injEq, List.zip_cons_cons, List.forall_mem_cons,
          FieldDeclaration.sameShape, FieldDeclaration.outline, Bool.and_eq_true, beq_iff_eq,
          Prod.mk.injEq]
        tauto
  unfold TypeDeclaration.sameShape
  rw [Bool.and_eq_true, Bool.and_eq_true, beq_iff_eq, beq_iff_eq, List.all_eq_true, and_assoc,
    ← hfields]

theorem sameShape_self (decl : TypeDeclaration) : decl.sameShape decl :=
  sameShape_iff.2 ⟨rfl, rfl⟩

/-- Every declaration is kept, or a copy of it. -/
theorem exists_mem_deduplicate {key : String} {decls distinct : List TypeDeclaration}
    (h : (deduplicate key decls).result = .ok distinct) :
    ∀ decl ∈ decls, ∃ kept ∈ distinct, kept.name = decl.name ∧ kept.sameShape decl := by
  -- The induction is on the declarations that are still to come.
  have hfold : ∀ (rest kept : List TypeDeclaration),
      (rest.foldlM (addDistinct key) kept).result = .ok distinct →
        kept ⊆ distinct ∧ ∀ decl ∈ rest, ∃ first ∈ distinct,
          first.name = decl.name ∧ first.sameShape decl := by
    intro rest
    induction rest with
    | nil =>
      intro kept h
      obtain rfl : kept = distinct := Except.ok.inj h
      exact ⟨List.Subset.refl _, by simp⟩
    | cons decl rest ih =>
      intro kept h
      rw [List.foldlM_cons, Logged.result_bind_eq_ok_iff] at h
      obtain ⟨after, ha, h⟩ := h
      obtain ⟨hafter, hrest⟩ := ih after h
      unfold addDistinct at ha
      split at ha
      · obtain rfl := Except.ok.inj ha
        obtain ⟨hkept, hdecl⟩ := List.append_subset.1 hafter
        exact ⟨hkept, List.forall_mem_cons.2
          ⟨⟨decl, hdecl List.mem_cons_self, rfl, sameShape_self decl⟩, hrest⟩⟩
      · rename_i first hf
        split at ha
        · rename_i hs
          obtain rfl : kept = after := Except.ok.inj ha
          exact ⟨hafter, List.forall_mem_cons.2 ⟨⟨first, hafter (List.mem_of_find?_eq_some hf),
            eq_of_beq (List.find?_some hf :), hs⟩, hrest⟩⟩
        · cases ha
  exact (hfold decls [] h).2

variable {registry : Registry}

/-- The hashes in the end decide what has been reused and what has to be laid out. -/
theorem addAll_parts {resolution : Resolution} {decls : List TypeDeclaration}
    {hash : TypeDeclaration → String} (hn : (decls.map TypeDeclaration.name).Nodup)
    (hnew : ∀ decl ∈ decls, ¬ resolution.knows decl.name)
    (hh : ∀ decl ∈ decls,
      (resolution.addAll registry decls).hashes.lookup decl.name = some (hash decl)) :
    (resolution.addAll registry decls).order =
        resolution.order ++ newTypes registry hash decls ∧
      (resolution.addAll registry decls).reused =
        resolution.reused ++ knownTypes registry hash decls := by
  induction decls generalizing resolution with
  | nil => exact ⟨(List.append_nil _).symm, (List.append_nil _).symm⟩
  | cons decl rest ih =>
    rw [List.map_cons, List.nodup_cons] at hn
    have hlater := @not_knows_addDeclaration registry _ _ _ hn.1 hnew
    obtain ⟨hself, hrest⟩ := List.forall_mem_cons.1 hh
    obtain ⟨horder, hreused⟩ := ih hn.2 hlater hrest
    -- The hash that decides about `decl` is not replaced by what comes after it.
    have hhash : decl.contentHash resolution.hashes = hash decl := by
      have hkeeps := (@addAll_hashes registry _ _ hn.2 hlater).2 decl.name
        (knows_addDeclaration.2 (Or.inl rfl))
      rw [hashes_addDeclaration, Table.lookup_insert_self] at hkeeps
      exact Option.some.inj (hkeeps.symm.trans hself)
    unfold newTypes at horder ⊢
    unfold knownTypes at hreused ⊢
    rw [List.filterMap_cons, List.filterMap_cons]
    refine ⟨horder.trans ?_, hreused.trans ?_⟩
    · cases hd : registry.descriptorOfHash? (hash decl) with
      | none =>
        rw [(addDeclaration_of_new (by rw [hhash, hd])).1, hhash, List.append_assoc]
        rfl
      | some descriptor =>
        rw [(addDeclaration_of_generated (by rw [hhash, hd])).1]
        rfl
    · cases hd : registry.descriptorOfHash? (hash decl) with
      | none =>
        rw [(addDeclaration_of_new (by rw [hhash, hd])).2]
        rfl
      | some descriptor =>
        rw [(addDeclaration_of_generated (by rw [hhash, hd])).2, List.append_assoc]
        rfl

/-! ## Resolved units -/

/-- What is taken from the registry for the names that the unit does not declare. -/
structure Resolution.Borrows (declared : List String) (resolution : Resolution) : Prop where
  undeclared : ∀ name, resolution.knows name → name ∉ declared ∧ BaseType.ofName? name = none
  entry : ∀ entry ∈ resolution.reused,
    resolution.hashes.lookup entry.name = some entry.descriptor.identity.contentHash

theorem resolveReference_borrows {key name : String} {owner : TypeDeclaration}
    {declared : List String} {before after : Resolution} (h : before.Borrows declared)
    (hn : name ∉ declared) (hb : BaseType.ofName? name = none)
    (ha : resolveReference registry key owner before name = .ok after) :
    after.Borrows declared := by
  rcases resolveReference_eq_ok ha with ⟨-, rfl⟩ | ⟨hk, identity, descriptor, -, -, rfl⟩
  · exact h
  · refine ⟨fun other hother => ?_, fun entry hm => ?_⟩
    · by_cases he : other = name
      · subst he
        exact ⟨hn, hb⟩
      · refine h.undeclared other ?_
        unfold Resolution.knows at hother ⊢
        rwa [Table.lookup_insert_of_ne he] at hother
    · rcases List.mem_append.1 hm with hm | hm
      · have hhash := h.entry entry hm
        refine (Table.lookup_insert_of_ne ?_ _ _).trans hhash
        intro he
        exact hk (by rw [Resolution.knows, ← he, hhash]; rfl)
      · rw [List.mem_singleton.1 hm]
        exact Table.lookup_insert_self _ _ _

theorem resolveReferences_borrows {key : String} {decls : List TypeDeclaration}
    {resolution : Resolution} (h : resolveReferences registry key decls = .ok resolution) :
    resolution.Borrows (decls.map TypeDeclaration.name) := by
  refine resolveReferences_induction ⟨(fun _ hk => by cases hk), by simp⟩ ?_ h
  intro owner _ name hname hnot before after hb ha
  obtain ⟨field, -, hbase, rfl⟩ := mem_dependencies.1 hname
  exact resolveReference_borrows hb hnot hbase ha

/-- No declaration is named like a base type. -/
def UserNames (decls : List TypeDeclaration) : Prop :=
  ∀ decl ∈ decls, BaseType.ofName? decl.name = none

/-- The hash that a unit has for a declaration in the end. -/
def Resolution.hashOf (resolution : Resolution) (decl : TypeDeclaration) : String :=
  (resolution.hashes.lookup decl.name).getD ""

section

variable {key : String} {decls distinct handled : List TypeDeclaration}
  {resolution referenced : Resolution}

theorem Resolution.Course.hashes_eq
    (hc : resolution.Course registry key decls distinct handled referenced) :
    resolution.hashes = (referenced.addAll registry handled).hashes :=
  (congrArg (·.hashes) hc.result).trans rfl

theorem Resolution.Course.unknown
    (hc : resolution.Course registry key decls distinct handled referenced) :
    ∀ decl ∈ handled, ¬ referenced.knows decl.name := by
  intro decl hm hk
  have hnot := ((resolveReferences_borrows hc.references).undeclared _ hk).1
  exact hnot (List.mem_map_of_mem (hc.perm.mem_iff.1 hm))

/-- Every declaration that is handled has a hash. -/
theorem Resolution.Course.lookup_hashOf
    (hc : resolution.Course registry key decls distinct handled referenced) :
    ∀ decl ∈ handled, resolution.hashes.lookup decl.name = some (resolution.hashOf decl) := by
  intro decl hm
  have hknows := ((@addAll_hashes registry _ _ hc.names_nodup hc.unknown).1 decl.name).2
    (Or.inr (List.mem_map_of_mem hm))
  rw [Resolution.knows, ← hc.hashes_eq] at hknows
  obtain ⟨hash, hh⟩ := Option.isSome_iff_exists.1 hknows
  rw [Resolution.hashOf, hh]
  rfl

/-- The hash of a declaration on top of all hashes of the unit. -/
theorem Resolution.Course.hash
    (hc : resolution.Course registry key decls distinct handled referenced)
    (hu : UserNames decls) :
    (∀ decl ∈ handled, resolution.hashOf decl = decl.contentHash resolution.hashes) ∧
      ∀ name, (BaseType.ofName? name).isSome → resolution.hashes.lookup name = none := by
  have hbase : ∀ name, (BaseType.ofName? name).isSome →
      ¬ (referenced.addAll registry handled).knows name := by
    intro name hb hk
    rcases ((@addAll_hashes registry _ _ hc.names_nodup hc.unknown).1 name).1 hk with
      hk | hm
    · rw [((resolveReferences_borrows hc.references).undeclared name hk).2] at hb
      cases hb
    · obtain ⟨decl, hd, rfl⟩ := List.mem_map.1 hm
      rw [hu decl (mem_of_declared (hc.first.mem_iff.1 (hc.perm.mem_iff.1 hd)))] at hb
      cases hb
  constructor
  · intro decl hm
    have hhash := addAll_hash hc.handles hc.names_nodup hc.unknown hbase decl hm
    rw [← hc.hashes_eq, hc.lookup_hashOf decl hm] at hhash
    exact Option.some.inj hhash
  · intro name hb
    have hnone := hbase name hb
    rw [Resolution.knows, ← hc.hashes_eq] at hnone
    rwa [Option.isSome_iff_ne_none, not_not] at hnone

/-- What a resolved unit lays out and reuses. -/
theorem Resolution.Course.parts
    (hc : resolution.Course registry key decls distinct handled referenced) :
    resolution.order = newTypes registry resolution.hashOf handled ∧
      resolution.reused =
        referenced.reused ++ knownTypes registry resolution.hashOf handled := by
  have hh : ∀ decl ∈ handled, (referenced.addAll registry handled).hashes.lookup decl.name =
      some (resolution.hashOf decl) := by
    intro decl hm
    rw [← hc.hashes_eq]
    exact hc.lookup_hashOf decl hm
  obtain ⟨horder, hreused⟩ := addAll_parts hc.names_nodup hc.unknown hh
  rw [(resolveReferences_spec hc.references).order] at horder
  exact ⟨(congrArg (·.order) hc.result).trans horder,
    (congrArg (·.reused) hc.result).trans hreused⟩

end

end UniformLayout
