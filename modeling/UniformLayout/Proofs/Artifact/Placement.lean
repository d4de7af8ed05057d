import UniformLayout.Proofs.Artifact.HostLayout
import UniformLayout.Proofs.Artifact.Members
import UniformLayout.Proofs.Lists
import UniformLayout.Proofs.Registry.Reachable
import UniformLayout.Proofs.Schema.Regular

/-!
# The host places members where the schema says

Explicit padding members make the host's rules agree with std140: under them every field of a
plain-data struct has the offset of its schema, padded elements are one stride long, and no struct has
a gap that nothing fills (`TypeSchema.OnHost`).

* `hostStruct?_of_regular`: one struct, from those of the nested schemas.
-/

namespace UniformLayout

/-! ## The tables of known structs -/

theorem childTable?_spec {fields : List FieldSchema}
    (h : ∀ field ∈ fields, ∀ inner, field.kind = .aggregate inner →
      ∃ struct, inner.hostStruct? = some struct) :
    ∃ table, childTable? fields = some table ∧
      ∀ entry, entry ∈ table ↔ ∃ field ∈ fields, ∃ inner struct, field.kind = .aggregate inner ∧
        inner.hostStruct? = some struct ∧ entry = (dataName inner.name, struct.extent) := by
  induction fields with
  | nil => exact ⟨[], by rw [childTable?], by simp⟩
  | cons field rest ih =>
    obtain ⟨hfirst, hrest⟩ := List.forall_mem_cons.1 h
    obtain ⟨others, ho, hmem⟩ := ih hrest
    obtain ⟨name, typeName, kind, offset, size, array, location, unit⟩ := field
    have hentry : ∃ first, kind.childEntry? = some first ∧ ∀ entry, entry ∈ first ↔
        ∃ inner struct, kind = .aggregate inner ∧ inner.hostStruct? = some struct ∧
          entry = (dataName inner.name, struct.extent) := by
      cases kind with
      | value type => exact ⟨[], by simp [FieldKind.childEntry?], by simp⟩
      | handle handle => exact ⟨[], by simp [FieldKind.childEntry?], by simp⟩
      | aggregate inner =>
        obtain ⟨struct, hs⟩ := hfirst inner rfl
        refine ⟨[(dataName inner.name, struct.extent)], ?_, fun entry => ?_⟩
        · rw [FieldKind.childEntry?, hs]
          rfl
        · rw [List.mem_singleton]
          constructor
          · rintro rfl
            exact ⟨inner, struct, rfl, hs, rfl⟩
          · rintro ⟨other, found, he, hf, rfl⟩
            obtain rfl := FieldKind.aggregate.inj he
            rw [Option.some.inj (hs.symm.trans hf)]
    obtain ⟨first, hf, hin⟩ := hentry
    refine ⟨first ++ others, ?_, fun entry => ?_⟩
    · rw [childTable?, hf, ho]
      rfl
    · rw [List.mem_append, hin, hmem, List.exists_mem_cons_iff]

theorem elementTable?_spec {known : Table String Extent} {plans : List FieldPlan}
    (h : ∀ plan ∈ plans, plan.element.isSome →
      ∃ struct, layStruct? known plan.elementMembers = some struct) :
    ∃ table, elementTable? known plans = some table ∧
      ∀ entry, entry ∈ table ↔ ∃ plan ∈ plans, ∃ name struct, plan.element = some name ∧
        layStruct? known plan.elementMembers = some struct ∧ entry = (name, struct.extent) := by
  induction plans with
  | nil => exact ⟨[], rfl, by simp⟩
  | cons plan rest ih =>
    obtain ⟨hfirst, hrest⟩ := List.forall_mem_cons.1 h
    obtain ⟨others, ho, hmem⟩ := ih hrest
    cases he : plan.element with
    | none =>
      refine ⟨others, ?_, fun entry => ?_⟩
      · rw [elementTable?, ho, he]
        rfl
      · rw [hmem, List.exists_mem_cons_iff, he]
        simp
    | some name =>
      obtain ⟨struct, hs⟩ := hfirst (he ▸ rfl)
      refine ⟨(name, struct.extent) :: others, ?_, fun entry => ?_⟩
      · rw [elementTable?, ho, he]
        simp only [Option.bind_eq_bind, Option.bind_some, hs]
        rfl
      · rw [List.mem_cons, hmem, List.exists_mem_cons_iff, he]
        refine or_congr ⟨?_, ?_⟩ Iff.rfl
        · rintro rfl
          exact ⟨name, struct, rfl, hs, rfl⟩
        · rintro ⟨other, found, hn, hf, rfl⟩
          rw [Option.some.inj hn, Option.some.inj (hs.symm.trans hf)]

/-! ## Types of members -/

/-- The largest alignment of some members. -/
def largestAlignment (alignments : List Nat) : Nat := alignments.foldr max 1

theorem largestAlignment_mem {alignments : List Nat} (h : ∀ a ∈ alignments, a ∈ [1, 4, 8]) :
    largestAlignment alignments ∈ [1, 4, 8] := by
  induction alignments with
  | nil => exact List.mem_cons_self
  | cons a rest ih =>
    obtain ⟨ha, hrest⟩ := List.forall_mem_cons.1 h
    have hmax : ∀ b ∈ [1, 4, 8], ∀ c ∈ [1, 4, 8], max b c ∈ [1, 4, 8] := by decide
    exact hmax a ha _ (ih hrest)

theorem one_le_largestAlignment (alignments : List Nat) : 1 ≤ largestAlignment alignments := by
  induction alignments with
  | nil => exact Nat.le_refl 1
  | cons a rest ih => exact Nat.le_trans ih (Nat.le_max_right _ _)

theorem dvd_minAlignment {a : Nat} (h : a ∈ [1, 4, 8]) : a ∣ minAlignment := by
  have hall : ∀ b ∈ [1, 4, 8], b ∣ minAlignment := by decide
  exact hall a h

theorem one_le_of_mem {a : Nat} (h : a ∈ [1, 4, 8]) : 1 ≤ a := by
  have hall : ∀ b ∈ [1, 4, 8], 1 ≤ b := by decide
  exact hall a h

/-- The alignment of a kind, whose plain-data struct may have been laid out before. -/
def FieldKind.hostAlignment : FieldKind → Nat
  | .value type => type.hostAlignment
  | .handle _ => 4
  | .aggregate inner => inner.hostStruct?.elim 1 HostStruct.alignment

/-- The nested schemas have plain-data structs of their sizes, which their names tell apart. -/
structure TypeSchema.Prepared (schema : TypeSchema) : Prop where
  nested : ∀ field ∈ schema.fields, ∀ inner, field.kind = .aggregate inner →
    ∃ struct, inner.hostStruct? = some struct ∧ struct.size = inner.size ∧
      struct.alignment ∈ [1, 4, 8]
  named : ∀ field ∈ schema.fields, ∀ other ∈ schema.fields, ∀ inner inner',
    field.kind = .aggregate inner → other.kind = .aggregate inner' → inner.name = inner'.name →
      inner.hostStruct?.map HostStruct.extent = inner'.hostStruct?.map HostStruct.extent

section

variable {schema : TypeSchema} {children : Table String Extent}

theorem dataName_injective {name other : String} (h : dataName name = dataName other) :
    name = other := (String.append_left_inj _).1 h

theorem TypeSchema.Prepared.exists_childTable? (hp : schema.Prepared) :
    ∃ children, childTable? schema.fields = some children := by
  obtain ⟨children, hc, -⟩ := childTable?_spec fun field hm inner hk =>
    (hp.nested field hm inner hk).imp fun _ h => h.1
  exact ⟨children, hc⟩

theorem TypeSchema.Prepared.lookup_childTable? (hp : schema.Prepared)
    (hc : childTable? schema.fields = some children) {field : FieldSchema}
    (hm : field ∈ schema.fields) {inner : TypeSchema} (hk : field.kind = .aggregate inner)
    {struct : HostStruct} (hs : inner.hostStruct? = some struct) :
    children.lookup (dataName inner.name) = some struct.extent := by
  obtain ⟨table, ht, hmem⟩ := childTable?_spec fun field hm inner hk =>
    (hp.nested field hm inner hk).imp fun _ h => h.1
  obtain rfl := Option.some.inj (ht.symm.trans hc)
  refine lookup_of_mem_of_agree ((hmem _).2 ⟨field, hm, inner, struct, hk, hs, rfl⟩) ?_
  intro extent ho
  obtain ⟨other, hother, inner', struct', hk', hs', he⟩ := (hmem _).1 ho
  obtain ⟨hname, rfl⟩ := Prod.mk.inj he
  have hsame := hp.named field hm other hother inner inner' hk hk' (dataName_injective hname)
  rw [hs, hs'] at hsame
  exact (Option.some.inj hsame).symm

/-- The type of one element of a field takes up what the schema says. -/
theorem TypeSchema.Prepared.extent?_hostType (hp : schema.Prepared)
    (hc : childTable? schema.fields = some children) {field : FieldSchema}
    (hm : field ∈ schema.fields) {elements : Table String Extent}
    (he : ∀ name, elements.lookup (dataName name) = none) :
    field.kind.hostType.extent? (elements ++ children) =
        some ⟨field.elementSize, field.kind.hostAlignment⟩ ∧
      field.kind.hostAlignment ∈ [1, 4, 8] := by
  unfold FieldSchema.elementSize
  cases hk : field.kind with
  | value type =>
    exact ⟨type.extent?_hostType, type.hostAlignment_mem⟩
  | handle handle => exact ⟨rfl, List.mem_cons_of_mem _ List.mem_cons_self⟩
  | aggregate inner =>
    obtain ⟨struct, hs, hsize, ha⟩ := hp.nested field hm inner hk
    have halign : (FieldKind.aggregate inner).hostAlignment = struct.alignment := by
      rw [FieldKind.hostAlignment, hs]
      rfl
    rw [halign]
    refine ⟨?_, ha⟩
    rw [FieldKind.hostType, HostType.extent?, List.lookup_append, he,
      hp.lookup_childTable? hc hm hk hs]
    change some struct.extent = some ⟨inner.size, struct.alignment⟩
    rw [← hsize]
    rfl

theorem FieldSchema.Regular.hostAlignment_dvd {field : FieldSchema} (h : field.Regular)
    (ha : field.kind.hostAlignment ∈ [1, 4, 8]) : field.kind.hostAlignment ∣ field.offset := by
  refine Nat.dvd_trans ?_ h.offset_dvd
  cases hk : field.kind with
  | value type => exact type.hostAlignment_dvd
  | handle handle => exact Nat.dvd_refl 4
  | aggregate inner => exact dvd_minAlignment (hk ▸ ha)

/-! ## Padded elements -/

/-- The struct of a padded element: the value, and padding up to the stride. -/
def FieldPlan.elementLayout (plan : FieldPlan) : HostStruct where
  places := [⟨"value", 0, plan.field.elementSize⟩,
    ⟨"_pad", plan.field.elementSize, plan.field.stride - plan.field.elementSize⟩]
  size := plan.field.stride
  alignment := plan.field.kind.hostAlignment

theorem layStruct?_elementMembers {known : Table String Extent} {plan : FieldPlan}
    (h : plan.host.extent? known =
      some ⟨plan.field.elementSize, plan.field.kind.hostAlignment⟩)
    (ha : plan.field.kind.hostAlignment ∈ [1, 4, 8]) (hd : minAlignment ∣ plan.field.stride)
    (hle : plan.field.elementSize ≤ plan.field.stride) :
    layStruct? known plan.elementMembers = some plan.elementLayout := by
  have hpad : placeMembers? known (0 + plan.field.elementSize)
      [⟨"_pad", .array .byte (plan.field.stride - plan.field.elementSize)⟩] =
        some ([⟨"_pad", 0 + plan.field.elementSize, plan.field.stride - plan.field.elementSize⟩],
          ⟨0 + plan.field.elementSize + (plan.field.stride - plan.field.elementSize), max 1 1⟩) :=
    placeMembers?_cons (extent?_bytes _) (Nat.one_dvd _) rfl
  have hvalue : placeMembers? known 0 plan.elementMembers = some _ :=
    placeMembers?_cons h (Nat.dvd_zero _) hpad
  have hone := one_le_of_mem ha
  have hsum : plan.field.elementSize + (plan.field.stride - plan.field.elementSize) =
      plan.field.stride := by omega
  unfold layStruct?
  rw [hvalue, Option.map_some]
  dsimp only
  rw [Nat.zero_add, hsum, Nat.max_self, Nat.max_eq_left hone,
    roundUp_eq_self_of_dvd (Nat.dvd_trans (dvd_minAlignment ha) hd)]
  rfl

theorem FieldPlan.elementLayout_packed {plan : FieldPlan}
    (hle : plan.field.elementSize ≤ plan.field.stride) : plan.elementLayout.Packed := by
  refine ⟨rfl, (Nat.zero_add _).symm, ?_⟩
  change 0 + plan.field.elementSize + (plan.field.stride - plan.field.elementSize) =
    plan.field.stride
  omega

/-! ## The plain-data struct -/

theorem mem_fields_of_mem_plans {plan : FieldPlan} (hm : plan ∈ schema.plans) :
    plan.field ∈ schema.fields := by
  have := List.mem_map_of_mem (f := FieldPlan.field) hm
  unfold TypeSchema.plans at this
  rwa [fields_planFrom] at this

theorem isPadded_eq_true {field : FieldSchema} (h : field.isPadded = true) :
    ∃ array, field.array = some array ∧ array.stride ≠ field.elementSize := by
  obtain ⟨array, ha, hne⟩ := (Option.any_eq_true _ _).1 h
  exact ⟨array, ha, by simpa using hne⟩

theorem FieldSchema.stride_of_array {field : FieldSchema} {array : ArrayLayout}
    (h : field.array = some array) : field.stride = array.stride := by
  unfold FieldSchema.stride
  rw [h]
  rfl

/-- The structs for padded elements. -/
theorem TypeSchema.Prepared.layStruct?_element (hp : schema.Prepared) (hr : schema.Regular)
    (hc : childTable? schema.fields = some children) {plan : FieldPlan} (hm : plan ∈ schema.plans)
    (he : plan.element.isSome) :
    layStruct? children plan.elementMembers = some plan.elementLayout ∧
      plan.field.elementSize ≤ plan.field.stride := by
  obtain ⟨-, hfield, -, -, -⟩ := hr
  have hmf := mem_fields_of_mem_plans hm
  have hnone : ∀ name, ([] : Table String Extent).lookup (dataName name) = none := fun _ => rfl
  obtain ⟨hextent, ha⟩ := hp.extent?_hostType hc hmf hnone
  rw [(proper_planFrom plan hm).element_isSome] at he
  obtain ⟨array, harray, -⟩ := isPadded_eq_true he
  have hstride := FieldSchema.stride_of_array harray
  have hle := hstride ▸ (hfield _ hmf).element_le array harray
  exact ⟨layStruct?_elementMembers hextent ha (hstride ▸ (hfield _ hmf).stride_dvd array harray) hle,
    hle⟩

/-- In the table of padded elements these are under their names, and nothing is under the name of a
plain-data struct. -/
theorem TypeSchema.Prepared.lookup_elementTable? (hp : schema.Prepared) (hr : schema.Regular)
    (hc : childTable? schema.fields = some children) {elements : Table String Extent}
    (ht : elementTable? children schema.plans = some elements) :
    (∀ name, elements.lookup (dataName name) = none) ∧
      ∀ plan ∈ schema.plans, ∀ name, plan.element = some name →
        elements.lookup name = some plan.elementLayout.extent := by
  obtain ⟨table, htable, hmem⟩ := elementTable?_spec fun other ho hs =>
    ⟨_, (hp.layStruct?_element hr hc ho hs).1⟩
  obtain rfl := Option.some.inj (htable.symm.trans ht)
  refine ⟨fun name => ?_, fun plan hm name he => ?_⟩
  · rw [List.lookup_eq_none_iff]
    intro entry hentry
    obtain ⟨other, ho, name', struct, hn, -, rfl⟩ := (hmem entry).1 hentry
    have hmark := (proper_planFrom other ho).element name' hn
    exact bne_iff_ne.2 (elementName_ne_dataName hmark).symm
  · have hlaid := (hp.layStruct?_element hr hc hm (he ▸ rfl)).1
    refine lookup_of_mem_of_agree ((hmem _).2 ⟨plan, hm, name, _, he, hlaid, rfl⟩) ?_
    intro extent hentry
    obtain ⟨other, ho, name', struct, hn, hs, hsame⟩ := (hmem _).1 hentry
    obtain ⟨rfl, rfl⟩ := Prod.mk.inj hsame
    obtain rfl := eq_of_element_eq hm ho he hn
    rw [Option.some.inj (hs.symm.trans hlaid)]

/-- The type of a member takes up what the schema says of the field. -/
theorem TypeSchema.Prepared.extent?_storage (hp : schema.Prepared) (hr : schema.Regular)
    (hc : childTable? schema.fields = some children) {elements : Table String Extent}
    (ht : elementTable? children schema.plans = some elements) {plan : FieldPlan}
    (hm : plan ∈ schema.plans) :
    plan.storage.extent? (elements ++ children) =
        some ⟨plan.field.size, plan.field.kind.hostAlignment⟩ ∧
      plan.field.kind.hostAlignment ∈ [1, 4, 8] := by
  obtain ⟨hnone, hlookup⟩ := hp.lookup_elementTable? hr hc ht
  have hmf := mem_fields_of_mem_plans hm
  obtain ⟨hextent, ha⟩ := hp.extent?_hostType hc hmf hnone
  refine ⟨?_, ha⟩
  have ⟨_, hfield, _, _, _⟩ := hr
  have hregular := hfield _ hmf
  unfold FieldPlan.storage
  cases harray : plan.field.array with
  | none =>
    rw [hregular.single harray]
    exact hextent
  | some array =>
    dsimp only
    have hsize := hregular.size_eq array harray
    cases he : plan.element with
    | none =>
      have hpadded := (proper_planFrom plan hm).element_isSome
      rw [he] at hpadded
      have htight : array.stride = plan.field.elementSize := by
        unfold FieldSchema.isPadded at hpadded
        rw [harray] at hpadded
        simpa using hpadded.symm
      unfold FieldPlan.host
      rw [Option.elim_none, HostType.extent?, hextent, Option.map_some]
      dsimp only
      rw [hsize, htight, Nat.mul_comm]
    | some name =>
      rw [Option.elim_some, HostType.extent?, HostType.extent?, List.lookup_append,
        hlookup plan hm name he]
      change some (⟨array.length * plan.field.stride, _⟩ : Extent) = _
      rw [hsize, FieldSchema.stride_of_array harray, Nat.mul_comm]
      rfl

/-- Members whose fields stand in order, with padding members between them, are placed without
gaps. -/
theorem placeMembers?_dataMembersFrom {known : Table String Extent} {size : Nat}
    {plans : List FieldPlan}
    (hs : ∀ plan ∈ plans, plan.storage.extent? known =
      some ⟨plan.field.size, plan.field.kind.hostAlignment⟩)
    (hd : ∀ plan ∈ plans, plan.field.kind.hostAlignment ∣ plan.field.offset)
    {cursor : Nat} (hc : cursor ≤ size)
    (hb : ∀ plan ∈ plans, cursor ≤ plan.field.offset ∧ plan.field.finish ≤ size)
    (ho : plans.Pairwise fun plan next => plan.field.finish ≤ next.field.offset) (pads : Nat) :
    ∃ places, placeMembers? known cursor (dataMembersFrom size cursor pads plans) =
        some (places, ⟨size, largestAlignment (plans.map (·.field.kind.hostAlignment))⟩) ∧
      Contiguous cursor places size ∧
      ∀ plan ∈ plans, ⟨plan.identifier, plan.field.offset, plan.field.size⟩ ∈ places := by
  induction plans generalizing cursor pads with
  | nil =>
    rw [dataMembersFrom]
    split
    · have hcursor : cursor + (size - cursor) = size := by omega
      exact ⟨_, placeMembers?_pad hc (Nat.le_refl 1) rfl, ⟨rfl, hcursor⟩, by simp⟩
    · obtain rfl : cursor = size := by omega
      exact ⟨[], rfl, rfl, by simp⟩
  | cons plan rest ih =>
    obtain ⟨hfirst, hothers⟩ := List.forall_mem_cons.1 hb
    obtain ⟨hnext, horder⟩ := List.pairwise_cons.1 ho
    obtain ⟨hstorage, hstorages⟩ := List.forall_mem_cons.1 hs
    obtain ⟨halign, haligns⟩ := List.forall_mem_cons.1 hd
    -- Wherever the field begins, its own member and those behind it leave no gap.
    have hbehind : ∀ pads, ∃ places,
        placeMembers? known plan.field.offset (⟨plan.identifier, plan.storage⟩ ::
          dataMembersFrom size (plan.field.offset + plan.field.size) pads rest) =
            some (places,
              ⟨size, largestAlignment ((plan :: rest).map (·.field.kind.hostAlignment))⟩) ∧
        Contiguous plan.field.offset places size ∧ ∀ other ∈ plan :: rest,
          ⟨other.identifier, other.field.offset, other.field.size⟩ ∈ places := by
      intro pads
      obtain ⟨places, hplaces, hcontiguous, hin⟩ := ih hstorages haligns hfirst.2
        (fun other hm => ⟨hnext other hm, (hothers other hm).2⟩) horder pads
      refine ⟨_, placeMembers?_cons hstorage halign hplaces, ⟨rfl, hcontiguous⟩,
        List.forall_mem_cons.2 ⟨List.mem_cons_self, fun other hm => ?_⟩⟩
      exact List.mem_cons_of_mem _ (hin other hm)
    rw [dataMembersFrom]
    split
    · obtain ⟨places, hplaces, hcontiguous, hin⟩ := hbehind (pads + 1)
      have hoffset : cursor + (plan.field.offset - cursor) = plan.field.offset := by omega
      refine ⟨_, placeMembers?_pad hfirst.1 (one_le_largestAlignment _) hplaces,
        ⟨rfl, hoffset.symm ▸ hcontiguous⟩, fun other hm => List.mem_cons_of_mem _ (hin other hm)⟩
    · obtain rfl : cursor = plan.field.offset := by omega
      exact hbehind pads

/-- The host agrees with the schema on a plain-data struct. -/
structure TypeSchema.Agrees (schema : TypeSchema) (struct : HostStruct) : Prop where
  size : struct.size = schema.size
  packed : struct.Packed
  offset : ∀ plan ∈ schema.plans, struct.offsetOf? plan.identifier = some plan.field.offset
  element : ∀ plan ∈ schema.plans, plan.element.isSome → ∃ element,
    schema.elementStruct? plan = some element ∧ element.size = plan.field.stride ∧ element.Packed

/-- A regular schema has a plain-data struct as it describes it. -/
theorem hostStruct?_of_regular (hr : schema.Regular) (hp : schema.Prepared) :
    ∃ struct, schema.hostStruct? = some struct ∧ schema.Agrees struct ∧
      struct.alignment = largestAlignment (schema.fields.map (·.kind.hostAlignment)) ∧
      struct.alignment ∈ [1, 4, 8] := by
  obtain ⟨children, hc⟩ := hp.exists_childTable?
  obtain ⟨elements, ht, -⟩ := elementTable?_spec fun plan hm he =>
    ⟨_, (hp.layStruct?_element hr hc hm he).1⟩
  have hstorage := fun plan (hm : plan ∈ schema.plans) => hp.extent?_storage hr hc ht hm
  have ⟨hsize, hfield, hinside, horder, _⟩ := hr
  have hmf := fun plan (hm : plan ∈ schema.plans) => mem_fields_of_mem_plans hm
  have hplans : schema.plans.map FieldPlan.field = schema.fields := fields_planFrom _ _ _ _
  obtain ⟨places, hplaces, hcontiguous, hin⟩ := placeMembers?_dataMembersFrom
    (fun plan hm => (hstorage plan hm).1)
    (fun plan hm => (hfield _ (hmf plan hm)).hostAlignment_dvd (hstorage plan hm).2)
    (Nat.zero_le schema.size) (fun plan hm => ⟨Nat.zero_le _, hinside _ (hmf plan hm)⟩)
    (by rwa [← hplans, List.pairwise_map] at horder) 0
  have halignment : largestAlignment (schema.plans.map (·.field.kind.hostAlignment)) =
      largestAlignment (schema.fields.map (·.kind.hostAlignment)) := by
    rw [← hplans, List.map_map]
    rfl
  have hmem : largestAlignment (schema.fields.map (·.kind.hostAlignment)) ∈ [1, 4, 8] := by
    rw [← halignment]
    refine largestAlignment_mem (List.forall_mem_map.2 fun plan hm => (hstorage plan hm).2)
  rw [halignment] at hplaces
  have hlaid : layStruct? (elements ++ children) (schema.dataMembers schema.plans) =
      some ⟨places, schema.size,
        largestAlignment (schema.fields.map (·.kind.hostAlignment))⟩ := by
    unfold layStruct? TypeSchema.dataMembers
    rw [hplaces, Option.map_some]
    dsimp only
    rw [roundUp_eq_self_of_dvd (Nat.dvd_trans (dvd_minAlignment hmem) hsize)]
  have hnodup : (places.map HostPlace.name).Nodup := by
    rw [map_name_placeMembers? hplaces]
    exact nodup_dataMembersFrom proper_planFrom nodup_identifiers.1 0 0
  let struct : HostStruct :=
    ⟨places, schema.size, largestAlignment (schema.fields.map (·.kind.hostAlignment))⟩
  have hoffset : ∀ plan ∈ schema.plans,
      struct.offsetOf? plan.identifier = some plan.field.offset :=
    fun plan hm => HostStruct.offsetOf?_of_mem hnodup (hin plan hm)
  refine ⟨struct, ?_, ⟨rfl, hcontiguous, hoffset, fun plan hm he => ?_⟩, rfl, hmem⟩
  · rw [schema.hostStruct?_eq, hc, Option.bind_some, ht, Option.bind_some, hlaid]
  · obtain ⟨hlaid, hle⟩ := hp.layStruct?_element hr hc hm he
    refine ⟨plan.elementLayout, ?_, rfl, FieldPlan.elementLayout_packed hle⟩
    unfold TypeSchema.elementStruct?
    rw [hc]
    exact hlaid

end

end UniformLayout
