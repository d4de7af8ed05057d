import UniformLayout.Proofs.Instance.Cells

/-!
# Leaves in their order

The leaves of an instance lie one behind the other, in the order in which their fields are declared.
None of them is empty, since the types that have names have bytes. So the changes of an instance are
in ascending order, and no two of them have one offset.

* `TypeSchema.filled_of_toSchema`: types in built schemas have bytes.
* `TypeSchema.Regular.inOrder`: the leaves.

Main statement: `StructInstance.ascending_dirtyFields`.
-/

namespace UniformLayout

/-! ## Types have bytes -/

theorem BaseType.size_pos_of_ofName {name : String} {type : BaseType}
    (h : BaseType.ofName? name = some type) : 0 < type.size := by
  have hlanes : ∀ {text : List Char} {n : Nat}, dimension? text = some n → 0 < n := by
    intro text n hn
    have := mem_of_dimension hn
    simp only [List.mem_cons, List.not_mem_nil, or_false] at this
    omega
  unfold ofName? at h
  dsimp only at h
  rcases Option.or_eq_some_iff.1 h with h | ⟨-, h⟩
  · obtain ⟨kind, -, rfl⟩ := Option.map_eq_some_iff.1 h
    exact kind.size_pos
  · rcases Option.or_eq_some_iff.1 h with h | ⟨-, h⟩
    · unfold vectorOfName? at h
      dsimp only at h
      split at h
      · obtain ⟨lanes, hl, rfl⟩ := Option.map_eq_some_iff.1 h
        exact Nat.mul_pos (hlanes hl) (ScalarKind.size_pos _)
      · cases h
    · rcases Option.or_eq_some_iff.1 h with h | ⟨-, h⟩
      · have hstride : ∀ kind rows, 0 < matrixStride kind rows := by
          intro kind rows
          have := columnStride_matrix kind 0 rows
          change matrixStride kind rows = _ at this
          rw [this]
          split <;> decide
        unfold matrixOfName? at h
        dsimp only at h
        split at h
        · obtain ⟨columns, hc, h⟩ := Option.bind_eq_some_iff.1 h
          obtain ⟨rows, -, h⟩ := Option.bind_eq_some_iff.1 h
          obtain rfl := Option.some.inj h
          exact Nat.mul_pos (hlanes hc) (hstride _ _)
        · obtain ⟨side, hs, rfl⟩ := Option.map_eq_some_iff.1 h
          exact Nat.mul_pos (hlanes hs) (hstride _ _)
        · cases h
      · obtain ⟨kind, -, rfl⟩ := Option.map_eq_some_iff.1 h
        exact Nat.zero_lt_succ 3

/-- The types of values, on every level of nesting, have bytes. -/
inductive TypeSchema.Filled : TypeSchema → Prop
  | intro {schema : TypeSchema}
      (value : ∀ field ∈ schema.fields, ∀ type, field.kind = .value type → 0 < type.size)
      (nested : ∀ field ∈ schema.fields, ∀ inner, field.kind = .aggregate inner → inner.Filled) :
      TypeSchema.Filled schema

theorem TypeSchema.filled_of_toSchema {scope : SchemaScope} {layouts : List StructLayout}
    {layout : StructLayout} {kept after : SchemaTable} {schema : TypeSchema}
    (hb : Built scope layouts kept) (h : layout.toSchema scope kept = .ok (schema, after))
    (hl : ∀ other ∈ layout :: layouts, other.LaidOut) : schema.Filled := by
  have hstep : scope.Step StructLayout.LaidOut fun _ schema => schema.Filled := by
    rintro layout identity units fields hlaid - - hfields
    have hkinds : ∀ field ∈ fields, (∀ type, field.kind = .value type → 0 < type.size) ∧
        ∀ inner, field.kind = .aggregate inner → inner.Filled := by
      refine forall_of_forall₂ hfields fun field hm schema hb => ?_
      have hkind := hb.kind
      have hnamed := hlaid.named field hm
      generalize field.shape = shape at hkind hnamed
      generalize schema.kind = kind at hkind
      cases hkind with
      | handle handle => exact ⟨nofun, nofun⟩
      | value type _ =>
        refine ⟨fun other he => ?_, nofun⟩
        obtain rfl := FieldKind.value.inj he
        obtain ⟨name, hn⟩ := hnamed type rfl
        exact BaseType.size_pos_of_ofName hn
      | aggregate hbuilt => exact ⟨nofun, fun inner he => FieldKind.aggregate.inj he ▸ hbuilt⟩
    exact .intro (fun field hm => (hkinds field hm).1) fun field hm => (hkinds field hm).2
  obtain ⟨hlayout, hrest⟩ := List.forall_mem_cons.1 fun other hm => (hl other hm).throughout
  exact (toSchema_induction hstep hlayout (hb.induction hstep hrest) h).1

/-! ## Leaves one behind the other -/

/-- The leaves lie one behind the other between two places, and none is empty. -/
structure LeavesInOrder (low high : Nat) (leaves : List InstanceLeaf) : Prop where
  apart : leaves.Pairwise fun before after => before.start + before.content.size ≤ after.start
  inside : ∀ leaf ∈ leaves, low ≤ leaf.start ∧ leaf.start + leaf.content.size ≤ high
  filled : ∀ leaf ∈ leaves, 0 < leaf.content.size

namespace LeavesInOrder

variable {low mid start high : Nat} {leaves others : List InstanceLeaf}

theorem nil (low high : Nat) : LeavesInOrder low high [] :=
  ⟨.nil, by simp, by simp⟩

theorem single {content : LeafContent} (h : 0 < content.size) (low : Nat) :
    LeavesInOrder low (low + content.size) [⟨low, content⟩] :=
  ⟨List.pairwise_singleton _ _, by simp, by simpa using h⟩

theorem append (h : LeavesInOrder low mid leaves) (k : LeavesInOrder start high others)
    (hle : mid ≤ start) (hlow : low ≤ start) (hhigh : mid ≤ high) :
    LeavesInOrder low high (leaves ++ others) where
  apart := by
    refine List.pairwise_append.2 ⟨h.apart, k.apart, fun before hb after ha => ?_⟩
    have := (h.inside before hb).2
    have := (k.inside after ha).1
    omega
  inside := by
    refine List.forall_mem_append.2 ⟨fun leaf hm => ?_, fun leaf hm => ?_⟩
    · have := h.inside leaf hm
      omega
    · have := k.inside leaf hm
      omega
  filled := List.forall_mem_append.2 ⟨h.filled, k.filled⟩

theorem widen (h : LeavesInOrder start mid leaves) (hlow : low ≤ start) (hhigh : mid ≤ high) :
    LeavesInOrder low high leaves where
  apart := h.apart
  inside leaf hm := by
    have := h.inside leaf hm
    omega
  filled := h.filled

/-- Elements that do not overlap keep the order of their leaves. -/
theorem eachAt {α : Type} {place : Nat → α → List InstanceLeaf} {stride size : Nat} {list : List α}
    (hp : ∀ a ∈ list, ∀ base, LeavesInOrder base (base + size) (place base a)) {base : Nat}
    (hfit : ∀ i < list.length, base + i * stride + size ≤ high)
    (hstride : 1 < list.length → size ≤ stride) :
    LeavesInOrder base high (eachAt place stride base list) := by
  induction list generalizing base with
  | nil => exact nil base high
  | cons first rest ih =>
    have hfirst := hfit 0 (Nat.zero_lt_succ _)
    rw [Nat.zero_mul, Nat.add_zero] at hfirst
    rw [UniformLayout.eachAt]
    cases rest with
    | nil =>
      rw [UniformLayout.eachAt, List.append_nil]
      exact (hp first List.mem_cons_self base).widen (Nat.le_refl _) hfirst
    | cons next others =>
      have hle := hstride (by simp)
      have hbehind : ∀ i < (next :: others).length, base + stride + i * stride + size ≤ high := by
        intro i hi
        have := hfit (i + 1) (Nat.succ_lt_succ hi)
        rw [Nat.succ_mul] at this
        omega
      exact (hp first List.mem_cons_self base).append
        (ih (fun a hm => hp a (List.mem_cons_of_mem _ hm)) hbehind fun _ => hle)
        (Nat.add_le_add_left hle base) (Nat.le_add_right _ _) hfirst

end LeavesInOrder

/-- The leaves of all typed instances of the schema are in order. -/
def TypeSchema.InOrder (schema : TypeSchema) : Prop :=
  ∀ inst : StructInstance, inst.Typed → inst.schema = schema → ∀ base,
    LeavesInOrder base (base + schema.size) (inst.leaves base)

theorem FieldSchema.Regular.inOrder {field : FieldSchema} (h : field.Regular)
    (hv : ∀ type, field.kind = .value type → 0 < type.size)
    (hn : ∀ inner, field.kind = .aggregate inner → inner.InOrder) {state : FieldState}
    (ht : state.Typed field) (base : Nat) :
    LeavesInOrder base (base + field.size) (state.leaves base field.stride) := by
  have hfit := h.elements_inside base
  obtain ⟨contents, dirty, location, unit⟩ := state
  cases contents with
  | values list =>
    rw [FieldState.Typed] at ht
    obtain ⟨hl, type, hk, hall⟩ := ht
    have hsize := field.elementSize_of_value hk
    rw [FieldState.leaves]
    refine .eachAt (fun value hm start => ?_) (hl ▸ hfit)
      fun hlt => h.elementSize_le_stride (hl ▸ hlt)
    have hcontent : (LeafContent.value value).size = field.elementSize :=
      (congrArg BaseType.size (hall value hm).1).trans hsize.symm
    rw [← hcontent]
    exact .single (by rw [hcontent, hsize]; exact hv type hk) start
  | handles list =>
    rw [FieldState.Typed] at ht
    obtain ⟨hl, handle, hk⟩ := ht
    have hsize := field.elementSize_of_handle hk
    have hcount : (unitsFrom unit list.length).length = field.length := by
      rw [length_unitsFrom, hl]
    rw [FieldState.leaves]
    refine .eachAt (fun unit _ start => ?_) (hcount ▸ hfit)
      fun hlt => h.elementSize_le_stride (hcount ▸ hlt)
    rw [hsize]
    exact @LeavesInOrder.single (.handle unit) (Nat.zero_lt_succ 3) start
  | children list =>
    rw [FieldState.Typed] at ht
    obtain ⟨hl, inner, hk, hchildren⟩ := ht
    have hsize := field.elementSize_of_aggregate hk
    rw [FieldState.leaves, leavesOfChildren_eq]
    refine .eachAt (fun child hm start => ?_) (hl ▸ hfit)
      fun hlt => h.elementSize_le_stride (hl ▸ hlt)
    obtain ⟨hs, hc⟩ := childrenTyped_iff.1 hchildren child hm
    rw [hsize]
    exact hn inner hk child hc hs start

theorem inOrder_leavesOfStates {schemas : List FieldSchema} {states : List FieldState}
    (ht : StatesTyped schemas states)
    (hf : ∀ field ∈ schemas, ∀ state : FieldState, state.Typed field → ∀ base,
      LeavesInOrder base (base + field.size) (state.leaves base field.stride))
    (ho : schemas.Pairwise fun before after => before.finish ≤ after.offset) {base low high : Nat}
    (hb : ∀ field ∈ schemas, low ≤ base + field.offset ∧ base + field.finish ≤ high) :
    LeavesInOrder low high (leavesOfStates base schemas states) := by
  induction schemas generalizing states low with
  | nil => simpa [leavesOfStates] using LeavesInOrder.nil low high
  | cons field rest ih =>
    cases states with
    | nil => simpa [leavesOfStates] using LeavesInOrder.nil low high
    | cons state states =>
      rw [StatesTyped] at ht
      obtain ⟨hfirst, hrest⟩ := List.forall_mem_cons.1 hb
      obtain ⟨hnext, horder⟩ := List.pairwise_cons.1 ho
      obtain ⟨hown, hothers⟩ := List.forall_mem_cons.1 hf
      unfold FieldSchema.finish at hfirst hnext
      have hbehind : ∀ other ∈ rest, base + field.offset + field.size ≤ base + other.offset ∧
          base + other.finish ≤ high := by
        intro other hm
        have := hnext other hm
        exact ⟨by omega, (hrest other hm).2⟩
      rw [leavesOfStates]
      exact ((hown state ht.1 (base + field.offset)).append (ih ht.2 hothers horder hbehind)
        (Nat.le_refl _) (by omega) (by omega)).widen hfirst.1 (Nat.le_refl _)

/-- The induction is on the nesting of the schema. -/
theorem TypeSchema.Regular.inOrder {schema : TypeSchema} (h : schema.Regular) (hf : schema.Filled) :
    schema.InOrder := by
  induction h with
  | @intro schema _ hfield hinside horder _ ih =>
    obtain ⟨hvalue, hnested⟩ := hf
    rintro ⟨own, fields, attached⟩ ht rfl base
    rw [StructInstance.Typed] at ht
    rw [StructInstance.leaves]
    refine inOrder_leavesOfStates ht (fun field hm state hs => ?_) horder fun field hm => ?_
    · exact (hfield field hm).inOrder (hvalue field hm)
        (fun inner hk => ih field hm inner hk (hnested field hm inner hk)) hs
    · have := hinside field hm
      dsimp only at this ⊢
      omega

namespace StructInstance

/-- Changes are in ascending order of their offsets. -/
theorem ascending_dirtyFields {inst : StructInstance} (ht : inst.Typed) (hf : inst.Flagged)
    (ho : inst.schema.InOrder) :
    inst.dirtyFields.Pairwise fun before after => before.offset < after.offset := by
  have horder := ho inst ht rfl 0
  have hleaves : (inst.leaves 0).Pairwise fun before after => before.start < after.start := by
    refine horder.apart.imp_of_mem fun {before after} hm _ hle => ?_
    have := horder.filled before hm
    omega
  rw [← map_leaf_cells 0 inst hf, List.pairwise_map] at hleaves
  have hcells := hleaves.filter Cell.dirty
  have hplaces := inst.place_dirtyFrom "" 0 hf ht
  have hoffsets : inst.dirtyFields.map DirtyField.offset =
      ((inst.cells 0).filter Cell.dirty).map Cell.start := by
    have := congrArg (List.map (·.1.start)) hplaces
    rwa [List.map_map, List.map_map] at this
  rw [← List.pairwise_map (f := DirtyField.offset) (R := (· < ·)), hoffsets, List.pairwise_map]
  exact hcells

end StructInstance

end UniformLayout
