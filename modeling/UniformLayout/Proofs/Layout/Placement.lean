import UniformLayout.Proofs.Layout.Exact

/-!
# Where std140 places fields and elements

What holds of every layout that `TypeDeclaration.layOut` returns, on each level of nesting:
alignments are 4, 8, 16 or 32 for fields and 16 or 32 for aggregates, offsets and strides are
multiples of them, and the fields lie one behind the other inside the aggregate.

* `exactPlace_regular`: the exact place of a field is aligned, and so are its elements.
* `StructLayout.LaidOut.regular`: all of the above, for one level.
* `StructLayout.LaidOut.leavesWithin`: the leaves of a layout, which are the elements of base type
  on all levels, are aligned, lie inside the layout, and do not overlap.
-/

namespace UniformLayout

/-! ## One field -/

/-- A field and its elements are aligned, and the elements do not overlap. -/
structure FieldLayout.Regular (field : FieldLayout) : Prop where
  alignment_mem : field.alignment ∈ [4, 8, 16, 32]
  shape_dvd : field.shape.alignment ∣ field.alignment
  offset_dvd : field.alignment ∣ field.offset
  single : field.array = none → field.size = field.elementSize
  stride_dvd : ∀ array, field.array = some array → field.alignment ∣ array.stride
  element_le : ∀ array, field.array = some array → field.elementSize ≤ array.stride
  size_eq : ∀ array, field.array = some array → field.size = array.stride * array.length

/-- Of two alignments the smaller divides the greater. -/
theorem dvd_of_alignment_le {a b : Nat} (ha : a ∈ [4, 8, 16, 32]) (hb : b ∈ [4, 8, 16, 32])
    (hle : a ≤ b) : a ∣ b := by
  simp only [List.mem_cons, List.not_mem_nil, or_false] at ha hb
  rcases ha with rfl | rfl | rfl | rfl <;> rcases hb with rfl | rfl | rfl | rfl <;> omega

theorem max_alignment_mem {a b : Nat} (ha : a ∈ [4, 8, 16, 32]) (hb : b ∈ [4, 8, 16, 32]) :
    max a b ∈ [4, 8, 16, 32] := by
  rcases Nat.le_total a b with h | h
  · rwa [Nat.max_eq_right h]
  · rwa [Nat.max_eq_left h]

section

variable {shape : FieldShape}

theorem le_exactStride (shape : FieldShape) : shape.size ≤ exactStride shape :=
  Nat.le_trans (le_roundUp _ _) (le_roundUp _ _)

/-- The stride of an array is a multiple of the alignment of the array. -/
theorem dvd_exactStride (hs : shape.alignment ∈ [4, 8, 16, 32]) :
    max minAlignment shape.alignment ∣ exactStride shape := by
  have hmin : minAlignment ∈ [4, 8, 16, 32] := by decide
  rcases Nat.le_total shape.alignment minAlignment with h | h
  · rw [Nat.max_eq_left h]
    exact roundUp_dvd _ (by decide)
  · -- Once rounded to a multiple of 16 or 32, the element needs no second rounding.
    have hne : shape.alignment ≠ 0 := by
      intro h0
      rw [h0] at hs
      exact absurd hs (by decide)
    have hinner := roundUp_dvd shape.size hne
    rw [Nat.max_eq_right h, exactStride,
      roundUp_eq_self_of_dvd (Nat.dvd_trans (dvd_of_alignment_le hmin hs h) hinner)]
    exact hinner

theorem exactAlignment_mem (field : FieldDeclaration) (hs : shape.alignment ∈ [4, 8, 16, 32]) :
    field.exactAlignment shape ∈ [4, 8, 16, 32] := by
  unfold FieldDeclaration.exactAlignment
  split
  · exact max_alignment_mem (by decide) hs
  · exact hs

theorem exactPlace_regular (field : FieldDeclaration) (cursor : Nat)
    (hs : shape.alignment ∈ [4, 8, 16, 32]) : (field.exactPlace shape cursor).Regular := by
  have hmem := exactAlignment_mem field hs
  have hne : field.exactAlignment shape ≠ 0 := by
    intro h0
    rw [h0] at hmem
    exact absurd hmem (by decide)
  have harray : ∀ array, (field.exactPlace shape cursor).array = some array →
      ∃ length, field.arrayLength = some length ∧ array = ⟨length, exactStride shape⟩ := by
    intro array h
    obtain ⟨length, hl, rfl⟩ := Option.map_eq_some_iff.1 h
    exact ⟨length, hl, rfl⟩
  refine ⟨hmem, ?_, roundUp_dvd cursor hne, ?_, ?_, ?_, ?_⟩
  · apply dvd_of_alignment_le hs hmem
    unfold FieldDeclaration.exactAlignment
    split
    · exact Nat.le_max_right _ _
    · exact Nat.le_refl _
  · intro h
    have hl : field.arrayLength = none := Option.map_eq_none_iff.1 h
    change field.arrayLength.elim shape.size _ = shape.size
    rw [hl]
    rfl
  · intro array h
    obtain ⟨length, hl, rfl⟩ := harray array h
    change field.exactAlignment shape ∣ exactStride shape
    rw [FieldDeclaration.exactAlignment, hl]
    exact dvd_exactStride hs
  · intro array h
    obtain ⟨length, -, rfl⟩ := harray array h
    exact le_exactStride shape
  · intro array h
    obtain ⟨length, hl, rfl⟩ := harray array h
    change field.arrayLength.elim shape.size _ = _
    rw [hl]
    rfl

end

namespace FieldLayout.Regular

variable {field : FieldLayout}

/-- Every element stands at a multiple of the field's alignment. -/
theorem element_dvd (h : field.Regular) (index : Nat) :
    field.alignment ∣ field.elementOffset index := by
  unfold FieldLayout.elementOffset
  cases ha : field.array with
  | none => exact h.offset_dvd
  | some array =>
    exact Nat.dvd_add h.offset_dvd (Nat.dvd_trans (h.stride_dvd array ha) (Nat.dvd_mul_left _ _))

/-- An element ends before the next one starts. -/
theorem element_apart (h : field.Regular) {i j : Nat} (hij : i < j) (hj : j < field.length) :
    field.elementOffset i + field.elementSize ≤ field.elementOffset j := by
  unfold FieldLayout.elementOffset
  cases ha : field.array with
  | none =>
    simp only [FieldLayout.length, ha, Option.elim_none] at hj
    omega
  | some array =>
    have hle := h.element_le array ha
    have hmul : (i + 1) * array.stride ≤ j * array.stride := Nat.mul_le_mul_right _ hij
    rw [Nat.add_mul, Nat.one_mul] at hmul
    simp only [Option.elim_some]
    omega

/-- Every element lies inside the field. -/
theorem element_inside (h : field.Regular) {index : Nat} (hi : index < field.length) :
    field.offset ≤ field.elementOffset index ∧
      field.elementOffset index + field.elementSize ≤ field.finish := by
  unfold FieldLayout.elementOffset FieldLayout.finish
  cases ha : field.array with
  | none =>
    have := h.single ha
    simp only [Option.elim_none]
    omega
  | some array =>
    have hle := h.element_le array ha
    simp only [FieldLayout.length, ha, Option.elim_some] at hi
    have hmul : (index + 1) * array.stride ≤ array.length * array.stride :=
      Nat.mul_le_mul_right _ hi
    rw [Nat.add_mul, Nat.one_mul, Nat.mul_comm array.length] at hmul
    rw [h.size_eq array ha]
    simp only [Option.elim_some]
    omega

end FieldLayout.Regular

/-! ## One level -/

/-- The aggregate has the alignment of std140, and its fields are regular, stand in order and end
inside it. -/
structure StructLayout.Regular (layout : StructLayout) : Prop where
  alignment_eq : layout.alignment = 16 ∨ layout.alignment = 32
  size_dvd : layout.alignment ∣ layout.size
  field : ∀ field ∈ layout.fields, field.Regular
  field_dvd : ∀ field ∈ layout.fields, field.alignment ∣ layout.alignment
  inside : ∀ field ∈ layout.fields, field.finish ≤ layout.size
  in_order : layout.fields.Pairwise fun before after => before.finish ≤ after.offset

theorem StructLayout.Regular.alignment_mem {layout : StructLayout} (h : layout.Regular) :
    layout.alignment ∈ [4, 8, 16, 32] := by
  rcases h.alignment_eq with ha | ha <;> rw [ha] <;> decide

section

variable {nested : LayoutTable}

/-- Every aggregate of the table is aligned as std140 demands. -/
def AlignedTable (nested : LayoutTable) : Prop :=
  ∀ name below, nested.lookup name = some below → below.alignment ∈ [4, 8, 16, 32]

theorem shapeIn_alignment_mem (field : FieldDeclaration) (hn : AlignedTable nested) :
    (field.shapeIn nested).alignment ∈ [4, 8, 16, 32] := by
  unfold FieldDeclaration.shapeIn
  cases field.baseType? with
  | some type => exact type.alignment_mem
  | none =>
    cases hl : nested.lookup field.typeName with
    | none => exact BaseType.alignment_mem default
    | some below => exact hn _ _ hl

/-- Every field is placed by its own declaration, at the cursor or behind it. -/
theorem mem_exactFields {cursor : Nat} {fields : List FieldDeclaration} {placed : FieldLayout}
    (h : placed ∈ exactFields nested cursor fields) :
    ∃ field ∈ fields, ∃ from_, cursor ≤ from_ ∧
      placed = field.exactPlace (field.shapeIn nested) from_ := by
  induction fields generalizing cursor with
  | nil => cases h
  | cons field rest ih =>
    rcases List.mem_cons.1 h with rfl | hr
    · exact ⟨field, List.mem_cons_self, cursor, Nat.le_refl _, rfl⟩
    · obtain ⟨later, hm, from_, hle, rfl⟩ := ih hr
      refine ⟨later, List.mem_cons_of_mem _ hm, from_, ?_, rfl⟩
      have hfirst := le_roundUp cursor (field.exactAlignment (field.shapeIn nested))
      simp only [FieldLayout.finish, FieldDeclaration.exactPlace] at hle
      omega

theorem exactFields_in_order (nested : LayoutTable) (cursor : Nat)
    (fields : List FieldDeclaration) :
    (exactFields nested cursor fields).Pairwise fun before after =>
      before.finish ≤ after.offset := by
  induction fields generalizing cursor with
  | nil => exact List.Pairwise.nil
  | cons field rest ih =>
    refine List.Pairwise.cons (fun after hm => ?_) (ih _)
    obtain ⟨later, -, from_, hle, rfl⟩ := mem_exactFields hm
    exact Nat.le_trans hle (le_roundUp _ _)

/-- The last field ends behind all others. -/
theorem finish_le_finishOfFields {fields : List FieldLayout}
    (h : fields.Pairwise fun before after => before.finish ≤ after.offset) :
    ∀ field ∈ fields, field.finish ≤ finishOfFields fields := by
  induction fields with
  | nil => simp
  | cons field rest ih =>
    obtain ⟨hfirst, hrest⟩ := List.pairwise_cons.1 h
    have ih := ih hrest
    cases rest with
    | nil => simp [finishOfFields]
    | cons next others =>
      have hlast : finishOfFields (field :: next :: others) = finishOfFields (next :: others) := by
        simp [finishOfFields]
      rw [hlast]
      refine List.forall_mem_cons.2 ⟨?_, ih⟩
      have hnext := hfirst next List.mem_cons_self
      have hle := ih next List.mem_cons_self
      simp only [FieldLayout.finish] at hnext hle ⊢
      omega

/-- The greatest of some alignments, and at least a given one, is 16 or 32. -/
theorem foldl_max_alignment {alignments : List Nat} {least : Nat}
    (h : ∀ a ∈ alignments, a ∈ [4, 8, 16, 32]) (hl : least = 16 ∨ least = 32) :
    (alignments.foldl max least = 16 ∨ alignments.foldl max least = 32) ∧
      least ≤ alignments.foldl max least ∧ ∀ a ∈ alignments, a ≤ alignments.foldl max least := by
  induction alignments generalizing least with
  | nil => exact ⟨hl, Nat.le_refl _, by simp⟩
  | cons a rest ih =>
    obtain ⟨ha, hrest⟩ := List.forall_mem_cons.1 h
    have hmax : max least a = 16 ∨ max least a = 32 := by
      simp only [List.mem_cons, List.not_mem_nil, or_false] at ha
      omega
    obtain ⟨heq, hle, hall⟩ := ih hrest hmax
    rw [List.foldl_cons]
    refine ⟨heq, by omega, List.forall_mem_cons.2 ⟨by omega, hall⟩⟩

/-- The exact layout is regular, whatever it nests, as long as that is aligned. -/
theorem exactLayout_regular (decl : TypeDeclaration) (contentHash : String)
    (hn : AlignedTable nested) : (decl.exactLayout contentHash nested).Regular := by
  have hfield : ∀ placed ∈ exactFields nested 0 decl.fields, placed.Regular := by
    intro placed hm
    obtain ⟨field, -, from_, -, rfl⟩ := mem_exactFields hm
    exact exactPlace_regular field from_ (shapeIn_alignment_mem field hn)
  have horder := exactFields_in_order nested 0 decl.fields
  have halign : ∀ a ∈ (exactFields nested 0 decl.fields).map FieldLayout.alignment,
      a ∈ [4, 8, 16, 32] := by
    intro a hm
    obtain ⟨placed, hp, rfl⟩ := List.mem_map.1 hm
    exact (hfield placed hp).alignment_mem
  obtain ⟨heq, -, hle⟩ := foldl_max_alignment halign (Or.inl rfl : minAlignment = 16 ∨ _)
  have hmem : (decl.exactLayout contentHash nested).alignment ∈ [4, 8, 16, 32] := by
    change ((exactFields nested 0 decl.fields).map FieldLayout.alignment).foldl max minAlignment ∈ _
    rcases heq with ha | ha <;> rw [ha] <;> decide
  have hne : (decl.exactLayout contentHash nested).alignment ≠ 0 := by
    intro h0
    rw [h0] at hmem
    exact absurd hmem (by decide)
  refine ⟨heq, roundUp_dvd _ hne, hfield, ?_, ?_, horder⟩
  · intro placed hp
    exact dvd_of_alignment_le (hfield placed hp).alignment_mem hmem
      (hle _ (List.mem_map_of_mem hp))
  · intro placed hp
    exact Nat.le_trans (finish_le_finishOfFields horder placed hp) (le_roundUp _ _)

end

/-- **Regularity.** Every layout that `layOut` returns is regular. -/
theorem StructLayout.LaidOut.regular {layout : StructLayout} (h : layout.LaidOut) :
    layout.Regular := by
  induction h with
  | intro inner made ih =>
    obtain ⟨-, rfl, -, -⟩ := eq_exactLayout inner made
    exact exactLayout_regular _ _ fun name below hl => (ih name below hl).alignment_mem

/-- What an aggregate field of an exact layout holds comes from the table. -/
theorem lookup_of_exactFields {nested : LayoutTable} {fields : List FieldDeclaration}
    {cursor : Nat} {placed : FieldLayout} {below : StructLayout}
    (h : placed ∈ exactFields nested cursor fields) (hs : placed.shape = .aggregate below) :
    nested.lookup placed.typeName = some below := by
  obtain ⟨field, -, from_, -, rfl⟩ := mem_exactFields h
  change field.shapeIn nested = _ at hs
  change nested.lookup field.typeName = _
  unfold FieldDeclaration.shapeIn at hs
  cases hb : field.baseType? with
  | some type =>
    rw [hb] at hs
    cases hs
  | none =>
    rw [hb] at hs
    cases hl : nested.lookup field.typeName with
    | none =>
      rw [hl] at hs
      cases hs
    | some found =>
      rw [hl] at hs
      cases hs
      rfl

/-! ## All levels -/

/-- An element of base type at its absolute place. -/
structure Leaf where
  start : Nat
  type : BaseType

/-- The first byte behind the leaf. -/
def Leaf.finish (leaf : Leaf) : Nat := leaf.start + leaf.type.size

mutual

/-- The leaves at or below an element at `base`. -/
def FieldShape.leaves (base : Nat) : FieldShape → List Leaf
  | .base type => [⟨base, type⟩]
  | .aggregate layout => layout.leaves base

/-- The leaves below the elements of a field whose aggregate stands at `base`. -/
def FieldLayout.leaves (base : Nat) : FieldLayout → List Leaf
  | { shape, offset, array, .. } =>
    (List.range (array.elim 1 ArrayLayout.length)).flatMap fun index =>
      shape.leaves (base + (offset + array.elim 0 fun array => index * array.stride))

/-- The leaves of an aggregate that stands at `base`, in declaration order. -/
def StructLayout.leaves (base : Nat) : StructLayout → List Leaf
  | { fields, .. } => leavesOfAll base fields

/-- The leaves of the listed fields. -/
def leavesOfAll (base : Nat) : List FieldLayout → List Leaf
  | [] => []
  | field :: rest => field.leaves base ++ leavesOfAll base rest

end

theorem FieldLayout.leaves_eq (field : FieldLayout) (base : Nat) :
    field.leaves base = (List.range field.length).flatMap fun index =>
      field.shape.leaves (base + field.elementOffset index) := by
  cases field
  rw [FieldLayout.leaves]
  rfl

theorem leavesOfAll_eq (fields : List FieldLayout) (base : Nat) :
    leavesOfAll base fields = fields.flatMap (FieldLayout.leaves base) := by
  induction fields with
  | nil => rfl
  | cons field rest ih => rw [leavesOfAll, ih, List.flatMap_cons]

theorem StructLayout.leaves_eq (layout : StructLayout) (base : Nat) :
    layout.leaves base = layout.fields.flatMap (FieldLayout.leaves base) := by
  cases layout
  rw [StructLayout.leaves, leavesOfAll_eq]

/-- The leaves are aligned, lie between the two places, and stand in order without overlap. -/
structure LeavesWithin (leaves : List Leaf) (start finish : Nat) : Prop where
  aligned : ∀ leaf ∈ leaves, leaf.type.alignment ∣ leaf.start
  inside : ∀ leaf ∈ leaves, start ≤ leaf.start ∧ leaf.finish ≤ finish
  apart : leaves.Pairwise fun before after => before.finish ≤ after.start

/-- Stretches that stand in order can be joined. -/
theorem leavesWithin_flatMap {α : Type} {parts : List α} {leaves : α → List Leaf}
    (start finish : α → Nat) {low high : Nat}
    (hpart : ∀ part ∈ parts, LeavesWithin (leaves part) (start part) (finish part))
    (hlow : ∀ part ∈ parts, low ≤ start part) (hhigh : ∀ part ∈ parts, finish part ≤ high)
    (horder : parts.Pairwise fun before after => finish before ≤ start after) :
    LeavesWithin (parts.flatMap leaves) low high := by
  refine ⟨fun leaf hl => ?_, fun leaf hl => ?_, ?_⟩
  · obtain ⟨part, hp, hm⟩ := List.mem_flatMap.1 hl
    exact (hpart part hp).aligned leaf hm
  · obtain ⟨part, hp, hm⟩ := List.mem_flatMap.1 hl
    obtain ⟨hstart, hfinish⟩ := (hpart part hp).inside leaf hm
    exact ⟨Nat.le_trans (hlow part hp) hstart, Nat.le_trans hfinish (hhigh part hp)⟩
  · refine List.pairwise_flatMap.2 ⟨fun part hp => (hpart part hp).apart, ?_⟩
    refine horder.imp_of_mem ?_
    intro before after hb ha hle x hx y hy
    have h₁ := ((hpart before hb).inside x hx).2
    have h₂ := ((hpart after ha).inside y hy).1
    omega

/-- The leaves of an element stay inside the element, wherever it stands aligned. -/
def FieldShape.Contained (shape : FieldShape) : Prop :=
  ∀ base, shape.alignment ∣ base → LeavesWithin (shape.leaves base) base (base + shape.size)

theorem FieldShape.contained_base (type : BaseType) : (FieldShape.base type).Contained := by
  intro base hd
  rw [FieldShape.leaves]
  refine ⟨?_, ?_, List.pairwise_singleton _ _⟩
  · intro leaf hm
    rw [List.mem_singleton.1 hm]
    exact hd
  · intro leaf hm
    rw [List.mem_singleton.1 hm]
    exact ⟨Nat.le_refl _, Nat.le_refl _⟩

theorem FieldLayout.Regular.leavesWithin {field : FieldLayout} (h : field.Regular)
    (hs : field.shape.Contained) {base : Nat} (hb : field.alignment ∣ base) :
    LeavesWithin (field.leaves base) (base + field.offset) (base + field.finish) := by
  rw [FieldLayout.leaves_eq]
  refine leavesWithin_flatMap (fun i => base + field.elementOffset i)
    (fun i => base + field.elementOffset i + field.elementSize) ?_ ?_ ?_ ?_
  · intro i _
    exact hs _ (Nat.dvd_trans h.shape_dvd (Nat.dvd_add hb (h.element_dvd i)))
  · intro i hi
    have := h.element_inside (List.mem_range.1 hi)
    omega
  · intro i hi
    have := h.element_inside (List.mem_range.1 hi)
    omega
  · refine List.pairwise_lt_range.imp_of_mem ?_
    intro i j _ hj hij
    have := h.element_apart hij (List.mem_range.1 hj)
    omega

/-- **The leaves on all levels** are aligned, lie inside the layout and do not overlap. -/
theorem StructLayout.LaidOut.leavesWithin {layout : StructLayout} (h : layout.LaidOut) {base : Nat}
    (hb : layout.alignment ∣ base) :
    LeavesWithin (layout.leaves base) base (base + layout.size) := by
  induction h generalizing base with
  | @intro decl contentHash nested layout inner made ih =>
    have hl : layout.LaidOut := .intro inner made
    have hr := hl.regular
    rw [StructLayout.leaves_eq]
    refine leavesWithin_flatMap (fun field => base + field.offset)
      (fun field => base + field.finish) ?_ ?_ ?_ ?_
    · intro field hm
      refine (hr.field field hm).leavesWithin ?_ (Nat.dvd_trans (hr.field_dvd field hm) hb)
      cases hs : field.shape with
      | base type => exact FieldShape.contained_base type
      | aggregate below =>
        obtain ⟨-, rfl, -, -⟩ := eq_exactLayout inner made
        intro base' hb'
        rw [FieldShape.leaves]
        exact ih _ _ (lookup_of_exactFields hm hs) hb'
    · intro field _
      omega
    · intro field hm
      have := hr.inside field hm
      omega
    · refine hr.in_order.imp ?_
      intro before after hle
      omega

end UniformLayout
