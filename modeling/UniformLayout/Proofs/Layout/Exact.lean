import UniformLayout.Layout.Std140

/-!
# Exact std140 numbers

The std140 rules over natural numbers without a bound: `TypeDeclaration.exactLayout` computes every
offset, size, stride and alignment of a declaration and never fails. `TypeDeclaration.layOut` is
compared with it.

* `place?_of_addressable`, `place?_of_not_addressable`: a field is placed exactly when its exact
  numbers fit in 32 bits, and then by these numbers.
* `layOutFields_of_addressable`, `layOutFields_of_first`: the same for a list of fields, where the
  first field with a number that does not fit is the one that is named.
* `layOut_of_fits`, `layOut_of_overflowsAt`: the same for a whole declaration.

The layouts of the aggregates that a field may refer to have to come from `layOut` themselves
(`StructLayout.LaidOut`); all that is used of them here is that their alignment is not 0.
-/

namespace UniformLayout

/-! ## The exact numbers -/

/-- An element is padded to its own alignment and then to `minAlignment`. -/
def exactStride (shape : FieldShape) : Nat :=
  roundUp (roundUp shape.size shape.alignment) minAlignment

namespace FieldDeclaration

/-- What one element of the field is, where the table covers its type. -/
def shapeIn (field : FieldDeclaration) (nested : LayoutTable) : FieldShape :=
  match field.baseType? with
  | some type => .base type
  | none => (nested.lookup field.typeName).elim (.base default) .aggregate

/-- Elements of arrays are aligned to at least `minAlignment`. -/
def exactAlignment (field : FieldDeclaration) (shape : FieldShape) : Nat :=
  if field.arrayLength.isSome then max minAlignment shape.alignment else shape.alignment

/-- The field at the first multiple of its alignment that is not below `cursor`. -/
def exactPlace (field : FieldDeclaration) (shape : FieldShape) (cursor : Nat) : FieldLayout where
  name := field.name
  typeName := field.typeName
  shape := shape
  offset := roundUp cursor (field.exactAlignment shape)
  size := field.arrayLength.elim shape.size fun length => exactStride shape * length
  alignment := field.exactAlignment shape
  array := field.arrayLength.map fun length => ⟨length, exactStride shape⟩
  qualifiers := field.qualifiers

end FieldDeclaration

/-- The fields one behind the other, from `cursor` on. -/
def exactFields (nested : LayoutTable) : (cursor : Nat) → List FieldDeclaration → List FieldLayout
  | _, [] => []
  | cursor, field :: rest =>
    let placed := field.exactPlace (field.shapeIn nested) cursor
    placed :: exactFields nested placed.finish rest

/-- The exact layout of a declaration. -/
def TypeDeclaration.exactLayout (decl : TypeDeclaration) (contentHash : String)
    (nested : LayoutTable) : StructLayout :=
  let fields := exactFields nested 0 decl.fields
  let alignment := (fields.map FieldLayout.alignment).foldl max minAlignment
  { name := decl.name, contentHash, kind := decl.kind, fields
    size := roundUp (finishOfFields fields) alignment, alignment }

/-! ## Numbers that fit in 32 bits -/

/-- Stride, size, offset and end of the field fit. -/
structure FieldLayout.Addressable (field : FieldLayout) : Prop where
  stride : ∀ array, field.array = some array → Fits array.stride
  size : Fits field.size
  offset : Fits field.offset
  finish : Fits field.finish

/-- All numbers of the layout fit. -/
structure StructLayout.Addressable (layout : StructLayout) : Prop where
  fields : ∀ field ∈ layout.fields, field.Addressable
  alignments : ∀ field ∈ layout.fields, Fits field.alignment
  alignment : Fits layout.alignment
  size : Fits layout.size

/-- The name of the first field with a number that does not fit. -/
def FirstOverflow (fields : List FieldLayout) (name : String) : Prop :=
  ∃ before field after, fields = before ++ field :: after ∧
    (∀ earlier ∈ before, earlier.Addressable) ∧ ¬ field.Addressable ∧ field.name = name

/-- The field that is named when a number does not fit: the first one with such a number, and the
last one when only the rounding of the whole size fails. -/
def StructLayout.OverflowsAt (layout : StructLayout) (name : String) : Prop :=
  FirstOverflow layout.fields name ∨
    ((∀ field ∈ layout.fields, field.Addressable) ∧ ¬ Fits layout.size ∧
      layout.fields.getLast?.map FieldLayout.name = some name)

/-! ## Tables of nested layouts -/

/-- The layout was made by `layOut` from layouts that were made in the same way. -/
inductive StructLayout.LaidOut : StructLayout → Prop where
  | intro {decl : TypeDeclaration} {contentHash : String} {nested : LayoutTable}
      {layout : StructLayout}
      (inner : ∀ name below, nested.lookup name = some below → below.LaidOut)
      (made : decl.layOut contentHash nested = .ok layout) : layout.LaidOut

/-- Every layout of the table was made by `layOut`. -/
def LayoutTable.LaidOut (nested : LayoutTable) : Prop :=
  ∀ name below, nested.lookup name = some below → below.LaidOut

/-- The table has a layout for every aggregate that the fields refer to. -/
def LayoutTable.Covers (nested : LayoutTable) (fields : List FieldDeclaration) : Prop :=
  ∀ field ∈ fields, field.baseType? = none → (nested.lookup field.typeName).isSome

theorem LayoutTable.Covers.head {nested : LayoutTable} {field : FieldDeclaration}
    {rest : List FieldDeclaration} (h : nested.Covers (field :: rest)) :
    field.baseType? = none → (nested.lookup field.typeName).isSome :=
  h field List.mem_cons_self

theorem LayoutTable.Covers.tail {nested : LayoutTable} {field : FieldDeclaration}
    {rest : List FieldDeclaration} (h : nested.Covers (field :: rest)) : nested.Covers rest :=
  fun later hm => h later (List.mem_cons_of_mem field hm)

/-! ## Alignments -/

theorem BaseType.alignment_mem (type : BaseType) : type.alignment ∈ [4, 8, 16, 32] := by
  have hv : ∀ (kind : ScalarKind) (lanes : Nat), vectorAlignment kind lanes ∈ [8, 16, 32] := by
    intro kind lanes
    unfold vectorAlignment
    split <;> cases kind <;> decide
  cases type with
  | scalar kind => cases kind <;> decide
  | vector kind lanes =>
    have := hv kind lanes
    simp only [alignment]
    grind
  | matrix kind columns rows =>
    have hs := columnStride_matrix kind columns rows
    simp only [columnStride] at hs
    simp only [alignment, hs]
    split <;> decide
  | handle kind => exact List.mem_cons_self

theorem BaseType.alignment_ne_zero (type : BaseType) : type.alignment ≠ 0 := by
  intro h
  have := type.alignment_mem
  rw [h] at this
  exact absurd this (by decide)

/-! ## One field -/

section

variable {field : FieldDeclaration} {shape : FieldShape} {cursor : Nat}

theorem exactAlignment_ne_zero (field : FieldDeclaration) (hs : shape.alignment ≠ 0) :
    field.exactAlignment shape ≠ 0 := by
  unfold FieldDeclaration.exactAlignment
  split
  · simp [minAlignment]
  · exact hs

theorem arrayStride_of_fits (hs : shape.alignment ≠ 0) (h : Fits (exactStride shape)) :
    arrayStride shape.size shape.alignment = some (exactStride shape) := by
  have hinner : Fits (roundUp shape.size shape.alignment) :=
    Nat.lt_of_le_of_lt (le_roundUp _ minAlignment) h
  have hone : checkedRoundUp shape.size shape.alignment =
      some (roundUp shape.size shape.alignment) :=
    (checkedRoundUp_eq_some_iff hs).2 ⟨hinner, rfl⟩
  unfold arrayStride
  rw [hone]
  exact (checkedRoundUp_eq_some_iff (by decide)).2 ⟨h, rfl⟩

theorem fits_of_arrayStride {stride : Nat} (hs : shape.alignment ≠ 0)
    (h : arrayStride shape.size shape.alignment = some stride) : Fits (exactStride shape) := by
  unfold arrayStride at h
  obtain ⟨inner, hinner, hstride⟩ := Option.bind_eq_some_iff.1 h
  obtain ⟨-, rfl⟩ := (checkedRoundUp_eq_some_iff hs).1 hinner
  exact ((checkedRoundUp_eq_some_iff (by decide)).1 hstride).1

theorem place?_of_addressable (hs : shape.alignment ≠ 0)
    (h : (field.exactPlace shape cursor).Addressable) :
    field.place? shape cursor = some (field.exactPlace shape cursor) := by
  have hoffset : checkedRoundUp cursor (field.exactAlignment shape) =
      some (roundUp cursor (field.exactAlignment shape)) :=
    (checkedRoundUp_eq_some_iff (exactAlignment_ne_zero field hs)).2 ⟨h.offset, rfl⟩
  have hfinish := h.finish
  unfold FieldDeclaration.place? FieldDeclaration.extent?
  cases hl : field.arrayLength with
  | none =>
    simp_all [FieldDeclaration.exactPlace, FieldDeclaration.exactAlignment, FieldLayout.finish,
      checked]
  | some length =>
    have hstride := arrayStride_of_fits hs
      (h.stride ⟨length, exactStride shape⟩ (by simp [FieldDeclaration.exactPlace, hl]))
    have hsize := h.size
    simp_all [FieldDeclaration.exactPlace, FieldDeclaration.exactAlignment, FieldLayout.finish,
      checked, Nat.max_comm]

/-- The extent that is computed, if there is one, has the exact numbers. -/
theorem extent?_eq_some (cursor : Nat) (hs : shape.alignment ≠ 0) {size alignment : Nat}
    {array : Option ArrayLayout} (h : field.extent? shape = some (size, alignment, array)) :
    size = (field.exactPlace shape cursor).size ∧
      alignment = (field.exactPlace shape cursor).alignment ∧
      array = (field.exactPlace shape cursor).array ∧
      (∀ found, array = some found → Fits found.stride ∧ Fits size) := by
  unfold FieldDeclaration.extent? at h
  cases hl : field.arrayLength with
  | none =>
    simp only [hl, Option.some.injEq, Prod.mk.injEq] at h
    obtain ⟨rfl, rfl, rfl⟩ := h
    simp [FieldDeclaration.exactPlace, FieldDeclaration.exactAlignment, hl]
  | some length =>
    simp only [hl] at h
    obtain ⟨stride, hstride, h⟩ := Option.bind_eq_some_iff.1 h
    obtain ⟨total, htotal, h⟩ := Option.bind_eq_some_iff.1 h
    have hfits := fits_of_arrayStride hs hstride
    obtain rfl : exactStride shape = stride :=
      Option.some.inj ((arrayStride_of_fits hs hfits).symm.trans hstride)
    obtain ⟨hsize, rfl⟩ := checked_eq_some_iff.1 htotal
    simp only [Option.pure_def, Option.some.injEq, Prod.mk.injEq] at h
    obtain ⟨rfl, rfl, rfl⟩ := h
    simp [FieldDeclaration.exactPlace, FieldDeclaration.exactAlignment, hl, hfits, hsize,
      Nat.max_comm]

theorem addressable_of_place? (hs : shape.alignment ≠ 0) {placed : FieldLayout}
    (h : field.place? shape cursor = some placed) :
    (field.exactPlace shape cursor).Addressable := by
  unfold FieldDeclaration.place? at h
  obtain ⟨⟨size, alignment, array⟩, hextent, h⟩ := Option.bind_eq_some_iff.1 h
  obtain ⟨offset, hoffset, h⟩ := Option.bind_eq_some_iff.1 h
  obtain ⟨finish, hfinish, -⟩ := Option.bind_eq_some_iff.1 h
  obtain ⟨rfl, rfl, rfl, harray⟩ := extent?_eq_some cursor hs hextent
  obtain ⟨hfits, rfl⟩ := (checkedRoundUp_eq_some_iff (exactAlignment_ne_zero field hs)).1 hoffset
  obtain ⟨hend, -⟩ := checked_eq_some_iff.1 hfinish
  exact {
    stride := fun found hf => (harray found hf).1
    size := Nat.lt_of_le_of_lt (Nat.le_add_left _ _) hend
    offset := hfits
    finish := hend }

theorem place?_of_not_addressable (hs : shape.alignment ≠ 0)
    (h : ¬ (field.exactPlace shape cursor).Addressable) : field.place? shape cursor = none := by
  cases hp : field.place? shape cursor with
  | none => rfl
  | some placed => exact absurd (addressable_of_place? hs hp) h

end

/-! ## A list of fields -/

theorem le_commonAlignment (fields : List FieldLayout) : minAlignment ≤ commonAlignment fields := by
  unfold commonAlignment
  generalize minAlignment = least
  induction fields generalizing least with
  | nil => exact Nat.le_refl _
  | cons field rest ih => exact Nat.le_trans (Nat.le_max_left _ _) (ih _)

/-- What a successful run of `layOut` consists of. -/
theorem layOut_eq_ok {decl : TypeDeclaration} {contentHash : String} {nested : LayoutTable}
    {layout : StructLayout} (h : decl.layOut contentHash nested = .ok layout) :
    ∃ fields size, layOutFields decl.name nested 0 decl.fields = .ok fields ∧
      checkedRoundUp (finishOfFields fields) (commonAlignment fields) = some size ∧
      layout = { name := decl.name, contentHash, kind := decl.kind, fields, size
                 alignment := commonAlignment fields } := by
  unfold TypeDeclaration.layOut at h
  obtain ⟨fields, hf, h⟩ := bind_eq_ok_iff.1 h
  dsimp only at h
  split at h
  · rename_i size hsize
    cases h
    exact ⟨fields, size, hf, hsize, rfl⟩
  · cases h

theorem StructLayout.LaidOut.alignment_ne_zero {layout : StructLayout} (h : layout.LaidOut) :
    layout.alignment ≠ 0 := by
  obtain ⟨-, made⟩ := h
  obtain ⟨fields, size, -, -, rfl⟩ := layOut_eq_ok made
  have := le_commonAlignment fields
  simp only [minAlignment] at this
  simp only
  omega

section

variable {owner : String} {nested : LayoutTable}

theorem shape_eq_ok {field : FieldDeclaration} (owner : String)
    (hc : field.baseType? = none → (nested.lookup field.typeName).isSome) :
    field.shape owner nested = .ok (field.shapeIn nested) := by
  unfold FieldDeclaration.shape FieldDeclaration.shapeIn
  cases hb : field.baseType? with
  | some type => rfl
  | none =>
    obtain ⟨layout, hl⟩ := Option.isSome_iff_exists.1 (hc hb)
    rw [hl]
    rfl

theorem shapeIn_alignment_ne_zero (field : FieldDeclaration) (hn : nested.LaidOut) :
    (field.shapeIn nested).alignment ≠ 0 := by
  unfold FieldDeclaration.shapeIn
  cases field.baseType? with
  | some type => exact type.alignment_ne_zero
  | none =>
    cases hl : nested.lookup field.typeName with
    | none => exact BaseType.alignment_ne_zero default
    | some below => exact (hn _ _ hl).alignment_ne_zero

theorem layOut_field_of_addressable {field : FieldDeclaration} {cursor : Nat}
    (hn : nested.LaidOut) (hc : field.baseType? = none → (nested.lookup field.typeName).isSome)
    (h : (field.exactPlace (field.shapeIn nested) cursor).Addressable) :
    field.layOut owner nested cursor = .ok (field.exactPlace (field.shapeIn nested) cursor) := by
  unfold FieldDeclaration.layOut
  rw [shape_eq_ok owner hc, ok_bind,
    place?_of_addressable (shapeIn_alignment_ne_zero field hn) h]
  rfl

theorem layOut_field_of_not_addressable {field : FieldDeclaration} {cursor : Nat}
    (hn : nested.LaidOut) (hc : field.baseType? = none → (nested.lookup field.typeName).isSome)
    (h : ¬ (field.exactPlace (field.shapeIn nested) cursor).Addressable) :
    field.layOut owner nested cursor = .error (.layoutOverflow owner field.name) := by
  unfold FieldDeclaration.layOut
  rw [shape_eq_ok owner hc, ok_bind,
    place?_of_not_addressable (shapeIn_alignment_ne_zero field hn) h]
  rfl

theorem layOutFields_of_addressable {fields : List FieldDeclaration} {cursor : Nat}
    (hn : nested.LaidOut) (hc : nested.Covers fields)
    (h : ∀ placed ∈ exactFields nested cursor fields, placed.Addressable) :
    layOutFields owner nested cursor fields = .ok (exactFields nested cursor fields) := by
  induction fields generalizing cursor with
  | nil => rfl
  | cons field rest ih =>
    simp only [exactFields, List.forall_mem_cons] at h
    rw [layOutFields, layOut_field_of_addressable hn hc.head h.1]
    rw [ok_bind, ih hc.tail h.2]
    rfl

/-- The fields before the first one that does not fit are placed, and that one is reported. -/
theorem layOutFields_of_first {fields : List FieldDeclaration} {cursor : Nat} {name : String}
    (hn : nested.LaidOut) (hc : nested.Covers fields)
    (h : FirstOverflow (exactFields nested cursor fields) name) :
    layOutFields owner nested cursor fields = .error (.layoutOverflow owner name) := by
  induction fields generalizing cursor with
  | nil =>
    obtain ⟨before, field, after, hsplit, -⟩ := h
    simp [exactFields] at hsplit
  | cons field rest ih =>
    obtain ⟨before, first, after, hsplit, hbefore, hfirst, rfl⟩ := h
    rw [layOutFields]
    cases before with
    | nil =>
      obtain ⟨rfl, -⟩ := List.cons.inj hsplit
      rw [layOut_field_of_not_addressable hn hc.head hfirst]
      rfl
    | cons earlier before =>
      obtain ⟨rfl, htail⟩ := List.cons.inj hsplit
      rw [List.forall_mem_cons] at hbefore
      rw [layOut_field_of_addressable hn hc.head hbefore.1]
      change (layOutFields owner nested _ rest >>= fun others => _) = _
      rw [ih hc.tail ⟨before, first, after, htail, hbefore.2, hfirst, rfl⟩]
      rfl

/-- Either every field fits, or there is a first one that does not. -/
theorem addressable_or_first (fields : List FieldLayout) :
    (∀ field ∈ fields, field.Addressable) ∨ ∃ name, FirstOverflow fields name := by
  induction fields with
  | nil => exact Or.inl (by simp)
  | cons field rest ih =>
    by_cases hf : field.Addressable
    · rcases ih with hall | ⟨name, before, first, after, rfl, hbefore, hfirst, hname⟩
      · exact Or.inl (List.forall_mem_cons.2 ⟨hf, hall⟩)
      · exact Or.inr ⟨name, field :: before, first, after, rfl,
          List.forall_mem_cons.2 ⟨hf, hbefore⟩, hfirst, hname⟩
    · exact Or.inr ⟨field.name, [], field, rest, rfl, by simp, hf, rfl⟩

/-- Fields are only placed where the table has a layout for each aggregate. -/
theorem covers_of_layOutFields_eq_ok {fields : List FieldDeclaration} {cursor : Nat}
    {placed : List FieldLayout} (h : layOutFields owner nested cursor fields = .ok placed) :
    nested.Covers fields := by
  induction fields generalizing cursor placed with
  | nil =>
    intro field hm
    cases hm
  | cons field rest ih =>
    rw [layOutFields] at h
    obtain ⟨first, hfirst, h⟩ := bind_eq_ok_iff.1 h
    obtain ⟨others, hrest, -⟩ := bind_eq_ok_iff.1 h
    refine List.forall_mem_cons.2 ⟨fun hb => ?_, ih hrest⟩
    cases hl : nested.lookup field.typeName with
    | some below => rfl
    | none =>
      simp only [FieldDeclaration.layOut, FieldDeclaration.shape, hb, hl] at hfirst
      cases hfirst

end

/-! ## A declaration -/

section

variable {decl : TypeDeclaration} {contentHash : String} {nested : LayoutTable}

theorem commonAlignment_eq (fields : List FieldLayout) :
    commonAlignment fields = (fields.map FieldLayout.alignment).foldl max minAlignment :=
  List.foldl_map.symm

/-- A declaration whose numbers fit gets its exact layout. -/
theorem layOut_of_fits (hn : nested.LaidOut) (hc : nested.Covers decl.fields)
    (hf : ∀ field ∈ (decl.exactLayout contentHash nested).fields, field.Addressable)
    (hs : Fits (decl.exactLayout contentHash nested).size) :
    decl.layOut contentHash nested = .ok (decl.exactLayout contentHash nested) := by
  have hsize : checkedRoundUp (finishOfFields (exactFields nested 0 decl.fields))
      (commonAlignment (exactFields nested 0 decl.fields)) =
        some (decl.exactLayout contentHash nested).size := by
    have := le_commonAlignment (exactFields nested 0 decl.fields)
    simp only [minAlignment] at this
    rw [checkedRoundUp_eq_some_iff (by omega), commonAlignment_eq]
    exact ⟨hs, rfl⟩
  unfold TypeDeclaration.layOut
  rw [layOutFields_of_addressable hn hc hf, ok_bind]
  dsimp only
  rw [hsize, commonAlignment_eq]
  rfl

/-- A declaration with a number that does not fit is refused. -/
theorem layOut_of_overflowsAt {name : String} (hn : nested.LaidOut)
    (hc : nested.Covers decl.fields)
    (h : (decl.exactLayout contentHash nested).OverflowsAt name) :
    decl.layOut contentHash nested = .error (.layoutOverflow decl.name name) := by
  unfold TypeDeclaration.layOut
  rcases h with hfirst | ⟨hall, hsize, hlast⟩
  · rw [layOutFields_of_first hn hc hfirst]
    rfl
  · rw [layOutFields_of_addressable hn hc hall, ok_bind]
    have hnone : checkedRoundUp (finishOfFields (exactFields nested 0 decl.fields))
        (commonAlignment (exactFields nested 0 decl.fields)) = none := by
      have := le_commonAlignment (exactFields nested 0 decl.fields)
      simp only [minAlignment] at this
      rw [checkedRoundUp, if_neg (by omega), checked_eq_none_iff, commonAlignment_eq]
      exact hsize
    dsimp only
    rw [hnone]
    obtain ⟨last, hl, rfl⟩ := Option.map_eq_some_iff.1 hlast
    have hl' : (exactFields nested 0 decl.fields).getLast? = some last := hl
    rw [hl']
    rfl

/-- Either all numbers fit, or the field that is named is determined. -/
theorem fits_or_overflowsAt (decl : TypeDeclaration) (contentHash : String)
    (nested : LayoutTable) :
    ((∀ field ∈ (decl.exactLayout contentHash nested).fields, field.Addressable) ∧
        Fits (decl.exactLayout contentHash nested).size) ∨
      ∃ name, (decl.exactLayout contentHash nested).OverflowsAt name := by
  rcases addressable_or_first (decl.exactLayout contentHash nested).fields with
    hall | ⟨name, hfirst⟩
  · by_cases hs : Fits (decl.exactLayout contentHash nested).size
    · exact Or.inl ⟨hall, hs⟩
    · cases hl : (decl.exactLayout contentHash nested).fields.getLast? with
      | none =>
        have hnil : exactFields nested 0 decl.fields = [] := List.getLast?_eq_none_iff.1 hl
        refine absurd ?_ hs
        simp [TypeDeclaration.exactLayout, hnil, finishOfFields, roundUp, minAlignment, Fits]
      | some last => exact Or.inr ⟨last.name, Or.inr ⟨hall, hs, by rw [hl]; rfl⟩⟩
  · exact Or.inr ⟨name, Or.inl hfirst⟩

/-- A layout that is returned is the exact one. -/
theorem eq_exactLayout {layout : StructLayout} (hn : nested.LaidOut)
    (h : decl.layOut contentHash nested = .ok layout) :
    nested.Covers decl.fields ∧ layout = decl.exactLayout contentHash nested ∧
      (∀ field ∈ layout.fields, field.Addressable) ∧ Fits layout.size := by
  obtain ⟨fields, size, hfields, -, -⟩ := layOut_eq_ok h
  have hc := covers_of_layOutFields_eq_ok hfields
  rcases fits_or_overflowsAt decl contentHash nested with ⟨hf, hs⟩ | ⟨name, hname⟩
  · obtain rfl := Except.ok.inj ((layOut_of_fits hn hc hf hs).symm.trans h)
    exact ⟨hc, rfl, hf, hs⟩
  · rw [layOut_of_overflowsAt hn hc hname] at h
    cases h

end

end UniformLayout
