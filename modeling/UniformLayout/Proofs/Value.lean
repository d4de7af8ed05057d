import UniformLayout.Proofs.Footprint

/-!
# The std140 encoding of a value, byte by byte

`UniformValue.std140Byte` says which byte stands where: the components of a column lie one behind the
other, columns are `columnStride` bytes apart, and what is left between them is zero. Writing a
well-formed value to a place that is zero gives these bytes.

* `exists_inColumns`: every well-formed value consists of columns at multiples of the column stride.
* `writeTo?_writes`: what is written.
* `sameBits_of_std140Byte_eq`: the components can be read off.
-/

namespace UniformLayout

open Image

/-- The number of components in a column. A scalar or a vector is one column. -/
def ValueShape.rows : ValueShape → Nat
  | .scalar => 1
  | .vector lanes => lanes
  | .square side => side
  | .matrix _ rows => rows

namespace UniformValue

/-- Byte `i` of the encoding of a value. -/
def std140Byte (value : UniformValue) (i : Nat) : UInt8 :=
  let column := i / value.baseType.columnStride
  let rest := i % value.baseType.columnStride
  let row := rest / value.kind.size
  if row < value.shape.rows then
    byteAt (value.components.getD (column * value.shape.rows + row) 0).toNat
      (rest % value.kind.size)
  else 0

/-- The place of a value, with its bytes. -/
def stretch (value : UniformValue) (start : Nat) : Stretch where
  start
  size := value.baseType.size
  byte := value.std140Byte

variable {value : UniformValue}

theorem length_of_wellFormed (h : value.isWellFormed) :
    value.components.length = value.shape.count :=
  beq_iff_eq.1 h

/-- Which byte of which component stands at a place. -/
theorem getD_bytesOf (kind : ScalarKind) {components : List UInt64} {i : Nat}
    (h : i / kind.size < components.length) :
    (bytesOf kind components).getD i 0 =
      byteAt (components.getD (i / kind.size) 0).toNat (i % kind.size) := by
  have hpos := kind.size_pos
  induction components generalizing i with
  | nil => cases h
  | cons component rest ih =>
    unfold bytesOf at ih ⊢
    rw [List.flatMap_cons, List.getD_eq_getElem?_getD]
    rcases Nat.lt_or_ge i kind.size with hlt | hge
    · rw [List.getElem?_append_left (by rwa [length_littleEndian]), getElem?_littleEndian hlt,
        Nat.div_eq_of_lt hlt, Nat.mod_eq_of_lt hlt]
      rfl
    · have hdiv : i / kind.size = (i - kind.size) / kind.size + 1 := by
        rw [Nat.div_eq_sub_div hpos hge]
      rw [List.length_cons] at h
      rw [List.getElem?_append_right (by rwa [length_littleEndian]), length_littleEndian,
        ← List.getD_eq_getElem?_getD, ih (by omega), hdiv, Nat.mod_eq_sub_mod hge]
      rfl

/-! ## Columns -/

/-- The components of one column. -/
def column (value : UniformValue) (index : Nat) : List UInt64 :=
  (value.components.drop (index * value.shape.rows)).take value.shape.rows

/-- Where a component starts in the encoding. -/
def componentStart (value : UniformValue) (k : Nat) : Nat :=
  k / value.shape.rows * value.baseType.columnStride + k % value.shape.rows * value.kind.size

/-- The value consists of columns that stand at multiples of the column stride. -/
structure InColumns (value : UniformValue) (columns : Nat) : Prop where
  length : value.components.length = columns * value.shape.rows
  size : value.baseType.size = columns * value.baseType.columnStride
  fit : value.shape.rows * value.kind.size ≤ value.baseType.columnStride
  encoding : value.encoding? = some ((List.range columns).map fun index =>
    (index * value.baseType.columnStride, bytesOf value.kind (value.column index)))

theorem inColumns_one (hw : value.isWellFormed)
    (he : value.encoding? = some [(0, bytesOf value.kind value.components)])
    (hs : value.baseType.columnStride = value.shape.rows * value.kind.size)
    (hb : value.baseType.size = value.baseType.columnStride)
    (hr : value.shape.count = value.shape.rows) : value.InColumns 1 := by
  have hlength : value.components.length = value.shape.rows :=
    (length_of_wellFormed hw).trans hr
  refine ⟨hlength.trans (Nat.one_mul _).symm, hb.trans (Nat.one_mul _).symm,
    Nat.le_of_eq hs.symm, ?_⟩
  have hcolumn : value.column 0 = value.components := by
    unfold column
    rw [Nat.zero_mul, List.drop_zero, ← hlength, List.take_length]
  rw [he, List.range_one, List.map_singleton, hcolumn, Nat.zero_mul]

theorem inColumns_matrix {columns rows : Nat} (hw : value.isWellFormed)
    (hb : value.baseType = .matrix value.kind columns rows) (hs : value.shape.rows = rows)
    (hc : value.shape.count = columns * rows) (hr : rows ∈ [2, 3, 4])
    (he : value.encoding? = some ((columnsOf value.baseType.columnStride rows
      (value.components.take (columns * rows))).map fun column =>
        (column.1, bytesOf value.kind column.2))) : value.InColumns columns := by
  have hlength : value.components.length = columns * rows := (length_of_wellFormed hw).trans hc
  obtain ⟨hne, h4⟩ : 0 < rows ∧ rows ≤ 4 := by
    simp only [List.mem_cons, List.not_mem_nil, or_false] at hr
    omega
  refine ⟨hs.symm ▸ hlength, ?_, ?_, ?_⟩
  · rw [hb]
    rfl
  · rw [hs, hb]
    exact column_le_matrixStride value.kind (Nat.le_refl rows) h4
  · have hcount : (columns * rows + rows - 1) / rows = columns := by
      have : columns * rows + rows - 1 = rows - 1 + rows * columns := by
        rw [Nat.mul_comm rows]
        omega
      rw [this, Nat.add_mul_div_left _ _ hne, Nat.div_eq_of_lt (by omega), Nat.zero_add]
    unfold columnsOf at he
    rw [← hlength, List.take_length, hlength, hcount, List.map_map] at he
    rw [he]
    unfold column
    rw [hs]
    rfl

/-- Every well-formed value consists of columns. A matrix has two to four rows. -/
theorem exists_inColumns (hw : value.isWellFormed)
    (hr : ∀ kind columns rows, value.baseType = .matrix kind columns rows → rows ∈ [2, 3, 4]) :
    ∃ columns, value.InColumns columns := by
  obtain ⟨kind, shape, components⟩ := value
  cases shape with
  | scalar => exact ⟨1, inColumns_one hw rfl (Nat.one_mul _).symm rfl rfl⟩
  | vector lanes => exact ⟨1, inColumns_one hw rfl rfl rfl rfl⟩
  | square side =>
    exact ⟨side, inColumns_matrix hw rfl rfl rfl (hr _ _ _ rfl) rfl⟩
  | matrix columns rows =>
    have hrows := hr kind columns rows rfl
    have hne : rows ≠ 0 := by
      rintro rfl
      exact absurd hrows (by decide)
    refine ⟨columns, inColumns_matrix hw rfl rfl rfl hrows ?_⟩
    unfold encoding?
    dsimp only
    rw [if_neg hne]

namespace InColumns

variable {columns : Nat}

theorem length_column (h : value.InColumns columns) {index : Nat} (hi : index < columns) :
    (value.column index).length = value.shape.rows := by
  have hle := Nat.mul_le_mul_right value.shape.rows (Nat.succ_le_of_lt hi)
  rw [Nat.succ_mul] at hle
  unfold column
  rw [List.length_take, List.length_drop, h.length]
  omega

/-- The bytes of a column. -/
def piece (value : UniformValue) (start index : Nat) : Stretch :=
  .ofBytes (start + index * value.baseType.columnStride) (bytesOf value.kind (value.column index))

theorem size_piece (h : value.InColumns columns) (start : Nat) {index : Nat} (hi : index < columns) :
    (piece value start index).size = value.shape.rows * value.kind.size := by
  show (bytesOf value.kind (value.column index)).length = _
  rw [length_bytesOf, h.length_column hi]

theorem cut (h : value.InColumns columns) : Cut value ((List.range columns).map fun index =>
    (index * value.baseType.columnStride, bytesOf value.kind (value.column index))) where
  encoding := h.encoding
  start index piece hp := by rw [eq_of_getElem?_map_range hp]
  fit piece hm := by
    obtain ⟨index, hi, rfl⟩ := List.mem_map.1 hm
    exact Nat.le_trans (Nat.le_of_eq (h.size_piece 0 (List.mem_range.1 hi))) h.fit
  room := Nat.le_of_eq (by rw [List.length_map, List.length_range, h.size])

/-- The columns are written one after the other. -/
theorem writes (h : value.InColumns columns) {start : Nat} {image : Image}
    (hreach : start + value.baseType.size ≤ image.size) :
    ∃ after, value.writeTo? start image = some after ∧
      Writes ((List.range columns).map (piece value start)) start (start + value.baseType.size)
        image after := by
  obtain ⟨after, hafter, hwrites⟩ := h.cut.writes hreach
  rw [List.map_map] at hwrites
  exact ⟨after, hafter, hwrites⟩

/-- A byte among the components of its column. -/
theorem std140Byte_of_lt (h : value.InColumns columns) {start i : Nat}
    (hc : i / value.baseType.columnStride < columns)
    (hi : i % value.baseType.columnStride < value.shape.rows * value.kind.size) :
    value.std140Byte i = (piece value start (i / value.baseType.columnStride)).byte
      (i % value.baseType.columnStride) := by
  have hrow : i % value.baseType.columnStride / value.kind.size < value.shape.rows := by
    rwa [Nat.div_lt_iff_lt_mul value.kind.size_pos]
  show _ = (bytesOf value.kind (value.column _)).getD _ 0
  rw [getD_bytesOf value.kind (by rwa [h.length_column hc])]
  unfold std140Byte column
  dsimp only
  rw [if_pos hrow, List.getD_eq_getElem?_getD, List.getD_eq_getElem?_getD, List.getElem?_take,
    if_pos hrow, List.getElem?_drop]

/-- A byte behind the components of its column. -/
theorem std140Byte_of_le {i : Nat}
    (hi : value.shape.rows * value.kind.size ≤ i % value.baseType.columnStride) :
    value.std140Byte i = 0 := by
  unfold std140Byte
  dsimp only
  refine if_neg fun hrow => ?_
  rw [Nat.div_lt_iff_lt_mul value.kind.size_pos] at hrow
  omega

/-- A byte behind the components of its column belongs to no column. -/
theorem outside_pieces (h : value.InColumns columns) (start : Nat) {i : Nat}
    (hpos : 0 < value.baseType.columnStride)
    (hi : value.shape.rows * value.kind.size ≤ i % value.baseType.columnStride) :
    ∀ stretch ∈ (List.range columns).map (piece value start),
      start + i < stretch.start ∨ stretch.finish ≤ start + i := by
  intro stretch hm
  obtain ⟨index, hidx, rfl⟩ := List.mem_map.1 hm
  have hsplit := Nat.div_add_mod i value.baseType.columnStride
  have hmod := Nat.mod_lt i hpos
  rw [Nat.mul_comm] at hsplit
  unfold Stretch.finish
  rw [h.size_piece start (List.mem_range.1 hidx)]
  show start + i < start + index * value.baseType.columnStride ∨
    start + index * value.baseType.columnStride + value.shape.rows * value.kind.size ≤ start + i
  rcases Nat.lt_trichotomy index (i / value.baseType.columnStride) with hlt | rfl | hgt
  · have := Nat.mul_le_mul_right value.baseType.columnStride (Nat.succ_le_of_lt hlt)
    rw [Nat.succ_mul] at this
    have := h.fit
    omega
  · omega
  · have := Nat.mul_le_mul_right value.baseType.columnStride (Nat.succ_le_of_lt hgt)
    rw [Nat.succ_mul] at this
    omega

/-- Byte `b` of component `k` stands in the row and the column of the component. -/
theorem std140Byte_component (h : value.InColumns columns) {k b : Nat}
    (hk : k < value.components.length) (hb : b < value.kind.size) :
    value.componentStart k + b < value.baseType.size ∧
      value.std140Byte (value.componentStart k + b) =
        byteAt (value.components.getD k 0).toNat b := by
  rw [h.length] at hk
  have hpos : 0 < value.shape.rows := by
    rcases Nat.eq_zero_or_pos value.shape.rows with h0 | hpos
    · rw [h0] at hk
      exact absurd hk (Nat.not_lt_zero _)
    · exact hpos
  have hrow := Nat.mod_lt k hpos
  have hcolumn : k / value.shape.rows < columns := by
    rwa [Nat.div_lt_iff_lt_mul hpos]
  have hplace : k % value.shape.rows * value.kind.size + b < value.baseType.columnStride := by
    have := Nat.mul_le_mul_right value.kind.size (Nat.succ_le_of_lt hrow)
    rw [Nat.succ_mul] at this
    have := h.fit
    omega
  have hindex : k / value.shape.rows * value.shape.rows + k % value.shape.rows = k := by
    rw [Nat.mul_comm]
    exact Nat.div_add_mod k value.shape.rows
  unfold componentStart
  rw [Nat.add_assoc]
  refine ⟨?_, ?_⟩
  · have := Nat.mul_le_mul_right value.baseType.columnStride (Nat.succ_le_of_lt hcolumn)
    rw [Nat.succ_mul, ← h.size] at this
    omega
  · unfold std140Byte
    dsimp only
    rw [Nat.mul_add_mod_self_right, Nat.mod_eq_of_lt hplace, Nat.mul_comm (k / _),
      Nat.mul_add_div (Nat.zero_lt_of_lt hplace), Nat.div_eq_of_lt hplace, Nat.add_zero,
      Nat.mul_add_mod_self_right, Nat.mod_eq_of_lt hb, Nat.mul_comm (k % _),
      Nat.mul_add_div value.kind.size_pos, Nat.div_eq_of_lt hb, Nat.add_zero, if_pos hrow, hindex]

end InColumns

/-! ## Writing a value -/

/-- **Encoding.** A well-formed value is written to a place that is zero as its encoding. -/
theorem writeTo?_writes (hw : value.isWellFormed)
    (hr : ∀ kind columns rows, value.baseType = .matrix kind columns rows → rows ∈ [2, 3, 4])
    {start : Nat} {image : Image}
    (hz : image.ZeroBetween start (start + value.baseType.size)) :
    ∃ after, value.writeTo? start image = some after ∧
      Writes [value.stretch start] start (start + value.baseType.size) image after := by
  obtain ⟨columns, h⟩ := exists_inColumns hw hr
  obtain ⟨after, hafter, hwrites⟩ := h.writes hz.reaches
  have hsize := h.size
  refine ⟨after, hafter, hwrites.size, ?_, ?_, ?_⟩
  · intro stretch hm
    obtain rfl := List.mem_singleton.1 hm
    exact ⟨Nat.le_refl _, Nat.le_refl _⟩
  · intro stretch hm i hi
    obtain rfl := List.mem_singleton.1 hm
    change i < value.baseType.size at hi
    change after[start + i]? = some (value.std140Byte i)
    have hpos : 0 < value.baseType.columnStride := by
      rcases Nat.eq_zero_or_pos value.baseType.columnStride with h0 | hpos
      · rw [hsize, h0] at hi
        exact absurd hi (Nat.not_lt_zero _)
      · exact hpos
    have hc : i / value.baseType.columnStride < columns := by
      rw [Nat.div_lt_iff_lt_mul hpos, ← hsize]
      exact hi
    have hsplit := Nat.div_add_mod i value.baseType.columnStride
    rw [Nat.mul_comm] at hsplit
    rcases Nat.lt_or_ge (i % value.baseType.columnStride) (value.shape.rows * value.kind.size) with
      hlt | hge
    · have hmem := List.mem_map_of_mem (f := InColumns.piece value start) (List.mem_range.2 hc)
      have hstored := hwrites.inside _ hmem _ (Nat.lt_of_lt_of_eq hlt (h.size_piece start hc).symm)
      change after[start + i / _ * _ + i % _]? = _ at hstored
      rw [Nat.add_assoc, hsplit] at hstored
      rw [hstored, h.std140Byte_of_lt hc hlt]
    · rw [InColumns.std140Byte_of_le hge, hwrites.outside (start + i) (h.outside_pieces start hpos hge),
        hz.zero (start + i) (by omega) (by omega)]
  · intro i hi
    apply hwrites.beyond
    have := hi _ (List.mem_singleton_self _)
    unfold Stretch.finish stretch at this
    dsimp only at this
    omega

/-! ## Reading the components off -/

/-- Two values are of one type and agree in every bit of every component. -/
structure SameBits (value other : UniformValue) : Prop where
  baseType : other.baseType = value.baseType
  length : other.components.length = value.components.length
  bits : ∀ k < value.components.length, ∀ bit < 8 * value.kind.size,
    (other.components.getD k 0).toNat.testBit bit = (value.components.getD k 0).toNat.testBit bit

/-- The type gives the kind and the number of components. -/
theorem shape_of_baseType {value other : UniformValue} (h : other.baseType = value.baseType) :
    other.kind = value.kind ∧ other.shape.rows = value.shape.rows ∧
      other.shape.count = value.shape.count := by
  obtain ⟨kind, shape, components⟩ := value
  obtain ⟨kind', shape', components'⟩ := other
  cases shape <;> cases shape' <;> cases h <;> exact ⟨rfl, rfl, rfl⟩

/-- Values of one type with the same encoding agree bit for bit. -/
theorem sameBits_of_std140Byte_eq {value other : UniformValue} (hw : value.isWellFormed)
    (hw' : other.isWellFormed) (hb : other.baseType = value.baseType)
    (hr : ∀ kind columns rows, value.baseType = .matrix kind columns rows → rows ∈ [2, 3, 4])
    (h : ∀ i < value.baseType.size, other.std140Byte i = value.std140Byte i) :
    value.SameBits other := by
  obtain ⟨hkind, hrows, hcount⟩ := shape_of_baseType hb
  have hlength : other.components.length = value.components.length := by
    rw [length_of_wellFormed hw, length_of_wellFormed hw', hcount]
  refine ⟨hb, hlength, fun k hk bit hbit => ?_⟩
  obtain ⟨columns, hc⟩ := exists_inColumns hw hr
  obtain ⟨columns', hc'⟩ := exists_inColumns hw' (hb ▸ hr)
  refine testBit_eq_of_byteAt_eq (fun b hbyte => ?_) hbit
  obtain ⟨hlt, hvalue⟩ := hc.std140Byte_component hk hbyte
  obtain ⟨-, hother⟩ := hc'.std140Byte_component (hlength.symm ▸ hk) (hkind.symm ▸ hbyte)
  have hstart : other.componentStart k = value.componentStart k := by
    unfold componentStart
    rw [hb, hkind, hrows]
  rw [← hvalue, ← hother, hstart, h _ hlt]

end UniformValue

end UniformLayout
