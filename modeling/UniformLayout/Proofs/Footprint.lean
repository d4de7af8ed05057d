import UniformLayout.Proofs.Image
import UniformLayout.Value

/-!
# The footprint of a value

A value is encoded in pieces, one for each column, and a value that keeps to its footprint changes
nothing outside the bytes of its type. The type alone does not see to it: the general form of a matrix
has any number of rows, and no column vector has more than four components.

* `Cut`: each piece has a column of its own.
* `Cut.writes`: what is written then.

Main statement: `stays_in_footprint_iff`.
-/

namespace UniformLayout

open Image

theorem ScalarKind.size_pos (kind : ScalarKind) : 0 < kind.size := by
  cases kind <;> decide

/-- Columns of two components may be nearer to each other than all others. -/
theorem matrixStride_of_ne_two (kind : ScalarKind) {rows : Nat} (h : rows ≠ 2) :
    BaseType.matrixStride kind rows = 4 * kind.size := by
  unfold BaseType.matrixStride BaseType.vectorAlignment
  rw [if_neg h]
  cases kind <;> decide

/-- A column of at most four components is not longer than the column stride. -/
theorem column_le_matrixStride (kind : ScalarKind) {rows count : Nat} (hr : count ≤ rows)
    (h4 : count ≤ 4) : count * kind.size ≤ BaseType.matrixStride kind rows := by
  by_cases h2 : rows = 2
  · subst h2
    have htwo : 2 * kind.size ≤ BaseType.matrixStride kind 2 := by
      cases kind <;> decide
    exact Nat.le_trans (Nat.mul_le_mul_right kind.size hr) htwo
  · rw [matrixStride_of_ne_two kind h2]
    exact Nat.mul_le_mul_right kind.size h4

namespace UniformValue

theorem length_bytesOf (kind : ScalarKind) (components : List UInt64) :
    (bytesOf kind components).length = components.length * kind.size := by
  unfold bytesOf
  induction components with
  | nil => simp
  | cons component rest ih =>
    rw [List.flatMap_cons, List.length_append, ih, length_littleEndian, List.length_cons,
      Nat.add_mul, Nat.one_mul, Nat.add_comm]

variable {value : UniformValue} {pieces : List (Nat × List UInt8)}

/-! ## Pieces -/

/-- The pieces of the encoding stand where the columns stand, and each ends in front of the next
column. -/
structure Cut (value : UniformValue) (pieces : List (Nat × List UInt8)) : Prop where
  encoding : value.encoding? = some pieces
  start : ∀ index piece, pieces[index]? = some piece → piece.1 = index * value.baseType.columnStride
  fit : ∀ piece ∈ pieces, piece.2.length ≤ value.baseType.columnStride
  room : pieces.length * value.baseType.columnStride ≤ value.baseType.size

namespace Cut

theorem inside (h : Cut value pieces) (start : Nat) : ∀ piece ∈ pieces,
    start ≤ start + piece.1 ∧ start + piece.1 + piece.2.length ≤ start + value.baseType.size := by
  intro piece hm
  obtain ⟨index, hi, hp⟩ := List.getElem_of_mem hm
  have hstart := h.start index piece (List.getElem?_eq_some_iff.2 ⟨hi, hp⟩)
  have hfit := h.fit piece hm
  have hroom := h.room
  have hend := Nat.mul_le_mul_right value.baseType.columnStride (Nat.succ_le_of_lt hi)
  rw [Nat.succ_mul] at hend
  omega

theorem in_order (h : Cut value pieces) :
    pieces.Pairwise fun piece next => piece.1 + piece.2.length ≤ next.1 := by
  refine List.pairwise_iff_getElem.2 fun i j hi hj hlt => ?_
  have hstart := h.start i _ (List.getElem?_eq_getElem hi)
  have hnext := h.start j _ (List.getElem?_eq_getElem hj)
  have hfit := h.fit _ (List.getElem_mem hi)
  have hmul := Nat.mul_le_mul_right value.baseType.columnStride (Nat.succ_le_of_lt hlt)
  rw [Nat.succ_mul] at hmul
  omega

/-- The pieces are written one after the other. -/
theorem writes (h : Cut value pieces) {start : Nat} {image : Image}
    (hreach : start + value.baseType.size ≤ image.size) :
    ∃ after, value.writeTo? start image = some after ∧
      Writes (pieces.map fun piece => Stretch.ofBytes (start + piece.1) piece.2) start
        (start + value.baseType.size) image after := by
  obtain ⟨after, hafter, hwrites⟩ := foldlM_store?_writes hreach (h.inside start) h.in_order
  refine ⟨after, ?_, hwrites⟩
  have hguard : ¬ start > image.size := by omega
  unfold writeTo?
  rw [if_neg hguard, h.encoding]
  exact hafter

end Cut

theorem eq_of_getElem?_map_range {α : Type} {f : Nat → α} {count index : Nat} {a : α}
    (h : ((List.range count).map f)[index]? = some a) : a = f index := by
  rw [List.getElem?_map] at h
  obtain ⟨other, hother, rfl⟩ := Option.map_eq_some_iff.1 h
  obtain ⟨_, hindex⟩ := List.getElem?_eq_some_iff.1 hother
  rw [← hindex, List.getElem_range]

/-- A scalar and a vector are one column. -/
theorem cut_one (he : value.encoding? = some [(0, bytesOf value.kind value.components)])
    (hs : value.baseType.columnStride = value.components.length * value.kind.size)
    (hb : value.baseType.size = value.baseType.columnStride) :
    Cut value [(0, bytesOf value.kind value.components)] where
  encoding := he
  start index piece hp := by
    cases index with
    | zero =>
      obtain rfl := Option.some.inj hp
      exact (Nat.zero_mul _).symm
    | succ index => cases hp
  fit := List.forall_mem_singleton.2 (Nat.le_of_eq ((length_bytesOf _ _).trans hs.symm))
  room := by
    rw [hb]
    exact Nat.le_of_eq (Nat.one_mul _)

/-- A matrix is cut into its columns, and a last one that may be shorter. -/
theorem cut_matrix {columns rows : Nat} (hb : value.baseType = .matrix value.kind columns rows)
    (hr : rows ≠ 0) (hfit : rows ≤ 4 ∨ columns = 0 ∨ value.components.length ≤ 4)
    (he : value.encoding? = some ((columnsOf value.baseType.columnStride rows
      (value.components.take (columns * rows))).map fun column =>
        (column.1, bytesOf value.kind column.2))) : ∃ pieces, Cut value pieces := by
  have hused : (value.components.take (columns * rows)).length ≤ columns * rows :=
    List.length_take_le _ _
  have hfew : rows ≤ 4 ∨ (value.components.take (columns * rows)).length ≤ 4 := by
    rcases hfit with h4 | rfl | h4
    · exact .inl h4
    · exact .inr (by omega)
    · exact .inr (Nat.le_trans (List.length_take_le' _ _) h4)
  refine ⟨_, he, fun index piece hp => ?_, fun piece hm => ?_, ?_⟩
  · unfold columnsOf at hp
    rw [List.map_map] at hp
    rw [eq_of_getElem?_map_range hp]
    rfl
  · unfold columnsOf at hm
    rw [List.map_map] at hm
    obtain ⟨column, -, rfl⟩ := List.mem_map.1 hm
    rw [hb]
    refine Nat.le_trans (Nat.le_of_eq (length_bytesOf _ _)) (column_le_matrixStride value.kind ?_ ?_)
    · exact List.length_take_le _ _
    · rw [List.length_take, List.length_drop]
      omega
  · have hcount : ((value.components.take (columns * rows)).length + rows - 1) / rows < columns + 1 := by
      refine Nat.div_lt_of_lt_mul ?_
      rw [Nat.mul_succ, Nat.mul_comm rows columns]
      omega
    rw [hb, List.length_map, columnsOf, List.length_map, List.length_range]
    exact Nat.mul_le_mul_right _ (Nat.le_of_lt_succ hcount)

/-! ## Values of each form -/

/-- A value that can be given: all forms but the general one of a matrix have as many components as
their type, and a square matrix has two to four columns. -/
def Possible (value : UniformValue) : Prop :=
  match value.shape with
  | .matrix _ _ => True
  | .square side => side ∈ [2, 3, 4] ∧ value.isWellFormed
  | _ => value.isWellFormed

/-- A matrix in its general form has rows, and no more than a column vector has, if there is anything
to write that would fill more. -/
def ColumnsFit (value : UniformValue) : Prop :=
  ∀ columns rows, value.shape = .matrix columns rows →
    rows ≠ 0 ∧ (rows ≤ 4 ∨ columns = 0 ∨ value.components.length ≤ 4)

theorem exists_cut (h : value.Possible) (hf : value.ColumnsFit) : ∃ pieces, Cut value pieces := by
  obtain ⟨kind, shape, components⟩ := value
  cases shape with
  | scalar =>
    have hlength : components.length = 1 := beq_iff_eq.1 h
    exact ⟨_, cut_one rfl (hlength ▸ (Nat.one_mul _).symm) rfl⟩
  | vector lanes =>
    have hlength : components.length = lanes := beq_iff_eq.1 h
    exact ⟨_, cut_one rfl (hlength ▸ rfl) rfl⟩
  | square side =>
    obtain ⟨hside, -⟩ := h
    have h4 : side ≠ 0 ∧ side ≤ 4 := by
      simp only [List.mem_cons, List.not_mem_nil, or_false] at hside
      omega
    exact cut_matrix rfl h4.1 (.inl h4.2) rfl
  | matrix columns rows =>
    obtain ⟨hrows, hfit⟩ := hf columns rows rfl
    refine cut_matrix rfl hrows hfit ?_
    unfold encoding?
    dsimp only
    rw [if_neg hrows]

/-! ## Keeping to the footprint -/

/-- Wherever there is room for the type, the value is written, and the bytes in front of it and behind
it stay as they are. -/
def KeepsToFootprint (value : UniformValue) : Prop :=
  ∀ (start : Nat) (image : Image), start + value.baseType.size ≤ image.size →
    ∃ after, value.writeTo? start image = some after ∧ after.size = image.size ∧
      ∀ i, i < start ∨ start + value.baseType.size ≤ i → after[i]? = image[i]?

/-- The value is encoded, and each piece starts where its column does and ends in front of the
next one. -/
def KeepsToColumns (value : UniformValue) : Prop :=
  ∃ pieces, value.encoding? = some pieces ∧ ∀ index piece, pieces[index]? = some piece →
    piece.1 = index * value.baseType.columnStride ∧ piece.2.length ≤ value.baseType.columnStride

theorem Cut.keepsToFootprint (h : Cut value pieces) : value.KeepsToFootprint := by
  intro start image hreach
  obtain ⟨after, hafter, hwrites⟩ := h.writes hreach
  exact ⟨after, hafter, hwrites.size, fun i hi => hwrites.beyond hi⟩

theorem Cut.keepsToColumns (h : Cut value pieces) : value.KeepsToColumns :=
  ⟨pieces, h.encoding, fun index piece hp =>
    ⟨h.start index piece hp, h.fit piece (List.mem_of_getElem? hp)⟩⟩

theorem columnsOf_first (stride : Nat) {rows : Nat} {components : List UInt64} (hr : rows ≠ 0)
    (hc : 0 < components.length) :
    (columnsOf stride rows components)[0]? = some (0, components.take rows) := by
  have hcount : 0 < (components.length + rows - 1) / rows :=
    Nat.div_pos (by omega) (Nat.pos_of_ne_zero hr)
  unfold columnsOf
  rw [List.getElem?_map, List.getElem?_range hcount, Option.map_some, Nat.zero_mul, Nat.zero_mul,
    List.drop_zero]

/-- The first column of a matrix shows whether the columns fit. -/
theorem columnsFit_of_keepsToColumns (h : value.KeepsToColumns) : value.ColumnsFit := by
  intro columns rows hshape
  obtain ⟨kind, shape, components⟩ := value
  obtain rfl : shape = .matrix columns rows := hshape
  obtain ⟨pieces, he, hpieces⟩ := h
  unfold encoding? at he
  dsimp only at he
  by_cases hrows : rows = 0
  · rw [if_pos hrows] at he
    cases he
  · rw [if_neg hrows] at he
    refine ⟨hrows, ?_⟩
    by_cases h4 : rows ≤ 4
    · exact .inl h4
    by_cases hcolumns : columns = 0
    · exact .inr (.inl hcolumns)
    refine .inr (.inr ?_)
    by_cases hnone : components = []
    · rw [hnone]
      exact Nat.zero_le 4
    have hfive : 5 ≤ columns * rows :=
      Nat.le_trans (by omega) (Nat.le_mul_of_pos_left rows (Nat.pos_of_ne_zero hcolumns))
    have hpos : 0 < components.length := List.length_pos_iff.2 hnone
    have hused : 0 < (components.take (columns * rows)).length := by
      rw [List.length_take]
      omega
    have hfirst := columnsOf_first (BaseType.matrixStride kind rows) hrows hused
    have hpiece : pieces[0]? =
        some (0, bytesOf kind ((components.take (columns * rows)).take rows)) := by
      rw [← Option.some.inj he, List.getElem?_map]
      exact congrArg (Option.map _) hfirst
    have hfit := (hpieces 0 _ hpiece).2
    have hstride : BaseType.matrixStride kind rows = 4 * kind.size :=
      matrixStride_of_ne_two kind (by omega)
    have hle : min rows (min (columns * rows) components.length) ≤ 4 := by
      rw [length_bytesOf, List.length_take, List.length_take] at hfit
      exact Nat.le_of_mul_le_mul_right (Nat.le_trans hfit (Nat.le_of_eq hstride)) kind.size_pos
    show components.length ≤ 4
    omega

/-- **Footprint.** A value keeps to its footprint and to its columns exactly if the columns fit. All
forms but the general one of a matrix do. -/
theorem stays_in_footprint_iff (h : value.Possible) :
    value.KeepsToFootprint ∧ value.KeepsToColumns ↔ value.ColumnsFit := by
  constructor
  · exact fun hk => columnsFit_of_keepsToColumns hk.2
  · intro hf
    obtain ⟨pieces, hcut⟩ := exists_cut h hf
    exact ⟨hcut.keepsToFootprint, hcut.keepsToColumns⟩

/-- A matrix of two columns with ten times as many components as it needs. -/
def crowdedMatrix : UniformValue := ⟨.float, .matrix 2 3, List.replicate 60 0x3f800000⟩

theorem stays_in_footprint_crowded : crowdedMatrix.Possible ∧
    crowdedMatrix.KeepsToFootprint ∧ crowdedMatrix.KeepsToColumns := by
  refine ⟨trivial, (@stays_in_footprint_iff crowdedMatrix trivial).2 ?_⟩
  intro columns rows hshape
  obtain ⟨rfl, rfl⟩ := ValueShape.matrix.inj hshape
  exact ⟨by decide, .inl (by decide)⟩

/-- One column of five components, one more than its stride has room for. -/
def tallMatrix : UniformValue := ⟨.float, .matrix 1 5, [1, 2, 3, 4, 5]⟩

/-- With room for its type only, a tall column is not written, and with more room it is written over
what stands behind. Columns without rows are not written at all. -/
theorem leaves_footprint_tall : tallMatrix.Possible ∧ tallMatrix.baseType.size = 16 ∧
    tallMatrix.writeTo? 0 (filled 16 0xaa) = none ∧
    (tallMatrix.writeTo? 0 (filled 20 0xaa)).map (fun after => after[16]?) = some (some 5) ∧
    (⟨.float, .matrix 1 0, []⟩ : UniformValue).writeTo? 0 (filled 16 0xaa) = none := by
  refine ⟨trivial, rfl, ?_, ?_, rfl⟩
  · decide
  · decide

end UniformValue

end UniformLayout
