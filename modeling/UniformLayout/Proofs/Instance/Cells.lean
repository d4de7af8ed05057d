import UniformLayout.Instance.DirtySet
import UniformLayout.Proofs.Instance.Image

/-!
# The cells of an instance

A cell is a leaf of an instance together with its dirty flag and its location. The cells stand in the
order of the leaves, and everything that an upload needs can be read off them: which bytes changed,
and what they are now.

* `StructInstance.map_leaf_cells`, `StructInstance.place_dirtyFrom`, `StructInstance.isDirty_eq`: the
  leaves and the changes.
* `StructInstance.cells_setClean`, `StructInstance.cells_attach`: what happens to the cells of a whole
  instance.
-/

namespace UniformLayout

/-- An element that is no instance, in its absolute place. -/
structure Cell where
  start : Nat
  content : LeafContent
  dirty : Bool
  location : Option Nat

namespace Cell

def leaf (cell : Cell) : InstanceLeaf := ⟨cell.start, cell.content⟩

/-- The bytes of the element. -/
def range (cell : Cell) : ByteRange := ⟨cell.start, cell.start + cell.content.size⟩

def clean (cell : Cell) : Cell := { cell with dirty := false }

end Cell

/-- The cells of elements that start at `base` and lie `stride` bytes apart. -/
def cellsFrom (stride : Nat) :
    (base : Nat) → Option Nat → List LeafContent → List Bool → List Cell
  | base, location, content :: contents, flag :: flags =>
    ⟨base, content, flag, location⟩ ::
      cellsFrom stride (base + stride) (location.map (· + 1)) contents flags
  | _, _, _, _ => []

mutual

/-- The cells of an instance that starts at `base`. -/
def StructInstance.cells (base : Nat) : StructInstance → List Cell
  | ⟨schema, fields, _⟩ => cellsOfStates base schema.fields fields

def cellsOfStates (base : Nat) : List FieldSchema → List FieldState → List Cell
  | schema :: schemas, state :: states =>
    state.cells (base + schema.offset) schema.stride ++ cellsOfStates base schemas states
  | _, _ => []

/-- The cells of a field that starts at `base`. -/
def FieldState.cells (base stride : Nat) : FieldState → List Cell
  | ⟨.values list, dirty, location, _⟩ => cellsFrom stride base location (list.map .value) dirty
  | ⟨.handles list, dirty, location, unit⟩ =>
    cellsFrom stride base location ((unitsFrom unit list.length).map .handle) dirty
  | ⟨.children list, _, _, _⟩ => cellsOfChildren base stride list

def cellsOfChildren (base stride : Nat) : List StructInstance → List Cell
  | [] => []
  | child :: rest => child.cells base ++ cellsOfChildren (base + stride) stride rest

end

mutual

/-- Every element has a dirty flag. -/
def StructInstance.Flagged : StructInstance → Prop
  | ⟨_, fields, _⟩ => StatesFlagged fields

def StatesFlagged : List FieldState → Prop
  | [] => True
  | state :: rest => state.Flagged ∧ StatesFlagged rest

def FieldState.Flagged : FieldState → Prop
  | ⟨.values list, dirty, _, _⟩ => dirty.length = list.length
  | ⟨.handles list, dirty, _, _⟩ => dirty.length = list.length
  | ⟨.children list, _, _, _⟩ => ChildrenFlagged list

def ChildrenFlagged : List StructInstance → Prop
  | [] => True
  | child :: rest => child.Flagged ∧ ChildrenFlagged rest

end

theorem StructInstance.cells_eq (inst : StructInstance) (base : Nat) :
    inst.cells base = cellsOfStates base inst.schema.fields inst.fields := by
  cases inst
  rw [StructInstance.cells]

theorem StructInstance.flagged_iff {inst : StructInstance} :
    inst.Flagged ↔ StatesFlagged inst.fields := by
  cases inst
  rw [StructInstance.Flagged]

@[simp] theorem length_unitsFrom (unit : Option Nat) (count : Nat) :
    (unitsFrom unit count).length = count := by
  rw [unitsFrom, List.length_map, List.length_range]

/-! ## Elements one behind the other -/

section Elements

variable {stride base : Nat} {location : Option Nat} {contents : List LeafContent}
  {flags : List Bool}

theorem map_leaf_cellsFrom (h : flags.length = contents.length) :
    (cellsFrom stride base location contents flags).map Cell.leaf =
      eachAt (fun start content => [⟨start, content⟩]) stride base contents := by
  induction contents generalizing base location flags with
  | nil =>
    rw [eachAt, cellsFrom]
    · rfl
    · simp
  | cons content rest ih =>
    cases flags with
    | nil => cases h
    | cons flag flags =>
      rw [cellsFrom, eachAt, List.map_cons, ih (Nat.succ.inj h)]
      rfl

theorem cellsFrom_clean :
    cellsFrom stride base location contents (flags.map fun _ => false) =
      (cellsFrom stride base location contents flags).map Cell.clean := by
  induction contents generalizing base location flags with
  | nil => simp [cellsFrom]
  | cons content rest ih =>
    cases flags with
    | nil => simp [cellsFrom]
    | cons flag flags =>
      rw [List.map_cons, cellsFrom, cellsFrom, List.map_cons, ih]
      rfl

theorem any_dirty_cellsFrom (h : flags.length = contents.length) :
    (cellsFrom stride base location contents flags).any Cell.dirty = flags.any id := by
  induction contents generalizing base location flags with
  | nil =>
    obtain rfl := List.length_eq_zero_iff.1 h
    simp [cellsFrom]
  | cons content rest ih =>
    cases flags with
    | nil => cases h
    | cons flag flags =>
      rw [cellsFrom, List.any_cons, List.any_cons, ih (Nat.succ.inj h)]
      rfl

end Elements

theorem eachAt_map {α β γ : Type} (place : Nat → β → List γ) (f : α → β) (stride base : Nat)
    (list : List α) :
    eachAt place stride base (list.map f) =
      eachAt (fun start a => place start (f a)) stride base list := by
  induction list generalizing base with
  | nil => rfl
  | cons a rest ih => rw [List.map_cons, eachAt, eachAt, ih]

/-! ## Leaves -/

mutual

/-- The cells stand where the leaves do, and hold the same. -/
theorem StructInstance.map_leaf_cells (base : Nat) : ∀ inst : StructInstance, inst.Flagged →
    (inst.cells base).map Cell.leaf = inst.leaves base
  | ⟨schema, fields, attached⟩, h => by
    rw [StructInstance.Flagged] at h
    rw [StructInstance.cells, StructInstance.leaves, map_leaf_cellsOfStates base schema.fields fields h]

theorem map_leaf_cellsOfStates (base : Nat) : ∀ (schemas : List FieldSchema)
    (states : List FieldState), StatesFlagged states →
    (cellsOfStates base schemas states).map Cell.leaf = leavesOfStates base schemas states
  | schema :: schemas, state :: states, h => by
    rw [StatesFlagged] at h
    rw [cellsOfStates, leavesOfStates, List.map_append,
      state.map_leaf_cells (base + schema.offset) schema.stride h.1,
      map_leaf_cellsOfStates base schemas states h.2]
  | [], _, _ => by simp [cellsOfStates, leavesOfStates]
  | _ :: _, [], _ => by simp [cellsOfStates, leavesOfStates]

theorem FieldState.map_leaf_cells (base stride : Nat) : ∀ state : FieldState, state.Flagged →
    (state.cells base stride).map Cell.leaf = state.leaves base stride
  | ⟨.values list, dirty, location, unit⟩, h => by
    rw [FieldState.Flagged] at h
    rw [FieldState.cells, FieldState.leaves, map_leaf_cellsFrom (by rw [h, List.length_map]),
      eachAt_map]
  | ⟨.handles list, dirty, location, unit⟩, h => by
    rw [FieldState.Flagged] at h
    rw [FieldState.cells, FieldState.leaves,
      map_leaf_cellsFrom (by rw [h, List.length_map, length_unitsFrom]), eachAt_map]
  | ⟨.children list, dirty, location, unit⟩, h => by
    rw [FieldState.Flagged] at h
    rw [FieldState.cells, FieldState.leaves, map_leaf_cellsOfChildren base stride list h]

theorem map_leaf_cellsOfChildren (base stride : Nat) : ∀ list : List StructInstance,
    ChildrenFlagged list →
    (cellsOfChildren base stride list).map Cell.leaf = leavesOfChildren base stride list
  | [], _ => by rw [cellsOfChildren, leavesOfChildren, List.map_nil]
  | child :: rest, h => by
    rw [ChildrenFlagged] at h
    rw [cellsOfChildren, leavesOfChildren, List.map_append, child.map_leaf_cells base h.1,
      map_leaf_cellsOfChildren (base + stride) stride rest h.2]

end

/-- The bytes of a cell, where an image has them. -/
theorem StructInstance.Shows.getElem?_of_cell {inst : StructInstance} {image : Image}
    (h : inst.Shows image) (hf : inst.Flagged) {cell : Cell} (hm : cell ∈ inst.cells 0) {i : Nat}
    (hi : i < cell.content.size) : image[cell.start + i]? = some (cell.content.byte i) := by
  have hleaf : cell.leaf ∈ inst.leaves 0 := by
    rw [← map_leaf_cells 0 inst hf]
    exact List.mem_map_of_mem hm
  exact h.inside hleaf hi

/-! ## Changes -/

mutual

/-- An instance has changed when one of its cells has. -/
theorem StructInstance.isDirty_eq (base : Nat) : ∀ inst : StructInstance, inst.Flagged → inst.Typed →
    inst.isDirty = (inst.cells base).any Cell.dirty
  | ⟨schema, fields, attached⟩, h, ht => by
    rw [StructInstance.Flagged] at h
    rw [StructInstance.Typed] at ht
    rw [StructInstance.isDirty, StructInstance.cells, anyFieldDirty_eq base schema.fields fields h ht]

theorem anyFieldDirty_eq (base : Nat) : ∀ (schemas : List FieldSchema) (states : List FieldState),
    StatesFlagged states → StatesTyped schemas states →
    anyFieldDirty states = (cellsOfStates base schemas states).any Cell.dirty
  | schema :: schemas, state :: states, h, ht => by
    rw [StatesFlagged] at h
    rw [StatesTyped] at ht
    rw [anyFieldDirty, cellsOfStates, List.any_append,
      state.isDirty_eq (base + schema.offset) schema.stride h.1 ht.1,
      anyFieldDirty_eq base schemas states h.2 ht.2]
  | [], [], _, _ => by simp [cellsOfStates, anyFieldDirty]
  | [], _ :: _, _, ht => by simp [StatesTyped] at ht
  | _ :: _, [], _, ht => by simp [StatesTyped] at ht

theorem FieldState.isDirty_eq (base stride : Nat) {schema : FieldSchema} :
    ∀ state : FieldState, state.Flagged → state.Typed schema →
    state.isDirty = (state.cells base stride).any Cell.dirty
  | ⟨.values list, dirty, location, unit⟩, h, _ => by
    rw [FieldState.Flagged] at h
    rw [FieldState.isDirty, FieldState.cells, any_dirty_cellsFrom (by rw [h, List.length_map])]
  | ⟨.handles list, dirty, location, unit⟩, h, _ => by
    rw [FieldState.Flagged] at h
    rw [FieldState.isDirty, FieldState.cells,
      any_dirty_cellsFrom (by rw [h, List.length_map, length_unitsFrom])]
  | ⟨.children list, dirty, location, unit⟩, h, ht => by
    rw [FieldState.Flagged] at h
    rw [FieldState.Typed] at ht
    obtain ⟨-, inner, -, hchildren⟩ := ht
    rw [FieldState.isDirty, FieldState.cells, anyChildDirty_eq base stride list h hchildren]

theorem anyChildDirty_eq (base stride : Nat) {schema : TypeSchema} : ∀ list : List StructInstance,
    ChildrenFlagged list → ChildrenTyped schema list →
    anyChildDirty list = (cellsOfChildren base stride list).any Cell.dirty
  | [], _, _ => by simp [anyChildDirty, cellsOfChildren]
  | child :: rest, h, ht => by
    rw [ChildrenFlagged] at h
    rw [ChildrenTyped] at ht
    rw [anyChildDirty, cellsOfChildren, List.any_append, child.isDirty_eq base h.1 ht.2.1,
      anyChildDirty_eq (base + stride) stride rest h.2 ht.2.2]

end

/-- Where a change is, and under which location it is reported. -/
def DirtyField.place (change : DirtyField) : ByteRange × Option Nat :=
  (change.range, change.location)

def Cell.place (cell : Cell) : ByteRange × Option Nat := (cell.range, cell.location)

theorem place_dirtyElements {above : String} {base : Nat} {field : FieldSchema}
    {location : Option Nat} {element : Nat} {contents : List LeafContent} {flags : List Bool}
    (h : flags.length = contents.length) (hs : ∀ content ∈ contents, content.size = field.elementSize) :
    (dirtyElements above base field location element flags).map DirtyField.place =
      ((cellsFrom field.stride (base + field.elementOffset element) (location.map (· + element))
        contents flags).filter Cell.dirty).map Cell.place := by
  induction flags generalizing element contents with
  | nil =>
    rw [dirtyElements, cellsFrom]
    · rfl
    · simp
  | cons flag flags ih =>
    cases contents with
    | nil => cases h
    | cons content rest =>
      obtain ⟨hfirst, hrest⟩ := List.forall_mem_cons.1 hs
      have hnext := @ih (element + 1) rest (Nat.succ.inj h) hrest
      have hoffset : base + field.elementOffset (element + 1) =
          base + field.elementOffset element + field.stride := by
        unfold FieldSchema.elementOffset
        rw [Nat.succ_mul]
        omega
      have hlocation : location.map (· + (element + 1)) =
          (location.map (· + element)).map (· + 1) := by
        rw [Option.map_map]
        rfl
      rw [hoffset, hlocation] at hnext
      rw [dirtyElements, cellsFrom]
      cases flag with
      | false =>
        rw [List.filter_cons_of_neg (by simp)]
        exact hnext
      | true =>
        rw [List.filter_cons_of_pos rfl, List.map_cons, ← hnext]
        simp [DirtyField.place, Cell.place, DirtyField.range, Cell.range, hfirst]

mutual

/-- The changes of an instance are its dirty cells, in order. -/
theorem StructInstance.place_dirtyFrom (above : String) (base : Nat) : ∀ inst : StructInstance,
    inst.Flagged → inst.Typed →
    (inst.dirtyFrom above base).map DirtyField.place =
      ((inst.cells base).filter Cell.dirty).map Cell.place
  | ⟨schema, fields, attached⟩, h, ht => by
    rw [StructInstance.Flagged] at h
    rw [StructInstance.Typed] at ht
    rw [StructInstance.dirtyFrom, StructInstance.cells]
    exact place_dirtyFieldsFrom above base schema.fields fields h ht

theorem place_dirtyFieldsFrom (above : String) (base : Nat) : ∀ (schemas : List FieldSchema)
    (states : List FieldState), StatesFlagged states → StatesTyped schemas states →
    (dirtyFieldsFrom above base schemas states).map DirtyField.place =
      ((cellsOfStates base schemas states).filter Cell.dirty).map Cell.place
  | schema :: schemas, state :: states, h, ht => by
    rw [StatesFlagged] at h
    rw [StatesTyped] at ht
    rw [dirtyFieldsFrom, cellsOfStates, List.filter_append, List.map_append, List.map_append,
      state.place_dirtyFrom above base schema h.1 ht.1,
      place_dirtyFieldsFrom above base schemas states h.2 ht.2]
  | [], _, _, _ => by simp [cellsOfStates, dirtyFieldsFrom]
  | _ :: _, [], _, _ => by simp [cellsOfStates, dirtyFieldsFrom]

theorem FieldState.place_dirtyFrom (above : String) (base : Nat) (schema : FieldSchema) :
    ∀ state : FieldState, state.Flagged → state.Typed schema →
    (state.dirtyFrom above base schema).map DirtyField.place =
      ((state.cells (base + schema.offset) schema.stride).filter Cell.dirty).map Cell.place
  | ⟨.values list, dirty, location, unit⟩, h, ht => by
    rw [FieldState.Flagged] at h
    rw [FieldState.Typed] at ht
    obtain ⟨-, type, hk, hall⟩ := ht
    rw [FieldState.dirtyFrom, FieldState.cells]
    have hsize : ∀ content ∈ list.map LeafContent.value, content.size = schema.elementSize := by
      intro content hm
      obtain ⟨value, hv, rfl⟩ := List.mem_map.1 hm
      simp only [FieldSchema.elementSize, hk]
      exact congrArg BaseType.size (hall value hv).1
    rw [place_dirtyElements (by rw [h, List.length_map]) hsize]
    simp [FieldSchema.elementOffset]
  | ⟨.handles list, dirty, location, unit⟩, h, ht => by
    rw [FieldState.Flagged] at h
    rw [FieldState.Typed] at ht
    obtain ⟨-, kind, hk⟩ := ht
    rw [FieldState.dirtyFrom, FieldState.cells]
    have hsize : ∀ content ∈ (unitsFrom unit list.length).map LeafContent.handle,
        content.size = schema.elementSize := by
      intro content hm
      obtain ⟨unit, -, rfl⟩ := List.mem_map.1 hm
      simp only [FieldSchema.elementSize, hk]
      rfl
    rw [place_dirtyElements (by rw [h, List.length_map, length_unitsFrom]) hsize]
    simp [FieldSchema.elementOffset]
  | ⟨.children list, dirty, location, unit⟩, h, ht => by
    rw [FieldState.Flagged] at h
    rw [FieldState.Typed] at ht
    obtain ⟨-, inner, -, hchildren⟩ := ht
    rw [FieldState.dirtyFrom, FieldState.cells,
      place_dirtyChildrenFrom above base schema 0 list h hchildren]
    simp [FieldSchema.elementOffset]

theorem place_dirtyChildrenFrom (above : String) (base : Nat) (schema : FieldSchema)
    {inner : TypeSchema} (element : Nat) : ∀ list : List StructInstance, ChildrenFlagged list →
    ChildrenTyped inner list →
    (dirtyChildrenFrom above base schema element list).map DirtyField.place =
      ((cellsOfChildren (base + schema.elementOffset element) schema.stride list).filter
        Cell.dirty).map Cell.place
  | [], _, _ => by simp [dirtyChildrenFrom, cellsOfChildren]
  | child :: rest, h, ht => by
    rw [ChildrenFlagged] at h
    rw [ChildrenTyped] at ht
    have hoffset : base + schema.elementOffset (element + 1) =
        base + schema.elementOffset element + schema.stride := by
      unfold FieldSchema.elementOffset
      rw [Nat.succ_mul]
      omega
    rw [dirtyChildrenFrom, cellsOfChildren, List.filter_append, List.map_append, List.map_append,
      child.place_dirtyFrom _ _ h.1 ht.2.1,
      place_dirtyChildrenFrom above base schema (element + 1) rest h.2 ht.2.2, hoffset]

end

/-- An instance is dirty if and only if it has changes. -/
theorem StructInstance.isDirty_iff {inst : StructInstance} (ht : inst.Typed) (hf : inst.Flagged) :
    inst.isDirty = true ↔ inst.dirtyFields ≠ [] := by
  have hplaces := inst.place_dirtyFrom "" 0 hf ht
  have hnil : inst.dirtyFields = [] ↔ (inst.cells 0).filter Cell.dirty = [] := by
    rw [← List.map_eq_nil_iff (f := DirtyField.place), dirtyFields, hplaces, List.map_eq_nil_iff]
  rw [inst.isDirty_eq 0 hf ht, Ne, hnil, List.filter_eq_nil_iff, List.any_eq_true]
  simp only [not_forall, not_not, exists_prop]

/-! ## Whole instances -/

mutual

/-- Cleaning an instance cleans its cells. -/
theorem StructInstance.cells_setClean (base : Nat) : ∀ inst : StructInstance,
    inst.setClean.cells base = (inst.cells base).map Cell.clean
  | ⟨schema, fields, attached⟩ => by
    rw [StructInstance.setClean, StructInstance.cells, StructInstance.cells,
      cellsOfStates_cleanFields base schema.fields fields]

theorem cellsOfStates_cleanFields (base : Nat) : ∀ (schemas : List FieldSchema)
    (states : List FieldState), cellsOfStates base schemas (cleanFields states) =
      (cellsOfStates base schemas states).map Cell.clean
  | schema :: schemas, state :: states => by
    rw [cleanFields, cellsOfStates, cellsOfStates, List.map_append,
      state.cells_setClean (base + schema.offset) schema.stride,
      cellsOfStates_cleanFields base schemas states]
  | [], _ => by simp [cellsOfStates]
  | _ :: _, [] => by simp [cellsOfStates, cleanFields]

theorem FieldState.cells_setClean (base stride : Nat) : ∀ state : FieldState,
    state.setClean.cells base stride = (state.cells base stride).map Cell.clean
  | ⟨.values list, dirty, location, unit⟩ => by
    rw [FieldState.setClean, FieldState.cells, FieldState.cells, cellsFrom_clean]
  | ⟨.handles list, dirty, location, unit⟩ => by
    rw [FieldState.setClean, FieldState.cells, FieldState.cells, cellsFrom_clean]
  | ⟨.children list, dirty, location, unit⟩ => by
    rw [FieldState.setClean, FieldState.cells, FieldState.cells,
      cellsOfChildren_cleanChildren base stride list]

theorem cellsOfChildren_cleanChildren (base stride : Nat) : ∀ list : List StructInstance,
    cellsOfChildren base stride (cleanChildren list) =
      (cellsOfChildren base stride list).map Cell.clean
  | [] => by rw [cleanChildren, cellsOfChildren, List.map_nil]
  | child :: rest => by
    rw [cleanChildren, cellsOfChildren, cellsOfChildren, List.map_append, child.cells_setClean base,
      cellsOfChildren_cleanChildren (base + stride) stride rest]

end

mutual

/-- Attaching an instance leaves its cells as they are. -/
theorem StructInstance.cells_attach (base : Nat) : ∀ inst : StructInstance,
    inst.attach.cells base = inst.cells base
  | ⟨schema, fields, attached⟩ => by
    rw [StructInstance.attach, StructInstance.cells, StructInstance.cells,
      cellsOfStates_attachFields base schema.fields fields]

theorem cellsOfStates_attachFields (base : Nat) : ∀ (schemas : List FieldSchema)
    (states : List FieldState), cellsOfStates base schemas (attachFields states) =
      cellsOfStates base schemas states
  | schema :: schemas, state :: states => by
    rw [attachFields, cellsOfStates, cellsOfStates, state.cells_attach,
      cellsOfStates_attachFields base schemas states]
  | [], _ => by simp [cellsOfStates]
  | _ :: _, [] => by simp [attachFields]

theorem FieldState.cells_attach (base stride : Nat) : ∀ state : FieldState,
    state.attach.cells base stride = state.cells base stride
  | ⟨.values list, dirty, location, unit⟩ => by rw [FieldState.attach]
  | ⟨.handles list, dirty, location, unit⟩ => by rw [FieldState.attach]
  | ⟨.children list, dirty, location, unit⟩ => by
    rw [FieldState.attach, FieldState.cells, FieldState.cells,
      cellsOfChildren_attachChildren base stride list]

theorem cellsOfChildren_attachChildren (base stride : Nat) : ∀ list : List StructInstance,
    cellsOfChildren base stride (attachChildren list) = cellsOfChildren base stride list
  | [] => by rw [attachChildren]
  | child :: rest => by
    rw [attachChildren, cellsOfChildren, cellsOfChildren, child.cells_attach,
      cellsOfChildren_attachChildren (base + stride) stride rest]

end

end UniformLayout
