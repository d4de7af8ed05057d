import UniformLayout.Proofs.Instance.Cells

/-!
# New and cleaned instances

A new instance has a flag for every element, and its cells are `Fresh`: clean, and zero where they
hold values. Texture units and locations do not matter for that, so what holds of an instance can be
seen from its core (`flagged_core`, `cells_core`).

Main statements: `StructInstance.cells_core` and `TypeSchema.Regular.startsFresh`.
-/

namespace UniformLayout

/-! ## Without units and locations -/

def LeafContent.core : LeafContent → LeafContent
  | .value held => .value held
  | .handle _ => .handle none

/-- The cell without unit and location. -/
def Cell.core (cell : Cell) : Cell where
  start := cell.start
  content := cell.content.core
  dirty := cell.dirty
  location := none

theorem map_core_cellsFrom (stride base : Nat) (location : Option Nat)
    (contents : List LeafContent) (flags : List Bool) :
    (cellsFrom stride base location contents flags).map Cell.core =
      cellsFrom stride base none (contents.map LeafContent.core) flags := by
  induction contents generalizing base location flags with
  | nil => simp [cellsFrom]
  | cons content rest ih =>
    cases flags with
    | nil => simp [cellsFrom]
    | cons flag flags =>
      rw [cellsFrom, List.map_cons, List.map_cons, cellsFrom, ih]
      rfl

theorem map_core_handles (unit : Option Nat) (count : Nat) :
    ((unitsFrom unit count).map LeafContent.handle).map LeafContent.core =
      ((unitsFrom none count).map LeafContent.handle).map LeafContent.core := by
  simp [unitsFrom, LeafContent.core, Function.comp_def]

mutual

/-- Whether every element has a flag can be seen from the core. -/
theorem StructInstance.flagged_core : ∀ inst : StructInstance, inst.core.Flagged ↔ inst.Flagged
  | ⟨schema, fields, attached⟩ => by
    rw [StructInstance.core, StructInstance.Flagged, StructInstance.Flagged,
      statesFlagged_core fields]

theorem statesFlagged_core : ∀ states : List FieldState,
    StatesFlagged (coreAll states) ↔ StatesFlagged states
  | [] => by rw [coreAll]
  | state :: rest => by
    rw [coreAll, StatesFlagged, StatesFlagged, state.flagged_core, statesFlagged_core rest]

theorem FieldState.flagged_core : ∀ state : FieldState, state.core.Flagged ↔ state.Flagged
  | ⟨.values list, dirty, location, unit⟩ => by
    rw [FieldState.core, FieldState.Flagged, FieldState.Flagged]
  | ⟨.handles list, dirty, location, unit⟩ => by
    rw [FieldState.core, FieldState.Flagged, FieldState.Flagged]
  | ⟨.children list, dirty, location, unit⟩ => by
    rw [FieldState.core, FieldState.Flagged, FieldState.Flagged, childrenFlagged_core list]

theorem childrenFlagged_core : ∀ list : List StructInstance,
    ChildrenFlagged (coreChildren list) ↔ ChildrenFlagged list
  | [] => by rw [coreChildren]
  | child :: rest => by
    rw [coreChildren, ChildrenFlagged, ChildrenFlagged, child.flagged_core,
      childrenFlagged_core rest]

end

mutual

/-- The cores of two instances have the same cells when the instances have. -/
theorem StructInstance.cells_core (base : Nat) : ∀ inst : StructInstance,
    (inst.core.cells base).map Cell.core = (inst.cells base).map Cell.core
  | ⟨schema, fields, attached⟩ => by
    rw [StructInstance.core, StructInstance.cells, StructInstance.cells,
      cellsOfStates_core base schema.fields fields]

theorem cellsOfStates_core (base : Nat) : ∀ (schemas : List FieldSchema) (states : List FieldState),
    (cellsOfStates base schemas (coreAll states)).map Cell.core =
      (cellsOfStates base schemas states).map Cell.core
  | schema :: schemas, state :: states => by
    rw [coreAll, cellsOfStates, cellsOfStates, List.map_append, List.map_append,
      state.cells_core (base + schema.offset) schema.stride, cellsOfStates_core base schemas states]
  | [], _ => by simp [cellsOfStates]
  | _ :: _, [] => by simp [coreAll]

theorem FieldState.cells_core (base stride : Nat) : ∀ state : FieldState,
    (state.core.cells base stride).map Cell.core = (state.cells base stride).map Cell.core
  | ⟨.values list, dirty, location, unit⟩ => by
    rw [FieldState.core, FieldState.cells, FieldState.cells, map_core_cellsFrom, map_core_cellsFrom]
  | ⟨.handles list, dirty, location, unit⟩ => by
    rw [FieldState.core, FieldState.cells, FieldState.cells, map_core_cellsFrom, map_core_cellsFrom,
      map_core_handles unit]
  | ⟨.children list, dirty, location, unit⟩ => by
    rw [FieldState.core, FieldState.cells, FieldState.cells, cellsOfChildren_core base stride list]

theorem cellsOfChildren_core (base stride : Nat) : ∀ list : List StructInstance,
    (cellsOfChildren base stride (coreChildren list)).map Cell.core =
      (cellsOfChildren base stride list).map Cell.core
  | [] => by rw [coreChildren]
  | child :: rest => by
    rw [coreChildren, cellsOfChildren, cellsOfChildren, List.map_append, List.map_append,
      child.cells_core base, cellsOfChildren_core (base + stride) stride rest]

end

/-! ## Cleaning -/

mutual

/-- Cleaning an instance changes no contents. -/
theorem StructInstance.typed_setClean : ∀ inst : StructInstance, inst.setClean.Typed ↔ inst.Typed
  | ⟨schema, fields, attached⟩ => by
    rw [StructInstance.setClean, StructInstance.Typed, StructInstance.Typed,
      statesTyped_cleanFields schema.fields fields]

theorem statesTyped_cleanFields : ∀ (schemas : List FieldSchema) (states : List FieldState),
    StatesTyped schemas (cleanFields states) ↔ StatesTyped schemas states
  | [], [] => by rw [cleanFields]
  | schema :: schemas, state :: states => by
    rw [cleanFields, StatesTyped, StatesTyped, state.typed_setClean schema,
      statesTyped_cleanFields schemas states]
  | [], _ :: _ => by simp [cleanFields, StatesTyped]
  | _ :: _, [] => by simp [cleanFields, StatesTyped]

theorem FieldState.typed_setClean (schema : FieldSchema) : ∀ state : FieldState,
    state.setClean.Typed schema ↔ state.Typed schema
  | ⟨.values list, dirty, location, unit⟩ => by
    simp only [FieldState.setClean, FieldState.Typed]
  | ⟨.handles list, dirty, location, unit⟩ => by
    simp only [FieldState.setClean, FieldState.Typed]
  | ⟨.children list, dirty, location, unit⟩ => by
    have hchildren := fun inner => childrenTyped_cleanChildren inner list
    have hlength := length_cleanChildren list
    simp only [FieldState.setClean, FieldState.Typed, hlength, hchildren]

theorem childrenTyped_cleanChildren (schema : TypeSchema) : ∀ list : List StructInstance,
    ChildrenTyped schema (cleanChildren list) ↔ ChildrenTyped schema list
  | [] => by rw [cleanChildren]
  | ⟨own, fields, attached⟩ :: rest => by
    have hchild := StructInstance.typed_setClean ⟨own, fields, attached⟩
    rw [StructInstance.setClean] at hchild
    rw [cleanChildren, StructInstance.setClean, ChildrenTyped, ChildrenTyped, hchild,
      childrenTyped_cleanChildren schema rest]

theorem length_cleanChildren : ∀ list : List StructInstance,
    (cleanChildren list).length = list.length
  | [] => by rw [cleanChildren]
  | child :: rest => by
    rw [cleanChildren, List.length_cons, List.length_cons, length_cleanChildren rest]

end

@[simp] theorem StructInstance.schema_setClean (inst : StructInstance) :
    inst.setClean.schema = inst.schema := by
  cases inst
  rw [StructInstance.setClean]

mutual

theorem StructInstance.flagged_setClean : ∀ inst : StructInstance, inst.Flagged →
    inst.setClean.Flagged
  | ⟨schema, fields, attached⟩, h => by
    rw [StructInstance.Flagged] at h
    rw [StructInstance.setClean, StructInstance.Flagged]
    exact statesFlagged_cleanFields fields h

theorem statesFlagged_cleanFields : ∀ states : List FieldState, StatesFlagged states →
    StatesFlagged (cleanFields states)
  | [], _ => by
    rw [cleanFields]
    trivial
  | state :: rest, h => by
    rw [StatesFlagged] at h
    rw [cleanFields, StatesFlagged]
    exact ⟨state.flagged_setClean h.1, statesFlagged_cleanFields rest h.2⟩

theorem FieldState.flagged_setClean : ∀ state : FieldState, state.Flagged → state.setClean.Flagged
  | ⟨.values list, dirty, location, unit⟩, h => by
    rw [FieldState.Flagged] at h
    rw [FieldState.setClean, FieldState.Flagged, List.length_map, h]
  | ⟨.handles list, dirty, location, unit⟩, h => by
    rw [FieldState.Flagged] at h
    rw [FieldState.setClean, FieldState.Flagged, List.length_map, h]
  | ⟨.children list, dirty, location, unit⟩, h => by
    rw [FieldState.Flagged] at h
    rw [FieldState.setClean, FieldState.Flagged]
    exact childrenFlagged_cleanChildren list h

theorem childrenFlagged_cleanChildren : ∀ list : List StructInstance, ChildrenFlagged list →
    ChildrenFlagged (cleanChildren list)
  | [], _ => by
    rw [cleanChildren]
    trivial
  | child :: rest, h => by
    rw [ChildrenFlagged] at h
    rw [cleanChildren, ChildrenFlagged]
    exact ⟨child.flagged_setClean h.1, childrenFlagged_cleanChildren rest h.2⟩

end

/-! ## New instances -/

/-- The cell is clean, and zero if it holds a value. -/
structure Cell.Fresh (cell : Cell) : Prop where
  clean : cell.dirty = false
  zero : ∀ held, cell.content = .value held → ∀ i, held.std140Byte i = 0

theorem Cell.fresh_core {cell : Cell} : cell.core.Fresh ↔ cell.Fresh := by
  obtain ⟨start, content, dirty, location⟩ := cell
  cases content with
  | value held => exact ⟨fun h => ⟨h.clean, h.zero⟩, fun h => ⟨h.clean, h.zero⟩⟩
  | handle unit =>
    constructor
    · exact fun h => ⟨h.clean, fun _ he => by cases he⟩
    · exact fun h => ⟨h.clean, fun _ he => by cases he⟩

/-- Whether cells are fresh does not depend on units and locations. -/
theorem fresh_of_map_core {cells others : List Cell} (hc : others.map Cell.core = cells.map Cell.core)
    (h : ∀ cell ∈ cells, cell.Fresh) : ∀ cell ∈ others, cell.Fresh := by
  intro cell hm
  have hm := List.mem_map_of_mem (f := Cell.core) hm
  rw [hc] at hm
  obtain ⟨other, ho, he⟩ := List.mem_map.1 hm
  rw [← Cell.fresh_core, ← he, Cell.fresh_core]
  exact h other ho

theorem UniformValue.std140Byte_zero? {type : BaseType} {value : UniformValue}
    (h : UniformValue.zero? type = some value) (i : Nat) : value.std140Byte i = 0 := by
  obtain ⟨⟨kind, shape⟩, -, rfl⟩ := Option.map_eq_some_iff.1 h
  have hzero : ∀ index, (List.replicate shape.count (0 : UInt64)).getD index 0 = 0 := by
    intro index
    rw [List.getD_eq_getElem?_getD, List.getElem?_replicate]
    split
    · rfl
    · rfl
  unfold UniformValue.std140Byte
  dsimp only
  split
  · rw [hzero]
    simp [Image.byteAt]
  · rfl

theorem fresh_cellsFrom {stride base length : Nat} {location : Option Nat}
    {contents : List LeafContent}
    (h : ∀ held, .value held ∈ contents → ∀ i, held.std140Byte i = 0) :
    ∀ cell ∈ cellsFrom stride base location contents (List.replicate length false),
      cell.Fresh := by
  induction contents generalizing base location length with
  | nil => simp [cellsFrom]
  | cons content rest ih =>
    cases length with
    | zero => simp [cellsFrom]
    | succ length =>
      rw [List.replicate_succ, cellsFrom]
      refine List.forall_mem_cons.2 ⟨⟨rfl, fun held he => ?_⟩, ?_⟩
      · exact h held (by rw [← he]; exact List.mem_cons_self)
      · exact ih fun held hm => h held (List.mem_cons_of_mem _ hm)

theorem childrenFlagged_iff {list : List StructInstance} :
    ChildrenFlagged list ↔ ∀ child ∈ list, child.Flagged := by
  induction list with
  | nil => simp [ChildrenFlagged]
  | cons child rest ih => rw [ChildrenFlagged, ih, List.forall_mem_cons]

theorem fresh_cellsOfChildren {list : List StructInstance}
    (h : ∀ child ∈ list, ∀ base, ∀ cell ∈ child.cells base, cell.Fresh) (base stride : Nat) :
    ∀ cell ∈ cellsOfChildren base stride list, cell.Fresh := by
  induction list generalizing base with
  | nil => simp [cellsOfChildren]
  | cons child rest ih =>
    obtain ⟨hchild, hrest⟩ := List.forall_mem_cons.1 h
    rw [cellsOfChildren]
    exact List.forall_mem_append.2 ⟨hchild base, ih hrest (base + stride)⟩

/-- A new instance of the schema has its flags, and is fresh. -/
structure TypeSchema.StartsFresh (schema : TypeSchema) : Prop where
  flagged : schema.instantiate.Flagged
  fresh : ∀ base, ∀ cell ∈ schema.instantiate.cells base, cell.Fresh

theorem FieldSchema.initialState_fresh {field : FieldSchema}
    (hn : ∀ inner, field.kind = .aggregate inner → inner.StartsFresh) :
    field.initialState.Flagged ∧
      ∀ base stride, ∀ cell ∈ field.initialState.cells base stride, cell.Fresh := by
  obtain ⟨name, typeName, kind, offset, size, array, location, unit⟩ := field
  rw [FieldSchema.initialState]
  cases kind with
  | value type =>
    simp only [FieldKind.initialContents]
    split
    · rename_i zero hz
      refine ⟨?_, fun base stride => ?_⟩
      · rw [FieldState.Flagged, List.length_replicate, List.length_replicate]
      · rw [FieldState.cells]
        refine fresh_cellsFrom fun held hm => ?_
        obtain ⟨value, hv, he⟩ := List.mem_map.1 hm
        obtain rfl := List.eq_of_mem_replicate hv
        obtain rfl := LeafContent.value.inj he
        exact UniformValue.std140Byte_zero? hz
    · refine ⟨?_, fun base stride => ?_⟩
      · rw [FieldState.Flagged, List.length_replicate, List.length_replicate]
      · rw [FieldState.cells]
        exact fresh_cellsFrom fun held hm => by simp at hm
  | handle handle =>
    simp only [FieldKind.initialContents]
    refine ⟨?_, fun base stride => ?_⟩
    · rw [FieldState.Flagged, List.length_replicate, List.length_replicate]
    · rw [FieldState.cells]
      exact fresh_cellsFrom fun held hm => by simp at hm
  | aggregate inner =>
    obtain ⟨hflagged, hfresh⟩ := hn inner rfl
    have hall : ChildrenFlagged (List.replicate (array.elim 1 ArrayLayout.length) inner.instantiate) := by
      refine childrenFlagged_iff.2 fun child hm => ?_
      rw [List.eq_of_mem_replicate hm]
      exact hflagged
    have hcells : ∀ base stride, ∀ cell ∈ cellsOfChildren base stride
        (List.replicate (array.elim 1 ArrayLayout.length) inner.instantiate), cell.Fresh := by
      refine fresh_cellsOfChildren fun child hm => ?_
      rw [List.eq_of_mem_replicate hm]
      exact hfresh
    simp only [FieldKind.initialContents]
    split
    · rename_i first
      have hcore := coreChildren_assignChildUnits first
        (List.replicate (array.elim 1 ArrayLayout.length) inner.instantiate)
      refine ⟨?_, fun base stride => ?_⟩
      · rw [FieldState.Flagged, ← childrenFlagged_core, hcore, childrenFlagged_core]
        exact hall
      · rw [FieldState.cells]
        refine fresh_of_map_core ?_ (hcells base stride)
        rw [← cellsOfChildren_core, hcore, cellsOfChildren_core]
    · refine ⟨?_, fun base stride => ?_⟩
      · rw [FieldState.Flagged]
        exact hall
      · rw [FieldState.cells]
        exact hcells base stride

theorem initialStates_fresh {fields : List FieldSchema}
    (hn : ∀ field ∈ fields, ∀ inner, field.kind = .aggregate inner → inner.StartsFresh) :
    StatesFlagged (initialStates fields) ∧
      ∀ base, ∀ cell ∈ cellsOfStates base fields (initialStates fields), cell.Fresh := by
  induction fields with
  | nil =>
    rw [initialStates]
    exact ⟨trivial, fun base => by simp [cellsOfStates]⟩
  | cons field rest ih =>
    obtain ⟨hfirst, hothers⟩ := List.forall_mem_cons.1 hn
    obtain ⟨hflagged, hfresh⟩ := FieldSchema.initialState_fresh hfirst
    obtain ⟨hrestFlagged, hrestFresh⟩ := ih hothers
    rw [initialStates]
    refine ⟨?_, fun base => ?_⟩
    · rw [StatesFlagged]
      exact ⟨hflagged, hrestFlagged⟩
    · rw [cellsOfStates]
      exact List.forall_mem_append.2 ⟨hfresh _ _, hrestFresh base⟩

/-- The induction is on the nesting of the schema. -/
theorem TypeSchema.Kinded.startsFresh {schema : TypeSchema} (h : schema.Kinded) :
    schema.StartsFresh := by
  induction h with
  | @intro schema _ _ ih =>
    obtain ⟨identity, kind, size, alignment, fields⟩ := schema
    obtain ⟨hflagged, hfresh⟩ := initialStates_fresh ih
    refine ⟨?_, fun base => ?_⟩
    · rw [TypeSchema.instantiate, StructInstance.Flagged]
      exact hflagged
    · rw [TypeSchema.instantiate, StructInstance.cells]
      exact hfresh base

theorem TypeSchema.Regular.startsFresh {schema : TypeSchema} (h : schema.Regular) :
    schema.StartsFresh := h.kinded.startsFresh

end UniformLayout
