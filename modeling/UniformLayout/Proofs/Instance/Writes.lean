import UniformLayout.Proofs.Instance.Fresh

/-!
# What a call does to the cells

A write sets the dirty flag of one cell and replaces what it holds by something of the same size. All
other cells stay as they are, and the other calls change nothing but locations (`CellsFollow`). Where
the written cell lies can be read off the schema (`InstanceCall.range?`), also at the end of a path.

* `InstanceCall.follows`: one call on an instance itself.
* `follows_updateAt`: a call at the end of a path.
-/

namespace UniformLayout

theorem map_eq_ok_iff {ε α β : Type} {x : Except ε α} {f : α → β} {b : β} :
    x.map f = .ok b ↔ ∃ a, x = .ok a ∧ f a = b := by
  cases x with
  | error e => simp [Except.map]
  | ok a => simp [Except.map]

/-! ## Calls and their places -/

/-- A call that changes an instance. -/
inductive InstanceCall where
  | set (name : String) (element : Option Nat) (value : UniformValue)
  | setHandle (name : String) (element : Nat) (handle : TextureHandle)
  | locate (name : String) (location : Nat)
  | attach

def TypeSchema.field? (schema : TypeSchema) (name : String) : Option FieldSchema :=
  schema.fields.find? (·.name == name)

/-- The bytes of an element in an instance that starts at `base`. -/
def FieldSchema.elementRange (field : FieldSchema) (base element : Nat) : ByteRange where
  start := base + field.elementOffset element
  stop := base + field.elementOffset element + field.elementSize

/-- The nested schema that a path leads to, and how far behind the start of an instance the nested
one starts. -/
def TypeSchema.nested? : List PathStep → TypeSchema → Option (Nat × TypeSchema)
  | [], schema => some (0, schema)
  | step :: rest, schema => do
    let field ← schema.field? step.field
    match field.kind with
    | .aggregate inner =>
      let (offset, found) ← inner.nested? rest
      return (field.elementOffset (step.element.getD 0) + offset, found)
    | _ => none

namespace InstanceCall

def apply (table : HandleTable) (inst : StructInstance) :
    InstanceCall → Except AccessError (StructInstance × HandleTable)
  | .set name element value => (inst.set name element value).map (·, table)
  | .setHandle name element handle => inst.setHandle name element handle table
  | .locate name location => (inst.locate name location).map (·, table)
  | .attach => .ok (inst.attach, table)

/-- The field and the element that the call writes. -/
def target? : InstanceCall → Option (String × Nat)
  | .set name element _ => some (name, element.getD 0)
  | .setHandle name element _ => some (name, element)
  | _ => none

/-- The bytes that the call writes in an instance that starts at `base`. -/
def range? (call : InstanceCall) (base : Nat) (schema : TypeSchema) : Option ByteRange := do
  let (name, element) ← call.target?
  return (← schema.field? name).elementRange base element

/-- The locations of all elements of a located field have 32 bits. -/
def Fits (schema : TypeSchema) : InstanceCall → Prop
  | .locate name location => ∀ field, schema.field? name = some field →
      ∀ element < field.length, location + element < UInt32.size
  | _ => True

theorem changes {call : InstanceCall} {table bound : HandleTable} {inst after : StructInstance}
    (h : call.apply table inst = .ok (after, bound)) : inst.Changes after := by
  cases call with
  | set name element value =>
    obtain ⟨next, hs, he⟩ := map_eq_ok_iff.1 h
    cases he
    exact .set hs
  | setHandle name element handle => exact .setHandle h
  | locate name location =>
    obtain ⟨next, hs, he⟩ := map_eq_ok_iff.1 h
    cases he
    exact .locate hs
  | attach =>
    cases h
    exact .attach

end InstanceCall

/-! ## How cells follow each other -/

/-- A cell after a call that writes the bytes `written`. -/
structure Cell.Follows (written : Option ByteRange) (before after : Cell) : Prop where
  start : after.start = before.start
  size : after.content.size = before.content.size
  contents : (after.content = before.content ∧ after.dirty = before.dirty) ∨
    (after.dirty = true ∧ written = some after.range)
  location : after.location = before.location ∨ ∀ location ∈ after.location, location < UInt32.size

/-- The cells after a call that writes the bytes `written`: what is written is dirty. -/
structure CellsFollow (written : Option ByteRange) (before after : List Cell) : Prop where
  each : List.Forall₂ (Cell.Follows written) before after
  marked : ∀ range ∈ written, ∃ cell ∈ after, cell.dirty = true ∧ cell.range = range

theorem Cell.Follows.refl (written : Option ByteRange) (cell : Cell) : cell.Follows written cell :=
  ⟨rfl, rfl, .inl ⟨rfl, rfl⟩, .inl rfl⟩

theorem Cell.Follows.range {written : Option ByteRange} {before after : Cell}
    (h : before.Follows written after) : after.range = before.range := by
  unfold Cell.range
  rw [h.start, h.size]

theorem forall₂_follows_refl (written : Option ByteRange) (cells : List Cell) :
    List.Forall₂ (Cell.Follows written) cells cells :=
  List.forall₂_same.2 fun cell _ => .refl written cell

theorem CellsFollow.refl (cells : List Cell) : CellsFollow none cells cells :=
  ⟨forall₂_follows_refl none cells, by simp⟩

/-- Cells in front and behind do not matter. -/
theorem CellsFollow.within {written : Option ByteRange} {before after : List Cell}
    (h : CellsFollow written before after) (front back : List Cell) :
    CellsFollow written (front ++ before ++ back) (front ++ after ++ back) where
  each := List.rel_append
    (List.rel_append (forall₂_follows_refl written front) h.each) (forall₂_follows_refl written back)
  marked range hr := by
    obtain ⟨cell, hm, hd⟩ := h.marked range hr
    exact ⟨cell, List.mem_append_left _ (List.mem_append_right _ hm), hd⟩

theorem CellsFollow.single {before after : Cell} (hs : after.start = before.start)
    (hsize : after.content.size = before.content.size) (hd : after.dirty = true)
    (hl : after.location = before.location) : CellsFollow (some after.range) [before] [after] where
  each := .cons ⟨hs, hsize, .inr ⟨hd, rfl⟩, .inl hl⟩ .nil
  marked _ hr := ⟨after, List.mem_singleton_self _, hd, Option.some.inj hr⟩

/-! ## Single elements, fields and children -/

theorem cellsFrom_split {contents : List LeafContent} {flags : List Bool} {index : Nat}
    {content : LeafContent} {flag : Bool} (hc : contents[index]? = some content)
    (hf : flags[index]? = some flag) (stride base : Nat) (location : Option Nat) :
    ∃ front back own, cellsFrom stride base location contents flags =
        front ++ [⟨base + index * stride, content, flag, own⟩] ++ back ∧
      ∀ other mark, cellsFrom stride base location (contents.set index other) (flags.set index mark) =
        front ++ [⟨base + index * stride, other, mark, own⟩] ++ back := by
  induction contents generalizing flags index base location with
  | nil => cases hc
  | cons first rest ih =>
    cases flags with
    | nil => cases hf
    | cons firstFlag flags =>
      cases index with
      | zero =>
        obtain rfl := Option.some.inj hc
        obtain rfl := Option.some.inj hf
        refine ⟨[], cellsFrom stride (base + stride) (location.map (· + 1)) rest flags, location, ?_⟩
        simp [cellsFrom]
      | succ index =>
        obtain ⟨front, back, own, hsplit, hset⟩ :=
          ih hc hf (base + stride) (location.map (· + 1))
        have hplace : base + stride + index * stride = base + (index + 1) * stride := by
          rw [Nat.succ_mul]
          omega
        rw [hplace] at hsplit hset
        refine ⟨⟨base, first, firstFlag, location⟩ :: front, back, own, ?_, fun other mark => ?_⟩
        · rw [cellsFrom, hsplit]
          rfl
        · rw [List.set_cons_succ, List.set_cons_succ, cellsFrom, hset]
          rfl

theorem cellsOfStates_split {schemas : List FieldSchema} {states : List FieldState} {index : Nat}
    {schema : FieldSchema} {state : FieldState} (hs : schemas[index]? = some schema)
    (ht : states[index]? = some state) (base : Nat) :
    ∃ front back, cellsOfStates base schemas states =
        front ++ state.cells (base + schema.offset) schema.stride ++ back ∧
      ∀ other, cellsOfStates base schemas (states.set index other) =
        front ++ other.cells (base + schema.offset) schema.stride ++ back := by
  induction states generalizing schemas index with
  | nil => cases ht
  | cons first rest ih =>
    cases schemas with
    | nil => cases hs
    | cons firstSchema others =>
      cases index with
      | zero =>
        obtain rfl := Option.some.inj hs
        obtain rfl := Option.some.inj ht
        refine ⟨[], cellsOfStates base others rest, ?_⟩
        simp [cellsOfStates]
      | succ index =>
        obtain ⟨front, back, hsplit, hset⟩ := @ih others index hs ht
        refine ⟨first.cells (base + firstSchema.offset) firstSchema.stride ++ front, back, ?_,
          fun other => ?_⟩
        · rw [cellsOfStates, hsplit, List.append_assoc, List.append_assoc, List.append_assoc]
        · rw [List.set_cons_succ, cellsOfStates, hset, List.append_assoc, List.append_assoc,
            List.append_assoc]

theorem cellsOfChildren_split {list : List StructInstance} {index : Nat} {child : StructInstance}
    (h : list[index]? = some child) (stride base : Nat) :
    ∃ front back, cellsOfChildren base stride list =
        front ++ child.cells (base + index * stride) ++ back ∧
      ∀ other, cellsOfChildren base stride (list.set index other) =
        front ++ StructInstance.cells (base + index * stride) other ++ back := by
  induction list generalizing index base with
  | nil => cases h
  | cons first rest ih =>
    cases index with
    | zero =>
      obtain rfl := Option.some.inj h
      refine ⟨[], cellsOfChildren (base + stride) stride rest, ?_⟩
      simp [cellsOfChildren]
    | succ index =>
      obtain ⟨front, back, hsplit, hset⟩ := ih h (base + stride)
      have hplace : base + stride + index * stride = base + (index + 1) * stride := by
        rw [Nat.succ_mul]
        omega
      rw [hplace] at hsplit hset
      refine ⟨first.cells base ++ front, back, ?_, fun other => ?_⟩
      · rw [cellsOfChildren, hsplit, List.append_assoc, List.append_assoc, List.append_assoc]
      · rw [List.set_cons_succ, cellsOfChildren, hset, List.append_assoc, List.append_assoc,
          List.append_assoc]

theorem statesFlagged_iff {states : List FieldState} :
    StatesFlagged states ↔ ∀ state ∈ states, state.Flagged := by
  induction states with
  | nil => simp [StatesFlagged]
  | cons state rest ih => rw [StatesFlagged, ih, List.forall_mem_cons]

namespace StructInstance

variable {inst : StructInstance} {name : String}

theorem Flagged.view (h : inst.Flagged) {view : FieldView} (hv : inst.lookup name = .ok view) : view.state.Flagged := by
  obtain ⟨-, -, ht⟩ := lookup_eq_ok hv
  exact statesFlagged_iff.1 (flagged_iff.1 h) _ (List.mem_of_getElem? ht)

theorem Flagged.setState (h : inst.Flagged) (index : Nat) {state : FieldState}
    (hs : state.Flagged) : (inst.setState index state).Flagged := by
  refine flagged_iff.2 (statesFlagged_iff.2 fun other hm => ?_)
  rcases List.mem_or_eq_of_mem_set hm with hm | rfl
  · exact statesFlagged_iff.1 (flagged_iff.1 h) other hm
  · exact hs

theorem field?_of_lookup {view : FieldView} (hv : inst.lookup name = .ok view) :
    inst.schema.field? name = some view.schema := by
  obtain ⟨hi, hs, -⟩ := lookup_eq_ok hv
  unfold TypeSchema.field?
  unfold TypeSchema.fieldIndex? at hi
  rw [List.find?_eq_bind_findIdx?_getElem?, hi]
  exact hs

/-- The name of the field that a name finds. -/
theorem name_of_lookup {view : FieldView} (hv : inst.lookup name = .ok view) :
    view.schema.name = name := by
  have hfound := field?_of_lookup hv
  unfold TypeSchema.field? at hfound
  exact eq_of_beq (List.find?_some hfound :)

theorem index_of_findChild {step : PathStep} {view : FieldView} {list : List StructInstance}
    {index : Nat} {child : StructInstance}
    (h : inst.findChild step = .ok (view, list, index, child)) : index = step.element.getD 0 := by
  obtain ⟨-, hp, -⟩ := findChild_eq_ok_iff.1 h
  exact (FieldSchema.position_eq_ok hp).1

/-- Only the cells of the field follow when its state is replaced. -/
theorem follows_setState {view : FieldView} (hv : inst.lookup name = .ok view)
    {written : Option ByteRange} {base : Nat} {state : FieldState}
    (h : CellsFollow written (view.state.cells (base + view.schema.offset) view.schema.stride)
      (state.cells (base + view.schema.offset) view.schema.stride)) :
    CellsFollow written (inst.cells base) ((inst.setState view.index state).cells base) := by
  obtain ⟨-, hs, ht⟩ := lookup_eq_ok hv
  obtain ⟨front, back, hsplit, hset⟩ := cellsOfStates_split hs ht base
  rw [cells_eq, cells_eq, hsplit]
  unfold setState
  dsimp only
  rw [hset]
  exact h.within front back

end StructInstance

/-! ## Calls on an instance itself -/

/-- Replacing one element follows it, and marks its bytes as written. -/
theorem follows_cellsFrom_set {contents : List LeafContent} {flags : List Bool}
    {index size : Nat} (hl : flags.length = contents.length) (hi : index < contents.length)
    (hs : ∀ content ∈ contents, content.size = size) {content : LeafContent}
    (hc : content.size = size) (stride base : Nat) (location : Option Nat) :
    CellsFollow (some ⟨base + index * stride, base + index * stride + size⟩)
      (cellsFrom stride base location contents flags)
      (cellsFrom stride base location (contents.set index content) (flags.set index true)) := by
  obtain ⟨front, back, own, hsplit, hset⟩ := cellsFrom_split
    (List.getElem?_eq_getElem hi) (List.getElem?_eq_getElem (hl ▸ hi)) stride base location
  rw [hsplit, hset]
  have hrange : (⟨base + index * stride, base + index * stride + size⟩ : ByteRange) =
      Cell.range ⟨base + index * stride, content, true, own⟩ := by
    unfold Cell.range
    dsimp only
    rw [hc]
  have hsingle : CellsFollow (some (Cell.range ⟨base + index * stride, content, true, own⟩))
      [⟨base + index * stride, contents[index], flags[index], own⟩]
      [⟨base + index * stride, content, true, own⟩] :=
    .single rfl (hc.trans (hs _ (List.getElem_mem hi)).symm) rfl rfl
  rw [hrange]
  exact hsingle.within front back

/-- Giving another location to consecutive elements changes nothing else. -/
theorem forall₂_cellsFrom_location {stride base : Nat} {contents : List LeafContent}
    {flags : List Bool} {own : Option Nat} {location : Nat}
    (hfits : ∀ element < contents.length, location + element < UInt32.size) :
    List.Forall₂ (Cell.Follows none) (cellsFrom stride base own contents flags)
      (cellsFrom stride base (some location) contents flags) := by
  induction contents generalizing base own location flags with
  | nil => simp [cellsFrom]
  | cons content rest ih =>
    cases flags with
    | nil => simp [cellsFrom]
    | cons flag flags =>
      have hfirst := hfits 0 (Nat.zero_lt_succ _)
      have hrest : ∀ element < rest.length, location + 1 + element < UInt32.size := by
        intro element he
        have := hfits (element + 1) (Nat.succ_lt_succ he)
        omega
      rw [cellsFrom, cellsFrom]
      refine .cons ⟨rfl, rfl, .inl ⟨rfl, rfl⟩, .inr fun given hg => ?_⟩ (ih hrest)
      obtain rfl := Option.some.inj hg
      exact hfirst

namespace StructInstance

variable {inst after : StructInstance} {name : String}

theorem follows_set (ht : inst.Typed) (hf : inst.Flagged) {element : Option Nat}
    {value : UniformValue} (h : inst.set name element value = .ok after) :
    after.Flagged ∧ ∃ field, inst.schema.field? name = some field ∧ ∀ base,
      CellsFollow (some (field.elementRange base (element.getD 0))) (inst.cells base)
        (after.cells base) := by
  obtain ⟨view, list, hs⟩ := ht.of_set h
  obtain rfl := hs.becomes
  have hflagged := hf.view hs.lookup
  have hfield := field?_of_lookup hs.lookup
  have hfollows := @follows_setState inst name view hs.lookup
  obtain ⟨viewIndex, schema, ⟨contents, dirty, location, unit⟩⟩ := view
  obtain rfl : contents = .values list := hs.contents
  rw [FieldState.Flagged] at hflagged
  have hsize : ∀ held : UniformValue, held.baseType = value.baseType →
      (LeafContent.value held).size = schema.elementSize := by
    intro held hb
    rw [schema.elementSize_of_value hs.kind]
    exact congrArg BaseType.size hb
  refine ⟨hf.setState viewIndex ?_, schema, hfield, fun base => hfollows ?_⟩
  · rw [FieldState.Flagged, List.length_set, List.length_set, hflagged]
  · have hsizes : ∀ content ∈ list.map LeafContent.value, content.size = schema.elementSize := by
      intro content hm
      obtain ⟨held, hheld, rfl⟩ := List.mem_map.1 hm
      exact hsize held (hs.typed held hheld).1
    dsimp only
    rw [FieldState.cells, FieldState.cells, List.map_set]
    unfold FieldSchema.elementRange FieldSchema.elementOffset
    rw [← Nat.add_assoc]
    exact follows_cellsFrom_set (by rw [hflagged, List.length_map])
      (by rw [List.length_map]; exact hs.bound) hsizes (hsize value rfl) _ _ _

theorem follows_setHandle (ht : inst.Typed) (hf : inst.Flagged) {element : Nat}
    {handle : TextureHandle} {table bound : HandleTable}
    (h : inst.setHandle name element handle table = .ok (after, bound)) :
    after.Flagged ∧ ∃ field, inst.schema.field? name = some field ∧ ∀ base,
      CellsFollow (some (field.elementRange base element)) (inst.cells base) (after.cells base) := by
  obtain ⟨view, kind, list, hs, -⟩ := ht.of_setHandle h
  obtain rfl := hs.becomes
  have hflagged := hf.view hs.lookup
  have hfield := field?_of_lookup hs.lookup
  have hfollows := @follows_setState inst name view hs.lookup
  obtain ⟨viewIndex, schema, ⟨contents, dirty, location, unit⟩⟩ := view
  obtain rfl : contents = .handles list := hs.contents
  rw [FieldState.Flagged] at hflagged
  have hsize : ∀ content ∈ (unitsFrom unit schema.length).map LeafContent.handle,
      content.size = schema.elementSize := by
    intro content hm
    obtain ⟨given, -, rfl⟩ := List.mem_map.1 hm
    rw [schema.elementSize_of_handle hs.kind]
    rfl
  refine ⟨hf.setState viewIndex ?_, schema, hfield, fun base => hfollows ?_⟩
  · dsimp only
    rw [FieldState.Flagged, List.length_set, List.length_set, hflagged]
  · -- the unit stays, so the cell is replaced by itself
    have hcount : ((unitsFrom unit schema.length).map LeafContent.handle).length =
        schema.length := by
      rw [List.length_map, length_unitsFrom]
    have hlt := FieldSchema.checkBounds_eq_ok hs.checkBounds
    have hself := follows_cellsFrom_set (hflagged.trans (hs.length_eq.trans hcount.symm))
      (Nat.lt_of_lt_of_eq hlt hcount.symm) hsize
      (hsize _ (List.getElem_mem (Nat.lt_of_lt_of_eq hlt hcount.symm))) schema.stride
      (base + schema.offset) location
    rw [List.set_getElem_self] at hself
    dsimp only
    rw [FieldState.cells, FieldState.cells, List.length_set, hs.length_eq]
    unfold FieldSchema.elementRange FieldSchema.elementOffset
    rw [← Nat.add_assoc]
    exact hself

theorem follows_locate (ht : inst.Typed) (hf : inst.Flagged) {location : Nat}
    (hfits : ∀ field, inst.schema.field? name = some field →
      ∀ element < field.length, location + element < UInt32.size)
    (h : inst.locate name location = .ok after) :
    after.Flagged ∧ ∀ base, CellsFollow none (inst.cells base) (after.cells base) := by
  obtain ⟨view, hv, hkind, rfl⟩ := locate_eq_ok h
  have htyped := ht.view hv
  have hflagged := hf.view hv
  have hfits := hfits view.schema (field?_of_lookup hv)
  have hfollows := @follows_setState inst name view hv
  obtain ⟨viewIndex, schema, ⟨contents, dirty, own, unit⟩⟩ := view
  cases contents with
  | values list =>
    rw [FieldState.Typed] at htyped
    rw [FieldState.Flagged] at hflagged
    refine ⟨hf.setState viewIndex hflagged, fun base => hfollows ⟨?_, by simp⟩⟩
    dsimp only
    rw [FieldState.cells, FieldState.cells]
    refine forall₂_cellsFrom_location ?_
    rw [List.length_map, htyped.1]
    exact hfits
  | handles list =>
    rw [FieldState.Typed] at htyped
    rw [FieldState.Flagged] at hflagged
    refine ⟨hf.setState viewIndex hflagged, fun base => hfollows ⟨?_, by simp⟩⟩
    dsimp only
    rw [FieldState.cells, FieldState.cells]
    refine forall₂_cellsFrom_location ?_
    rw [List.length_map, length_unitsFrom, htyped.1]
    exact hfits
  | children list =>
    rw [FieldState.Typed] at htyped
    obtain ⟨-, inner, hk, -⟩ := htyped
    exact absurd hk (hkind inner)

theorem flagged_attach (h : inst.Flagged) : inst.attach.Flagged := by
  rw [← flagged_core, inst.core_attach, flagged_core]
  exact h

end StructInstance

/-- **One call.** The cells follow, and the flags stay complete. -/
theorem InstanceCall.follows {call : InstanceCall} {table bound : HandleTable}
    {inst after : StructInstance} (ht : inst.Typed) (hf : inst.Flagged)
    (hfits : call.Fits inst.schema) (h : call.apply table inst = .ok (after, bound)) :
    after.Flagged ∧ ∀ base, CellsFollow (call.range? base inst.schema) (inst.cells base)
      (after.cells base) := by
  cases call with
  | set name element value =>
    obtain ⟨next, hs, he⟩ := map_eq_ok_iff.1 h
    obtain ⟨rfl, -⟩ := Prod.mk.inj he
    obtain ⟨hflagged, field, hfield, hfollows⟩ := StructInstance.follows_set ht hf hs
    refine ⟨hflagged, fun base => ?_⟩
    rw [InstanceCall.range?, InstanceCall.target?]
    simpa [hfield] using hfollows base
  | setHandle name element handle =>
    obtain ⟨hflagged, field, hfield, hfollows⟩ := StructInstance.follows_setHandle ht hf h
    refine ⟨hflagged, fun base => ?_⟩
    rw [InstanceCall.range?, InstanceCall.target?]
    simpa [hfield] using hfollows base
  | locate name location =>
    obtain ⟨next, hs, he⟩ := map_eq_ok_iff.1 h
    obtain ⟨rfl, -⟩ := Prod.mk.inj he
    exact StructInstance.follows_locate ht hf hfits hs
  | attach =>
    obtain ⟨rfl, -⟩ := Prod.mk.inj (Except.ok.inj h)
    refine ⟨StructInstance.flagged_attach hf, fun base => ?_⟩
    rw [inst.cells_attach]
    exact .refl _

/-! ## Calls at the end of a path -/

/-- A change that makes the cells of its target follow does so for the cells of the whole instance.
The induction is on the path; the bytes that are written move with the nested instance. -/
theorem StructInstance.follows_updateAt {α : Type}
    {change : StructInstance → Except AccessError (StructInstance × α)}
    {written : Nat → TypeSchema → Option ByteRange} {P : TypeSchema → Prop}
    (hc : ∀ before next answer, before.Typed → before.Flagged → P before.schema →
      change before = .ok (next, answer) → next.Flagged ∧ ∀ base,
        CellsFollow (written base before.schema) (before.cells base) (next.cells base))
    {path : List PathStep} {inst after : StructInstance} {answer : α} (ht : inst.Typed)
    (hf : inst.Flagged)
    (hp : ∀ offset inner, inst.schema.nested? path = some (offset, inner) → P inner)
    (hu : updateAt change path inst = .ok (after, answer)) :
    after.Flagged ∧ ∃ offset inner, inst.schema.nested? path = some (offset, inner) ∧ ∀ base,
      CellsFollow (written (base + offset) inner) (inst.cells base) (after.cells base) := by
  induction path generalizing inst after with
  | nil =>
    obtain ⟨hflagged, hfollows⟩ := hc inst after answer ht hf (hp 0 inst.schema rfl) hu
    exact ⟨hflagged, 0, inst.schema, rfl, hfollows⟩
  | cons step rest ih =>
    rw [updateAt] at hu
    obtain ⟨⟨view, list, index, child⟩, hfind, hu⟩ := bind_eq_ok_iff.1 hu
    obtain ⟨⟨changed, given⟩, hr, hu⟩ := bind_eq_ok_iff.1 hu
    obtain ⟨rfl, rfl⟩ := Prod.mk.inj (Except.ok.inj hu)
    obtain ⟨hv, hcontents, hchild⟩ := findChild_eq_ok hfind
    have hindex := index_of_findChild hfind
    have htyped := ht.view hv
    have hflagged := hf.view hv
    have hfield := field?_of_lookup hv
    have hfollows := @follows_setState inst step.field view hv
    obtain ⟨viewIndex, schema, ⟨contents, dirty, location, unit⟩⟩ := view
    obtain rfl : contents = .children list := hcontents
    rw [FieldState.Typed] at htyped
    rw [FieldState.Flagged] at hflagged
    obtain ⟨-, inner, hk, hchildren⟩ := htyped
    dsimp only at hk hfield
    obtain ⟨rfl, hchildTyped⟩ := hchildren.child hchild
    have hnested : ∀ offset found, child.schema.nested? rest = some (offset, found) →
        inst.schema.nested? (step :: rest) =
          some (schema.elementOffset (step.element.getD 0) + offset, found) := by
      intro offset found hn
      simp [TypeSchema.nested?, hfield, hk, hn]
    obtain ⟨hnext, offset, found, hn, hcells⟩ := ih hchildTyped
      (childrenFlagged_iff.1 hflagged child (List.mem_of_getElem? hchild))
      (fun offset found hn => hp _ found (hnested offset found hn)) hr
    refine ⟨hf.setState viewIndex ?_, _, found, hnested offset found hn, fun base => hfollows ?_⟩
    · rw [FieldState.Flagged]
      refine childrenFlagged_iff.2 fun other hm => ?_
      rcases List.mem_or_eq_of_mem_set hm with hm | rfl
      · exact childrenFlagged_iff.1 hflagged other hm
      · exact hnext
    · obtain ⟨front, back, hsplit, hset⟩ := cellsOfChildren_split hchild schema.stride
        (base + schema.offset)
      have hplace : base + (schema.elementOffset (step.element.getD 0) + offset) =
          base + schema.offset + index * schema.stride + offset := by
        rw [hindex]
        unfold FieldSchema.elementOffset
        omega
      dsimp only
      rw [FieldState.cells, FieldState.cells, hsplit, hset, hplace]
      exact (hcells _).within front back

end UniformLayout
