import UniformLayout.Proofs.Instance.Frame
import UniformLayout.Proofs.Instance.Paths

/-!
# Changes and the elements that they report

The changes of an instance are the reports of its dirty elements (`StructInstance.Reports`): of each
dirty element there is one, with the path to it, its place, and its location.

* `StructInstance.Leads`: a nested instance, with the steps and the way to it.
* `StructInstance.exists_reports_of_mem`, `StructInstance.mem_of_reports`: changes are reports.

Main statement: `StructInstance.exists_reports_iff`.
-/

namespace UniformLayout

namespace StructInstance

/-! ## Nested instances -/

/-- Steps lead to a nested instance. It lies at the end of the way, and starts `offset` bytes behind
the whole one. -/
inductive Leads : StructInstance → List PathStep → Way → Nat → StructInstance → Prop
  | here (inst : StructInstance) : Leads inst [] [] 0 inst
  | into {inst child found : StructInstance} {field : FieldSchema} {state : FieldState}
      {list : List StructInstance} {position index offset : Nat} {steps : List PathStep} {way : Way}
      (schemaAt : inst.schema.fields[position]? = some field)
      (stateAt : inst.fields[position]? = some state) (held : state.contents = .children list)
      (childAt : list[index]? = some child) (rest : Leads child steps way offset found) :
      Leads inst (⟨field.name, field.elementIndex index⟩ :: steps) ((position, index) :: way)
        (field.elementOffset index + offset) found

variable {inst child found : StructInstance} {steps : List PathStep} {way : Way} {offset : Nat}

theorem childAt?_eq_some {place : Nat × Nat} : inst.childAt? place = some child ↔
    ∃ state list, inst.fields[place.1]? = some state ∧ state.contents = .children list ∧
      list[place.2]? = some child := by
  unfold childAt?
  constructor
  · intro h
    obtain ⟨state, hs, h⟩ := Option.bind_eq_some_iff.1 h
    obtain ⟨list, hl, hc⟩ := Option.bind_eq_some_iff.1 h
    exact ⟨state, list, hs, FieldState.children?_eq_some.1 hl, hc⟩
  · rintro ⟨state, list, hs, hl, hc⟩
    refine Option.bind_eq_some_iff.2 ⟨state, hs, Option.bind_eq_some_iff.2 ⟨list, ?_, hc⟩⟩
    exact FieldState.children?_eq_some.2 hl

theorem Typed.exists_schema (ht : inst.Typed) {position : Nat} {state : FieldState}
    (hs : inst.fields[position]? = some state) :
    ∃ field, inst.schema.fields[position]? = some field ∧ state.Typed field := by
  have htyped := typed_iff.1 ht
  have hlt : position < inst.schema.fields.length := by
    rw [← htyped.length_eq]
    exact (List.getElem?_eq_some_iff.1 hs).1
  have hfield := List.getElem?_eq_getElem hlt
  exact ⟨_, hfield, htyped.state hfield hs⟩

theorem Leads.inner?_eq (h : inst.Leads steps way offset found) : inst.inner? way = some found := by
  induction h with
  | here inst => rfl
  | @into inst child found field state list position index offset steps way _ stateAt held childAt
      _ ih =>
    have hchild : inst.childAt? (position, index) = some child :=
      childAt?_eq_some.2 ⟨state, list, stateAt, held, childAt⟩
    rw [inner?, hchild]
    exact ih

/-- A nested instance has steps that lead to it. -/
theorem exists_leads (ht : inst.Typed) (h : inst.inner? way = some found) :
    ∃ steps offset, inst.Leads steps way offset found := by
  induction way generalizing inst with
  | nil =>
    obtain rfl := Option.some.inj h
    exact ⟨[], 0, .here inst⟩
  | cons place rest ih =>
    obtain ⟨child, hc, h⟩ := Option.bind_eq_some_iff.1 h
    obtain ⟨state, list, hs, hl, hchild⟩ := childAt?_eq_some.1 hc
    obtain ⟨field, hfield, -⟩ := ht.exists_schema hs
    obtain ⟨-, -, htyped⟩ := ht.child_of_field hfield hs hl hchild
    obtain ⟨steps, offset, hleads⟩ := ih htyped h
    exact ⟨_, _, .into hfield hs hl hchild hleads⟩

theorem Leads.typed (h : inst.Leads steps way offset found) (ht : inst.Typed) : found.Typed := by
  induction h with
  | here inst => exact ht
  | into schemaAt stateAt held childAt _ ih =>
    exact ih (ht.child_of_field schemaAt stateAt held childAt).2.2

theorem Leads.flagged (h : inst.Leads steps way offset found) (hf : inst.Flagged) :
    found.Flagged := by
  induction h with
  | here inst => exact hf
  | into _ stateAt held childAt _ ih =>
    exact ih (hf.children_of_field stateAt held _ (List.mem_of_getElem? childAt))

/-- The field at a position is found by its name, where names differ. -/
theorem lookup_at (hn : (inst.schema.fields.map FieldSchema.name).Nodup) {position : Nat}
    {field : FieldSchema} {state : FieldState}
    (hfield : inst.schema.fields[position]? = some field)
    (hs : inst.fields[position]? = some state) :
    inst.lookup field.name = .ok ⟨position, field, state⟩ := by
  unfold lookup
  rw [inst.schema.found_iff.2 hn position field hfield]
  simp [hfield, hs]

theorem Leads.reached (h : inst.Leads steps way offset found) (ht : inst.Typed)
    (hn : inst.schema.FieldsApart) : inst.descend steps = .ok found ∧
      inst.way? steps = some way ∧ inst.schema.nested? steps = some (offset, found.schema) ∧
      found.schema.FieldsApart := by
  induction h with
  | here inst => exact ⟨rfl, rfl, rfl, hn⟩
  | @into inst child found field state list position index offset steps way schemaAt stateAt held
      childAt _ ih =>
    obtain ⟨hlt, hk, htyped⟩ := ht.child_of_field schemaAt stateAt held childAt
    obtain ⟨names, nested⟩ := hn
    have hv := lookup_at names schemaAt stateAt
    have hfind : inst.findChild ⟨field.name, field.elementIndex index⟩ =
        .ok (⟨position, field, state⟩, list, index, child) := by
      unfold findChild
      rw [hv]
      simp only [ok_bind, FieldSchema.position_elementIndex hlt, held, childAt]
      rfl
    obtain ⟨hd, hway, hnested, hapart⟩ :=
      ih htyped (nested field (List.mem_of_getElem? schemaAt) _ hk)
    refine ⟨?_, ?_, ?_, hapart⟩
    · rw [descend, hfind]
      exact hd
    · rw [way?, hfind]
      simp [Except.toOption, hway]
    · have hposition := index_of_findChild hfind
      dsimp only at hposition
      simp [TypeSchema.nested?, field?_of_lookup hv, hk, hnested, ← hposition]

end StructInstance

/-! ## Changes in lists -/

/-- The change that reports an element of a field, in an instance that starts at `base`. -/
def FieldSchema.report (field : FieldSchema) (path : String) (base index : Nat)
    (location : Option Nat) : DirtyField where
  path
  offset := base + field.elementOffset index
  size := field.elementSize
  location := location.map (· + index)

variable {above : String} {base : Nat} {change : DirtyField}

theorem mem_dirtyElements {field : FieldSchema} {location : Option Nat} {element : Nat}
    {flags : List Bool} :
    change ∈ dirtyElements above base field location element flags ↔
      ∃ index, flags[index]? = some true ∧ change = field.report
        (elementPath above field (element + index)) base (element + index) location := by
  induction flags generalizing element with
  | nil => simp [dirtyElements]
  | cons flag rest ih =>
    have hsplit : (∃ index, (flag :: rest)[index]? = some true ∧ change = field.report
        (elementPath above field (element + index)) base (element + index) location) ↔
        (flag = true ∧
          change = field.report (elementPath above field element) base element location) ∨
          ∃ index, rest[index]? = some true ∧
            change = field.report (elementPath above field (element + 1 + index)) base
              (element + 1 + index) location := by
      constructor
      · rintro ⟨index, hflag, rfl⟩
        cases index with
        | zero => exact .inl ⟨Option.some.inj hflag, rfl⟩
        | succ index =>
          refine .inr ⟨index, hflag, ?_⟩
          rw [Nat.add_right_comm, Nat.add_assoc]
      · rintro (⟨rfl, rfl⟩ | ⟨index, hflag, rfl⟩)
        · exact ⟨0, rfl, rfl⟩
        · refine ⟨index + 1, hflag, ?_⟩
          rw [Nat.add_right_comm, Nat.add_assoc]
    rw [dirtyElements, hsplit, ← ih]
    cases flag with
    | false => simp
    | true => simp [FieldSchema.report]

theorem mem_dirtyFieldsFrom {schemas : List FieldSchema} {states : List FieldState} :
    change ∈ dirtyFieldsFrom above base schemas states ↔
      ∃ (position : Nat) (field : FieldSchema) (state : FieldState),
        schemas[position]? = some field ∧ states[position]? = some state ∧
          change ∈ state.dirtyFrom above base field := by
  induction schemas generalizing states with
  | nil => simp [dirtyFieldsFrom]
  | cons field rest ih =>
    cases states with
    | nil => simp [dirtyFieldsFrom]
    | cons state others =>
      rw [dirtyFieldsFrom, List.mem_append, ih]
      constructor
      · rintro (hm | ⟨position, schema, held, hs, hh, hm⟩)
        · exact ⟨0, field, state, rfl, rfl, hm⟩
        · exact ⟨position + 1, schema, held, hs, hh, hm⟩
      · rintro ⟨position, schema, held, hs, hh, hm⟩
        cases position with
        | zero =>
          obtain rfl := Option.some.inj hs
          obtain rfl := Option.some.inj hh
          exact .inl hm
        | succ position => exact .inr ⟨position, schema, held, hs, hh, hm⟩

theorem mem_dirtyChildrenFrom {field : FieldSchema} {element : Nat} {list : List StructInstance} :
    change ∈ dirtyChildrenFrom above base field element list ↔ ∃ index child,
      list[index]? = some child ∧ change ∈ StructInstance.dirtyFrom
        (elementPath above field (element + index) ++ ".")
        (base + field.elementOffset (element + index)) child := by
  induction list generalizing element with
  | nil => simp [dirtyChildrenFrom]
  | cons first rest ih =>
    rw [dirtyChildrenFrom, List.mem_append, ih]
    constructor
    · rintro (hm | ⟨index, child, hc, hm⟩)
      · exact ⟨0, first, rfl, hm⟩
      · refine ⟨index + 1, child, hc, ?_⟩
        rwa [Nat.add_right_comm, Nat.add_assoc] at hm
    · rintro ⟨index, child, hc, hm⟩
      cases index with
      | zero =>
        obtain rfl := Option.some.inj hc
        exact .inl hm
      | succ index =>
        refine .inr ⟨index, child, hc, ?_⟩
        rwa [Nat.add_right_comm, Nat.add_assoc]

/-! ## Reports -/

theorem FieldState.element?_dirty {state : FieldState} (hf : state.Flagged)
    (hleaf : state.children? = none) (index : Nat) :
    (state.element? index).any (·.dirty) = true ↔ state.dirty[index]? = some true := by
  obtain ⟨contents, dirty, location, unit⟩ := state
  cases contents with
  | children list => cases hleaf
  | values list | handles list =>
    rw [FieldState.Flagged] at hf
    dsimp only
    by_cases hlt : index < list.length
    · have hlt' : index < dirty.length := hf ▸ hlt
      simp [FieldState.element?, hlt, hlt']
    · have hge : ¬ index < dirty.length := hf ▸ hlt
      simp [FieldState.element?, hlt, hge]

namespace StructInstance

/-- The change reports a dirty element of an instance that starts at `base`, by a path behind
`above`. -/
def Reports (inst : StructInstance) (above : String) (base : Nat) (spot : Spot) (index : Nat)
    (change : DirtyField) : Prop :=
  ∃ steps offset found field state, inst.Leads steps spot.way offset found ∧
    found.schema.fields[spot.index]? = some field ∧ found.ownLeaf? spot.index = some state ∧
    state.dirty[index]? = some true ∧ change = field.report
      (above ++ pathText ⟨field.name, field.elementIndex index⟩ steps) (base + offset) index
      state.location

variable {inst found : StructInstance} {spot : Spot} {index : Nat}

theorem ownLeaf?_eq_some {position : Nat} {state : FieldState} :
    inst.ownLeaf? position = some state ↔
      inst.fields[position]? = some state ∧ state.children? = none := by
  unfold ownLeaf?
  rw [Option.filter_eq_some_iff, Option.isNone_iff_eq_none]

theorem Leads.elementAt?_eq {way : Way} {offset position : Nat} {steps : List PathStep}
    {state : FieldState} (h : inst.Leads steps way offset found)
    (hown : found.ownLeaf? position = some state) (index : Nat) :
    inst.elementAt? ⟨way, position⟩ index = state.element? index := by
  unfold elementAt? leafAt?
  rw [h.inner?_eq, Option.bind_some, hown, Option.bind_some]

/-- An element belongs to a leaf field of an instance that steps lead to. -/
theorem exists_leads_of_elementAt? (ht : inst.Typed) {element : LeafElement}
    (h : inst.elementAt? spot index = some element) :
    ∃ steps offset found field state, inst.Leads steps spot.way offset found ∧
      found.schema.fields[spot.index]? = some field ∧ found.ownLeaf? spot.index = some state ∧
      state.element? index = some element := by
  obtain ⟨state, hleaf, helement⟩ := Option.bind_eq_some_iff.1 h
  obtain ⟨found, hfound, hown⟩ := Option.bind_eq_some_iff.1 hleaf
  obtain ⟨steps, offset, hleads⟩ := exists_leads ht hfound
  obtain ⟨field, hfield, -⟩ := (hleads.typed ht).exists_schema (ownLeaf?_eq_some.1 hown).1
  exact ⟨steps, offset, found, field, state, hleads, hfield, hown, helement⟩

theorem Flagged.ownLeaf (hf : inst.Flagged) {position : Nat} {state : FieldState}
    (hown : inst.ownLeaf? position = some state) : state.Flagged :=
  statesFlagged_iff.1 (flagged_iff.1 hf) state
    (List.mem_of_getElem? (ownLeaf?_eq_some.1 hown).1)

/-- The changes of a leaf field are the reports of its dirty elements. -/
theorem mem_dirtyFrom_leaf {field : FieldSchema} {state : FieldState}
    (hleaf : state.children? = none) : change ∈ state.dirtyFrom above base field ↔
      ∃ index, state.dirty[index]? = some true ∧
        change = field.report (above ++ pathText ⟨field.name, field.elementIndex index⟩ []) base
          index state.location := by
  obtain ⟨contents, dirty, location, unit⟩ := state
  cases contents with
  | children list => cases hleaf
  | values list | handles list =>
    rw [FieldState.dirtyFrom, mem_dirtyElements]
    simp only [Nat.zero_add, elementPath_eq, pathText]

/-- The induction is on the nesting of the schema. -/
theorem exists_reports_of_mem {schema : TypeSchema} (hk : schema.Kinded) (ht : inst.Typed)
    (hs : inst.schema = schema) (hm : change ∈ inst.dirtyFrom above base) :
    ∃ spot index, inst.Reports above base spot index change := by
  induction hk generalizing inst above base with
  | @intro schema _ _ ih =>
    subst hs
    have hfields : change ∈ dirtyFieldsFrom above base inst.schema.fields inst.fields := by
      cases inst
      rwa [dirtyFrom] at hm
    obtain ⟨position, field, state, hfield, hstate, hm⟩ := mem_dirtyFieldsFrom.1 hfields
    cases hleaf : state.children? with
    | none =>
      obtain ⟨index, hflag, rfl⟩ := (mem_dirtyFrom_leaf hleaf).1 hm
      exact ⟨⟨[], position⟩, index, [], 0, inst, field, state, .here inst, hfield,
        ownLeaf?_eq_some.2 ⟨hstate, hleaf⟩, hflag, rfl⟩
    | some list =>
      have hheld := FieldState.children?_eq_some.1 hleaf
      have hchildren : change ∈ dirtyChildrenFrom above base field 0 list := by
        obtain ⟨contents, dirty, location, unit⟩ := state
        obtain rfl : contents = .children list := hheld
        rwa [FieldState.dirtyFrom] at hm
      obtain ⟨element, child, hchild, hm⟩ := mem_dirtyChildrenFrom.1 hchildren
      rw [Nat.zero_add] at hm
      obtain ⟨-, hkind, htyped⟩ := ht.child_of_field hfield hstate hheld hchild
      obtain ⟨⟨way, leaf⟩, index, hreports⟩ :=
        ih field (List.mem_of_getElem? hfield) child.schema hkind htyped rfl hm
      obtain ⟨steps, offset, found, last, held, hleads, hlast, hown, hflag, rfl⟩ := hreports
      refine ⟨⟨(position, element) :: way, leaf⟩, index, _, _, found, last, held,
        .into hfield hstate hheld hchild hleads, hlast, hown, hflag, ?_⟩
      rw [elementPath_eq, pathText, Nat.add_assoc]
      simp only [String.append_assoc]

theorem mem_of_reports (h : inst.Reports above base spot index change) :
    change ∈ inst.dirtyFrom above base := by
  obtain ⟨way, leaf⟩ := spot
  obtain ⟨steps, offset, found, field, state, hleads, hfield, hown, hflag, rfl⟩ := h
  dsimp only at hleads hfield hown
  induction hleads generalizing above base with
  | here inst =>
    obtain ⟨hstate, hleaf⟩ := ownLeaf?_eq_some.1 hown
    cases inst
    rw [dirtyFrom]
    exact mem_dirtyFieldsFrom.2 ⟨leaf, field, state, hfield, hstate,
      (mem_dirtyFrom_leaf hleaf).2 ⟨index, hflag, rfl⟩⟩
  | @into inst child found holder held list position element offset steps way schemaAt stateAt
      contents childAt _ ih =>
    have hm := @ih (elementPath above holder element ++ ".") (base + holder.elementOffset element)
      hfield hown
    have hfields : field.report (above ++ pathText ⟨field.name, field.elementIndex index⟩
        (⟨holder.name, holder.elementIndex element⟩ :: steps))
        (base + (holder.elementOffset element + offset)) index state.location ∈
          dirtyFieldsFrom above base inst.schema.fields inst.fields := by
      refine mem_dirtyFieldsFrom.2 ⟨position, holder, held, schemaAt, stateAt, ?_⟩
      obtain ⟨heldContents, dirty, location, unit⟩ := held
      obtain rfl : heldContents = .children list := contents
      rw [FieldState.dirtyFrom]
      refine mem_dirtyChildrenFrom.2 ⟨element, child, childAt, ?_⟩
      rw [Nat.zero_add, pathText, ← Nat.add_assoc]
      rw [elementPath_eq] at hm ⊢
      simp only [String.append_assoc] at hm ⊢
      exact hm
    cases inst
    rw [dirtyFrom]
    exact hfields

/-- **Changes.** The changes of an instance are the reports of its dirty elements. -/
theorem mem_dirtyFields_iff (hk : inst.schema.Kinded) (ht : inst.Typed) :
    change ∈ inst.dirtyFields ↔ ∃ spot index, inst.Reports "" 0 spot index change :=
  ⟨exists_reports_of_mem hk ht rfl, fun ⟨_, _, h⟩ => mem_of_reports h⟩

/-- The element is dirty. -/
def dirtyAt (spot : Spot) (index : Nat) (inst : StructInstance) : Bool :=
  (inst.elementAt? spot index).any (·.dirty)

/-- An element is dirty if and only if it is reported. -/
theorem exists_reports_iff (ht : inst.Typed) (hf : inst.Flagged) :
    inst.dirtyAt spot index = true ↔ ∃ change, inst.Reports "" 0 spot index change := by
  constructor
  · intro h
    obtain ⟨element, he, hd⟩ := (Option.any_eq_true _ _).1 h
    obtain ⟨steps, offset, found, field, state, hleads, hfield, hown, helement⟩ :=
      exists_leads_of_elementAt? ht he
    have hdirty : (state.element? index).any (·.dirty) = true := by
      rw [helement]
      exact hd
    exact ⟨_, steps, offset, found, field, state, hleads, hfield, hown,
      (FieldState.element?_dirty ((hleads.flagged hf).ownLeaf hown) (ownLeaf?_eq_some.1 hown).2
        index).1 hdirty, rfl⟩
  · rintro ⟨change, steps, offset, found, field, state, hleads, hfield, hown, hflag, -⟩
    unfold dirtyAt
    rw [hleads.elementAt?_eq hown]
    exact (FieldState.element?_dirty ((hleads.flagged hf).ownLeaf hown) (ownLeaf?_eq_some.1 hown).2
      index).2 hflag

end StructInstance

end UniformLayout
