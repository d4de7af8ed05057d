import UniformLayout.Instance.Access
import UniformLayout.Proofs.Schema.Regular
import UniformLayout.Proofs.Schema.Units

/-!
# Instances hold what their schemas say

An instance is `Typed` when every field holds contents of its kind, one entry for each element, and
the nested instances are instances of the nested schemas and typed as well. New instances are typed,
and no call changes that.

* `FieldState.Typed.of_value`, `of_handle`, `of_aggregate`: the contents of a field of one kind.
* `typed_instantiate`: new instances.
* `Changes.typed`, `typed_updateAt`: one call, on the instance itself and at the end of a path.
* `TypeSchema.Reaches.typed`: everything that calls lead to.
-/

namespace UniformLayout

mutual

/-- Every field holds what its schema says. -/
def StructInstance.Typed : StructInstance → Prop
  | ⟨schema, fields, _⟩ => StatesTyped schema.fields fields

def StatesTyped : List FieldSchema → List FieldState → Prop
  | [], [] => True
  | schema :: schemas, state :: states => state.Typed schema ∧ StatesTyped schemas states
  | _, _ => False

def FieldState.Typed (schema : FieldSchema) : FieldState → Prop
  | ⟨.values list, _, _, _⟩ => list.length = schema.length ∧ ∃ type, schema.kind = .value type ∧
      ∀ value ∈ list, value.baseType = type ∧ value.isWellFormed
  | ⟨.handles list, _, _, _⟩ => list.length = schema.length ∧ ∃ kind, schema.kind = .handle kind
  | ⟨.children list, _, _, _⟩ => list.length = schema.length ∧ ∃ inner,
      schema.kind = .aggregate inner ∧ ChildrenTyped inner list

/-- Each is a typed instance of the schema. -/
def ChildrenTyped (schema : TypeSchema) : List StructInstance → Prop
  | [] => True
  | child :: rest => child.schema = schema ∧ child.Typed ∧ ChildrenTyped schema rest

end

theorem StructInstance.typed_iff {inst : StructInstance} :
    inst.Typed ↔ StatesTyped inst.schema.fields inst.fields := by
  cases inst
  rw [StructInstance.Typed]

/-- The dirty flags, the location and the unit of a field do not matter. -/
theorem FieldState.typed_congr {schema : FieldSchema} {state other : FieldState}
    (h : state.Typed schema) (hc : other.contents = state.contents) : other.Typed schema := by
  obtain ⟨contents, dirty, location, unit⟩ := state
  obtain ⟨contents', dirty', location', unit'⟩ := other
  obtain rfl : contents' = contents := hc
  cases contents' with
  | values list | handles list | children list => exact h

section

variable {schema : FieldSchema} {state : FieldState} (h : state.Typed schema)
include h

/-- What the kind of a field says about its contents. -/
theorem FieldState.Typed.of_value {type : BaseType} (hk : schema.kind = .value type) :
    ∃ list, state.contents = .values list ∧ list.length = schema.length ∧
      ∀ value ∈ list, value.baseType = type ∧ value.isWellFormed := by
  obtain ⟨contents, dirty, location, unit⟩ := state
  cases contents with
  | values list =>
    rw [FieldState.Typed] at h
    obtain ⟨hl, found, hfound, hall⟩ := h
    obtain rfl := FieldKind.value.inj (hk.symm.trans hfound)
    exact ⟨list, rfl, hl, hall⟩
  | handles list =>
    rw [FieldState.Typed] at h
    obtain ⟨-, kind, hfound⟩ := h
    cases hk.symm.trans hfound
  | children list =>
    rw [FieldState.Typed] at h
    obtain ⟨-, inner, hfound, -⟩ := h
    cases hk.symm.trans hfound

theorem FieldState.Typed.of_handle {kind : HandleKind} (hk : schema.kind = .handle kind) :
    ∃ list, state.contents = .handles list ∧ list.length = schema.length := by
  obtain ⟨contents, dirty, location, unit⟩ := state
  cases contents with
  | handles list =>
    rw [FieldState.Typed] at h
    exact ⟨list, rfl, h.1⟩
  | values list | children list =>
    rw [FieldState.Typed] at h
    obtain ⟨-, found, hfound, -⟩ := h
    cases hk.symm.trans hfound

theorem FieldState.Typed.of_aggregate {inner : TypeSchema} (hk : schema.kind = .aggregate inner) :
    ∃ list, state.contents = .children list ∧ list.length = schema.length ∧
      ChildrenTyped inner list := by
  obtain ⟨contents, dirty, location, unit⟩ := state
  cases contents with
  | children list =>
    rw [FieldState.Typed] at h
    obtain ⟨hl, found, hfound, hchildren⟩ := h
    obtain rfl := FieldKind.aggregate.inj (hk.symm.trans hfound)
    exact ⟨list, rfl, hl, hchildren⟩
  | values list =>
    rw [FieldState.Typed] at h
    obtain ⟨-, type, hfound, -⟩ := h
    cases hk.symm.trans hfound
  | handles list =>
    rw [FieldState.Typed] at h
    obtain ⟨-, kind, hfound⟩ := h
    cases hk.symm.trans hfound

end

/-! ## Single fields and children -/

theorem StatesTyped.state {schemas : List FieldSchema} {states : List FieldState}
    (h : StatesTyped schemas states) {index : Nat} {schema : FieldSchema} {state : FieldState}
    (hs : schemas[index]? = some schema) (ht : states[index]? = some state) :
    state.Typed schema := by
  induction states generalizing schemas index with
  | nil => cases ht
  | cons first rest ih =>
    cases schemas with
    | nil => cases hs
    | cons firstSchema others =>
      rw [StatesTyped] at h
      cases index with
      | zero =>
        obtain rfl := Option.some.inj hs
        obtain rfl := Option.some.inj ht
        exact h.1
      | succ index => exact ih h.2 hs ht

theorem StatesTyped.set {schemas : List FieldSchema} {states : List FieldState}
    (h : StatesTyped schemas states) {index : Nat} {schema : FieldSchema} {state : FieldState}
    (hs : schemas[index]? = some schema) (ht : state.Typed schema) :
    StatesTyped schemas (states.set index state) := by
  induction states generalizing schemas index with
  | nil => exact h
  | cons first rest ih =>
    cases schemas with
    | nil => cases hs
    | cons firstSchema others =>
      rw [StatesTyped] at h
      cases index with
      | zero =>
        obtain rfl := Option.some.inj hs
        rw [List.set_cons_zero, StatesTyped]
        exact ⟨ht, h.2⟩
      | succ index =>
        rw [List.set_cons_succ, StatesTyped]
        exact ⟨h.1, ih h.2 hs⟩

theorem ChildrenTyped.child {schema : TypeSchema} {list : List StructInstance}
    (h : ChildrenTyped schema list) {index : Nat} {child : StructInstance}
    (hc : list[index]? = some child) : child.schema = schema ∧ child.Typed := by
  induction list generalizing index with
  | nil => cases hc
  | cons first rest ih =>
    rw [ChildrenTyped] at h
    cases index with
    | zero =>
      obtain rfl := Option.some.inj hc
      exact ⟨h.1, h.2.1⟩
    | succ index => exact ih h.2.2 hc

theorem ChildrenTyped.set {schema : TypeSchema} {list : List StructInstance}
    (h : ChildrenTyped schema list) (index : Nat) {child : StructInstance}
    (hs : child.schema = schema) (ht : child.Typed) : ChildrenTyped schema (list.set index child) := by
  induction list generalizing index with
  | nil => exact h
  | cons first rest ih =>
    rw [ChildrenTyped] at h
    cases index with
    | zero =>
      rw [List.set_cons_zero, ChildrenTyped]
      exact ⟨hs, ht, h.2.2⟩
    | succ index =>
      rw [List.set_cons_succ, ChildrenTyped]
      exact ⟨h.1, h.2.1, ih h.2.2 index⟩

/-! ## Units, attachment, locations -/

mutual

/-- The instance without locations, units and attachment: schemas, contents and dirty flags. -/
def StructInstance.core : StructInstance → StructInstance
  | ⟨schema, fields, _⟩ => ⟨schema, coreAll fields, false⟩

def coreAll : List FieldState → List FieldState
  | [] => []
  | state :: rest => state.core :: coreAll rest

def FieldState.core : FieldState → FieldState
  | ⟨.children list, dirty, _, _⟩ => ⟨.children (coreChildren list), dirty, none, none⟩
  | ⟨.values list, dirty, _, _⟩ => ⟨.values list, dirty, none, none⟩
  | ⟨.handles list, dirty, _, _⟩ => ⟨.handles list, dirty, none, none⟩

def coreChildren : List StructInstance → List StructInstance
  | [] => []
  | child :: rest => child.core :: coreChildren rest

end

@[simp] theorem StructInstance.schema_core (inst : StructInstance) :
    inst.core.schema = inst.schema := by
  cases inst
  rw [StructInstance.core]

@[simp] theorem length_coreChildren (list : List StructInstance) :
    (coreChildren list).length = list.length := by
  induction list with
  | nil => rw [coreChildren]
  | cons child rest ih => rw [coreChildren, List.length_cons, List.length_cons, ih]

mutual

/-- Whether an instance is typed can be seen from its core. -/
theorem StructInstance.typed_core :
    ∀ inst : StructInstance, inst.core.Typed ↔ inst.Typed
  | ⟨schema, fields, attached⟩ => by
    rw [StructInstance.core, StructInstance.Typed, StructInstance.Typed]
    exact statesTyped_core schema.fields fields

theorem statesTyped_core : ∀ (schemas : List FieldSchema) (states : List FieldState),
    StatesTyped schemas (coreAll states) ↔ StatesTyped schemas states
  | [], [] => by rw [coreAll]
  | schema :: schemas, state :: states => by
    rw [coreAll, StatesTyped, StatesTyped, state.typed_core schema,
      statesTyped_core schemas states]
  | [], _ :: _ => by simp [coreAll, StatesTyped]
  | _ :: _, [] => by simp [coreAll, StatesTyped]

theorem FieldState.typed_core (schema : FieldSchema) :
    ∀ state : FieldState, state.core.Typed schema ↔ state.Typed schema
  | ⟨.children list, dirty, location, unit⟩ => by
    have hchildren := fun inner => childrenTyped_core inner list
    simp only [FieldState.core, FieldState.Typed, length_coreChildren, hchildren]
  | ⟨.values list, dirty, location, unit⟩ => by
    simp only [FieldState.core, FieldState.Typed]
  | ⟨.handles list, dirty, location, unit⟩ => by
    simp only [FieldState.core, FieldState.Typed]

theorem childrenTyped_core (schema : TypeSchema) : ∀ list : List StructInstance,
    ChildrenTyped schema (coreChildren list) ↔ ChildrenTyped schema list
  | [] => by rw [coreChildren]
  | child :: rest => by
    rw [coreChildren, ChildrenTyped, ChildrenTyped, child.schema_core, child.typed_core,
      childrenTyped_core schema rest]

end

mutual

/-- Handing out texture units leaves the core alone. -/
theorem StructInstance.core_assignUnits (next : Nat) :
    ∀ inst : StructInstance, (inst.assignUnits next).1.core = inst.core
  | ⟨schema, fields, attached⟩ => by
    rw [StructInstance.assignUnits, StructInstance.core, StructInstance.core,
      coreAll_assignFieldUnits next schema.fields fields]

theorem coreAll_assignFieldUnits (next : Nat) : ∀ (schemas : List FieldSchema)
    (states : List FieldState), coreAll (assignFieldUnits next schemas states).1 = coreAll states
  | schema :: schemas, state :: states => by
    rw [assignFieldUnits, coreAll, coreAll, state.core_assignUnits next schema,
      coreAll_assignFieldUnits _ schemas states]
  | [], states => by simp [assignFieldUnits]
  | _ :: _, [] => by simp [assignFieldUnits]

theorem FieldState.core_assignUnits (next : Nat) (schema : FieldSchema) :
    ∀ state : FieldState, (state.assignUnits next schema).1.core = state.core
  | ⟨.children list, dirty, location, unit⟩ => by
    rw [FieldState.assignUnits, FieldState.core, FieldState.core,
      coreChildren_assignChildUnits next list]
  | ⟨.values list, dirty, location, unit⟩ => by rw [FieldState.assignUnits]
  | ⟨.handles list, dirty, location, unit⟩ => by
    rw [FieldState.assignUnits]
    split
    · rw [FieldState.core, FieldState.core]
    · rfl

theorem coreChildren_assignChildUnits (next : Nat) : ∀ list : List StructInstance,
    coreChildren (assignChildUnits next list).1 = coreChildren list
  | [] => by rw [assignChildUnits]
  | child :: rest => by
    rw [assignChildUnits, coreChildren, coreChildren, child.core_assignUnits next,
      coreChildren_assignChildUnits _ rest]

end

mutual

/-- Attaching an instance leaves its core alone. -/
theorem StructInstance.core_attach : ∀ inst : StructInstance, inst.attach.core = inst.core
  | ⟨schema, fields, attached⟩ => by
    rw [StructInstance.attach, StructInstance.core, StructInstance.core, coreAll_attachFields fields]

theorem coreAll_attachFields : ∀ states : List FieldState,
    coreAll (attachFields states) = coreAll states
  | [] => by rw [attachFields]
  | state :: rest => by
    rw [attachFields, coreAll, coreAll, state.core_attach, coreAll_attachFields rest]

theorem FieldState.core_attach : ∀ state : FieldState, state.attach.core = state.core
  | ⟨.children list, dirty, location, unit⟩ => by
    rw [FieldState.attach, FieldState.core, FieldState.core, coreChildren_attachChildren list]
  | ⟨.values list, dirty, location, unit⟩ => by rw [FieldState.attach]
  | ⟨.handles list, dirty, location, unit⟩ => by rw [FieldState.attach]

theorem coreChildren_attachChildren : ∀ list : List StructInstance,
    coreChildren (attachChildren list) = coreChildren list
  | [] => by rw [attachChildren]
  | child :: rest => by
    rw [attachChildren, coreChildren, coreChildren, child.core_attach,
      coreChildren_attachChildren rest]

end

mutual

/-- Giving offsets as locations leaves the core alone. -/
theorem StructInstance.core_locateFrom (base : Nat) :
    ∀ inst : StructInstance, (inst.locateFrom base).core = inst.core
  | ⟨schema, fields, attached⟩ => by
    rw [StructInstance.locateFrom, StructInstance.core, StructInstance.core,
      coreAll_locateFieldsFrom base schema.fields fields]

theorem coreAll_locateFieldsFrom (base : Nat) : ∀ (schemas : List FieldSchema)
    (states : List FieldState), coreAll (locateFieldsFrom base schemas states) = coreAll states
  | schema :: schemas, state :: states => by
    rw [locateFieldsFrom, coreAll, coreAll, state.core_locateFrom base schema,
      coreAll_locateFieldsFrom base schemas states]
  | [], states => by simp [locateFieldsFrom]
  | _ :: _, [] => by simp [locateFieldsFrom]

theorem FieldState.core_locateFrom (base : Nat) (schema : FieldSchema) :
    ∀ state : FieldState, (state.locateFrom base schema).core = state.core
  | ⟨.children list, dirty, location, unit⟩ => by
    rw [FieldState.locateFrom, FieldState.core, FieldState.core,
      coreChildren_locateChildrenFrom (base + schema.offset) schema.stride list]
  | ⟨.values list, dirty, location, unit⟩ => by
    rw [FieldState.locateFrom, FieldState.core, FieldState.core]
  | ⟨.handles list, dirty, location, unit⟩ => by
    rw [FieldState.locateFrom, FieldState.core, FieldState.core]

theorem coreChildren_locateChildrenFrom (base stride : Nat) : ∀ list : List StructInstance,
    coreChildren (locateChildrenFrom base stride list) = coreChildren list
  | [] => by rw [locateChildrenFrom]
  | child :: rest => by
    rw [locateChildrenFrom, coreChildren, coreChildren, child.core_locateFrom base,
      coreChildren_locateChildrenFrom (base + stride) stride rest]

end

/-! ## New instances -/

theorem childrenTyped_replicate {schema : TypeSchema} {child : StructInstance}
    (hs : child.schema = schema) (ht : child.Typed) (length : Nat) :
    ChildrenTyped schema (List.replicate length child) := by
  induction length with
  | zero => trivial
  | succ length ih =>
    rw [List.replicate_succ, ChildrenTyped]
    exact ⟨hs, ht, ih⟩

theorem typed_initialState {field : FieldSchema}
    (h : ∀ type, field.kind = .value type → type.isHandle = false)
    (hn : ∀ inner, field.kind = .aggregate inner → inner.instantiate.Typed) :
    field.initialState.Typed field := by
  obtain ⟨name, typeName, kind, offset, size, array, location, unit⟩ := field
  rw [FieldSchema.initialState]
  cases kind with
  | value type =>
    have hvalue := h type rfl
    simp only [FieldKind.initialContents]
    split
    · rename_i zero hz
      rw [FieldState.Typed]
      refine ⟨List.length_replicate, type, rfl, fun value hm => ?_⟩
      obtain rfl := List.eq_of_mem_replicate hm
      exact ⟨UniformValue.baseType_zero? hz, UniformValue.wellFormed_zero? hz⟩
    · rename_i hz
      cases type with
      | handle handle => cases hvalue
      | scalar _ | vector _ _ | matrix _ _ _ => cases hz
  | handle handle =>
    rw [FieldKind.initialContents, FieldState.Typed]
    exact ⟨List.length_replicate, handle, rfl⟩
  | aggregate inner =>
    have hchildren := childrenTyped_replicate inner.schema_instantiate (hn inner rfl)
      (array.elim 1 ArrayLayout.length)
    simp only [FieldKind.initialContents]
    split
    · rename_i first
      have hcore := coreChildren_assignChildUnits first
        (List.replicate (array.elim 1 ArrayLayout.length) inner.instantiate)
      rw [FieldState.Typed]
      refine ⟨?_, inner, rfl, ?_⟩
      · rw [← length_coreChildren, hcore, length_coreChildren]
        exact List.length_replicate
      · rw [← childrenTyped_core, hcore, childrenTyped_core]
        exact hchildren
    · rw [FieldState.Typed]
      exact ⟨List.length_replicate, inner, rfl, hchildren⟩

theorem statesTyped_initialStates {fields : List FieldSchema}
    (h : ∀ field ∈ fields, ∀ type, field.kind = .value type → type.isHandle = false)
    (hn : ∀ field ∈ fields, ∀ inner, field.kind = .aggregate inner → inner.instantiate.Typed) :
    StatesTyped fields (initialStates fields) := by
  induction fields with
  | nil =>
    rw [initialStates]
    trivial
  | cons field rest ih =>
    obtain ⟨hfirst, hothers⟩ := List.forall_mem_cons.1 h
    obtain ⟨hnested, hrest⟩ := List.forall_mem_cons.1 hn
    rw [initialStates, StatesTyped]
    exact ⟨typed_initialState hfirst hnested, ih hothers hrest⟩

/-- A new instance is typed, as long as no field holds handles as values. -/
theorem TypeSchema.Kinded.typed_instantiate {schema : TypeSchema} (h : schema.Kinded) :
    schema.instantiate.Typed := by
  induction h with
  | @intro schema value _ ih =>
    obtain ⟨identity, kind, size, alignment, fields⟩ := schema
    rw [TypeSchema.instantiate, StructInstance.Typed]
    exact statesTyped_initialStates value ih

theorem TypeSchema.Regular.kinded {schema : TypeSchema} (h : schema.Regular) : schema.Kinded := by
  induction h with
  | intro _ hfield _ _ _ ih => exact .intro (fun field hm => (hfield field hm).isValue) ih

/-- A new instance of a regular schema is typed. -/
theorem typed_instantiate {schema : TypeSchema} (h : schema.Regular) :
    schema.instantiate.Typed := h.kinded.typed_instantiate

/-! ## One call -/

theorem FieldSchema.position_eq_ok {field : FieldSchema} {element : Option Nat} {wanted : String}
    {index : Nat} (h : field.position element wanted = .ok index) :
    index = element.getD 0 ∧ index < field.length := by
  unfold FieldSchema.position at h
  cases element with
  | none =>
    dsimp only at h
    split at h
    · cases h
    · rename_i ha
      cases h
      unfold FieldSchema.isArray at ha
      unfold FieldSchema.length
      rw [Option.not_isSome_iff_eq_none.1 ha]
      exact ⟨rfl, Nat.zero_lt_one⟩
  | some given =>
    obtain ⟨⟨⟩, hc, h⟩ := bind_eq_ok_iff.1 h
    cases h
    unfold FieldSchema.checkElement FieldSchema.checkBounds at hc
    split at hc
    · split at hc
      · rename_i hlt
        exact ⟨rfl, hlt⟩
      · cases hc
    · cases hc

theorem FieldSchema.checkBounds_eq_ok {field : FieldSchema} {element : Nat}
    (h : field.checkBounds element = .ok ()) : element < field.length := by
  unfold FieldSchema.checkBounds at h
  split at h
  · assumption
  · cases h

namespace StructInstance

variable {inst after : StructInstance}

theorem typed_of_core_eq (h : inst.Typed) (hc : after.core = inst.core) :
    after.Typed ∧ after.schema = inst.schema := by
  constructor
  · rw [← after.typed_core, hc, inst.typed_core]
    exact h
  · rw [← after.schema_core, hc, inst.schema_core]

/-- What is known of a field that is found. -/
theorem lookup_eq_ok {name : String} {view : FieldView} (h : inst.lookup name = .ok view) :
    inst.schema.fieldIndex? name = some view.index ∧
      inst.schema.fields[view.index]? = some view.schema ∧
      inst.fields[view.index]? = some view.state := by
  unfold lookup at h
  dsimp only at h
  split at h
  · rename_i found hf
    obtain rfl := Except.ok.inj h
    obtain ⟨index, hi, hf⟩ := Option.bind_eq_some_iff.1 hf
    obtain ⟨schema, hs, hf⟩ := Option.bind_eq_some_iff.1 hf
    obtain ⟨state, ht, hf⟩ := Option.bind_eq_some_iff.1 hf
    obtain rfl := Option.some.inj hf
    exact ⟨hi, hs, ht⟩
  · cases h

theorem Typed.view (h : inst.Typed) {name : String} {view : FieldView}
    (hv : inst.lookup name = .ok view) : view.state.Typed view.schema := by
  obtain ⟨-, hs, ht⟩ := lookup_eq_ok hv
  exact (typed_iff.1 h).state hs ht

theorem Typed.setState (h : inst.Typed) {name : String} {view : FieldView}
    (hv : inst.lookup name = .ok view) {state : FieldState} (ht : state.Typed view.schema) :
    (inst.setState view.index state).Typed := by
  obtain ⟨-, hs, -⟩ := lookup_eq_ok hv
  exact typed_iff.2 ((typed_iff.1 h).set hs ht)

/-- A value of the type of a field has been stored in an element of it, which is dirty then. -/
structure ValueStored (inst : StructInstance) (name : String) (element : Option Nat)
    (value : UniformValue) (view : FieldView) (list : List UniformValue) (after : StructInstance) :
    Prop where
  lookup : inst.lookup name = .ok view
  position : view.schema.position element "a single value" = .ok (element.getD 0)
  kind : view.schema.kind = .value value.baseType
  wellFormed : value.isWellFormed
  contents : view.state.contents = .values list
  length_eq : list.length = view.schema.length
  bound : element.getD 0 < list.length
  typed : ∀ held ∈ list, held.baseType = value.baseType ∧ held.isWellFormed
  becomes : after = inst.setState view.index
    { view.state with
      contents := .values (list.set (element.getD 0) value)
      dirty := view.state.dirty.set (element.getD 0) true }

/-- A handle has been stored in an element of a field, which is dirty then. -/
structure HandleStored (inst : StructInstance) (name : String) (element : Nat)
    (handle : TextureHandle) (view : FieldView) (kind : HandleKind)
    (list : List (Option TextureHandle)) (after : StructInstance) : Prop where
  lookup : inst.lookup name = .ok view
  checkBounds : view.schema.checkBounds element = .ok ()
  kind : view.schema.kind = .handle kind
  contents : view.state.contents = .handles list
  length_eq : list.length = view.schema.length
  bound : element < list.length
  becomes : after = inst.setState view.index
    { view.state with
      contents := .handles (list.set element (some handle))
      dirty := view.state.dirty.set element true }

theorem kind_of_accepts {field : FieldSchema} {value : UniformValue}
    (h : accepts field value = true) : field.kind = .value value.baseType := by
  unfold accepts at h
  split at h
  · rename_i type hk
    rw [hk, beq_iff_eq.1 (Bool.and_eq_true_iff.1 h).1]
  · cases h

theorem wellFormed_of_accepts {field : FieldSchema} {value : UniformValue}
    (h : accepts field value = true) : value.isWellFormed := by
  unfold accepts at h
  split at h
  · exact (Bool.and_eq_true_iff.1 h).2
  · cases h

theorem Typed.of_set (ht : inst.Typed) {name : String} {element : Option Nat} {value : UniformValue}
    (h : inst.set name element value = .ok after) :
    ∃ view list, inst.ValueStored name element value view list after := by
  unfold set at h
  obtain ⟨view, hv, h⟩ := bind_eq_ok_iff.1 h
  obtain ⟨index, hi, h⟩ := bind_eq_ok_iff.1 h
  obtain ⟨rfl, hlt⟩ := FieldSchema.position_eq_ok hi
  dsimp only at h
  split at h
  · cases h
  · rename_i haccepts
    replace haccepts : accepts view.schema value = true := by simpa using haccepts
    have hkind := kind_of_accepts haccepts
    obtain ⟨-, -, h⟩ := bind_eq_ok_iff.1 h
    obtain ⟨list, hcontents, hl, hall⟩ := (ht.view hv).of_value hkind
    rw [hcontents] at h
    exact ⟨view, list, hv, hi, hkind, wellFormed_of_accepts haccepts, hcontents, hl, hl.symm ▸ hlt,
      hall, (Except.ok.inj h).symm⟩

theorem Typed.of_setHandle (ht : inst.Typed) {name : String} {element : Nat} {handle : TextureHandle}
    {table bound : HandleTable} (h : inst.setHandle name element handle table = .ok (after, bound)) :
    ∃ view kind list, inst.HandleStored name element handle view kind list after ∧
      bound = view.state.unit.elim table fun unit => table.put (unit + element) kind.target? handle := by
  unfold setHandle at h
  obtain ⟨view, hv, h⟩ := bind_eq_ok_iff.1 h
  dsimp only at h
  split at h
  · rename_i kind hkind
    obtain ⟨⟨⟩, hb, h⟩ := bind_eq_ok_iff.1 h
    obtain ⟨-, -, h⟩ := bind_eq_ok_iff.1 h
    obtain ⟨list, hcontents, hl⟩ := (ht.view hv).of_handle hkind
    rw [hcontents] at h
    obtain ⟨rfl, rfl⟩ := Prod.mk.inj (Except.ok.inj h)
    refine ⟨view, kind, list, ⟨hv, hb, hkind, hcontents, hl, ?_, rfl⟩, ?_⟩
    · exact hl.symm ▸ FieldSchema.checkBounds_eq_ok hb
    · cases view.state.unit <;> rfl
  · cases h

theorem locate_eq_ok {name : String} {location : Nat} (h : inst.locate name location = .ok after) :
    ∃ view, inst.lookup name = .ok view ∧ (∀ inner, view.schema.kind ≠ .aggregate inner) ∧
      after = inst.setState view.index { view.state with location := some location } := by
  unfold locate at h
  obtain ⟨view, hv, h⟩ := bind_eq_ok_iff.1 h
  dsimp only at h
  split at h
  · cases h
  · rename_i hkind
    exact ⟨view, hv, hkind, (Except.ok.inj h).symm⟩

theorem typed_set (h : inst.Typed) {name : String} {element : Option Nat} {value : UniformValue}
    (hs : inst.set name element value = .ok after) :
    after.Typed ∧ after.schema = inst.schema := by
  obtain ⟨view, list, hs⟩ := h.of_set hs
  obtain rfl := hs.becomes
  refine ⟨h.setState hs.lookup ?_, rfl⟩
  rw [FieldState.Typed]
  refine ⟨List.length_set.trans hs.length_eq, _, hs.kind, fun other hm => ?_⟩
  rcases List.mem_or_eq_of_mem_set hm with hm | rfl
  · exact hs.typed other hm
  · exact ⟨rfl, hs.wellFormed⟩

theorem typed_setHandle (h : inst.Typed) {name : String} {element : Nat} {handle : TextureHandle}
    {table bound : HandleTable} (hs : inst.setHandle name element handle table = .ok (after, bound)) :
    after.Typed ∧ after.schema = inst.schema := by
  obtain ⟨view, kind, list, hs, -⟩ := h.of_setHandle hs
  obtain rfl := hs.becomes
  refine ⟨h.setState hs.lookup ?_, rfl⟩
  rw [FieldState.Typed]
  exact ⟨List.length_set.trans hs.length_eq, kind, hs.kind⟩

theorem typed_locate (h : inst.Typed) {name : String} {location : Nat}
    (hs : inst.locate name location = .ok after) : after.Typed ∧ after.schema = inst.schema := by
  obtain ⟨view, hv, -, rfl⟩ := locate_eq_ok hs
  exact ⟨h.setState hv (FieldState.typed_congr (h.view hv) rfl), rfl⟩

/-- One accepted call on an instance itself. -/
inductive Changes (before : StructInstance) : StructInstance → Prop
  | set {name : String} {element : Option Nat} {value : UniformValue} {after : StructInstance}
      (h : before.set name element value = .ok after) : Changes before after
  | setHandle {name : String} {element : Nat} {handle : TextureHandle} {table bound : HandleTable}
      {after : StructInstance} (h : before.setHandle name element handle table = .ok (after, bound)) :
      Changes before after
  | locate {name : String} {location : Nat} {after : StructInstance}
      (h : before.locate name location = .ok after) : Changes before after
  | attach : Changes before before.attach
  | locateAtOffsets : Changes before before.locateAtOffsets

/-- A call keeps an instance typed and its schema as it is. -/
theorem Changes.typed (hc : inst.Changes after) (h : inst.Typed) :
    after.Typed ∧ after.schema = inst.schema := by
  cases hc with
  | set hs => exact typed_set h hs
  | setHandle hs => exact typed_setHandle h hs
  | locate hs => exact typed_locate h hs
  | attach => exact typed_of_core_eq h inst.core_attach
  | locateAtOffsets => exact typed_of_core_eq h (inst.core_locateFrom 0)

/-- What a step needs to lead to a nested instance. -/
theorem findChild_eq_ok_iff {step : PathStep} {view : FieldView} {list : List StructInstance}
    {index : Nat} {child : StructInstance} : inst.findChild step = .ok (view, list, index, child) ↔
    inst.lookup step.field = .ok view ∧
      view.schema.position step.element "a single aggregate" = .ok index ∧
      view.state.contents = .children list ∧ list[index]? = some child := by
  constructor
  · intro h
    unfold findChild at h
    obtain ⟨found, hv, h⟩ := bind_eq_ok_iff.1 h
    obtain ⟨position, hp, h⟩ := bind_eq_ok_iff.1 h
    split at h
    · rename_i children hc
      split at h
      · rename_i nested hn
        cases h
        exact ⟨hv, hp, hc, hn⟩
      · cases h
    · cases h
  · rintro ⟨hv, hp, hcontents, hchild⟩
    unfold findChild
    rw [hv]
    simp only [ok_bind, hp, hcontents, hchild]
    rfl

theorem findChild_eq_ok {step : PathStep} {view : FieldView} {list : List StructInstance}
    {index : Nat} {child : StructInstance}
    (h : inst.findChild step = .ok (view, list, index, child)) :
    inst.lookup step.field = .ok view ∧ view.state.contents = .children list ∧
      list[index]? = some child := by
  obtain ⟨hv, -, hrest⟩ := findChild_eq_ok_iff.1 h
  exact ⟨hv, hrest⟩

/-- A change at the end of a path keeps the whole instance typed, if it keeps what it changes
typed. -/
theorem typed_updateAt {α : Type} {change : StructInstance → Except AccessError (StructInstance × α)}
    (hc : ∀ before next answer, before.Typed → change before = .ok (next, answer) →
      next.Typed ∧ next.schema = before.schema)
    {path : List PathStep} {answer : α} (h : inst.Typed)
    (hu : updateAt change path inst = .ok (after, answer)) :
    after.Typed ∧ after.schema = inst.schema := by
  induction path generalizing inst after with
  | nil => exact hc inst after answer h hu
  | cons step rest ih =>
    rw [updateAt] at hu
    obtain ⟨⟨view, list, index, child⟩, hf, hu⟩ := bind_eq_ok_iff.1 hu
    obtain ⟨⟨changed, given⟩, hr, hu⟩ := bind_eq_ok_iff.1 hu
    obtain ⟨rfl, rfl⟩ := Prod.mk.inj (Except.ok.inj hu)
    obtain ⟨hv, hcontents, hchild⟩ := findChild_eq_ok hf
    refine ⟨h.setState hv ?_, rfl⟩
    have htyped := h.view hv
    obtain ⟨viewIndex, schema, ⟨contents, dirty, location, unit⟩⟩ := view
    obtain rfl : contents = .children list := hcontents
    rw [FieldState.Typed] at htyped
    obtain ⟨hl, inner, hk, hchildren⟩ := htyped
    obtain ⟨hschema, hchildTyped⟩ := hchildren.child hchild
    obtain ⟨hnext, hsame⟩ := ih hchildTyped hr
    dsimp only
    rw [FieldState.Typed]
    exact ⟨List.length_set.trans hl, inner, hk, hchildren.set index (hsame.trans hschema) hnext⟩

end StructInstance

/-! ## Any number of calls -/

/-- The instances to which accepted calls lead from a new one. Each call is made on the instance at
the end of a path. -/
inductive TypeSchema.Reaches (schema : TypeSchema) : StructInstance → Prop
  | new : Reaches schema schema.instantiate
  | call {α : Type} {change : StructInstance → Except AccessError (StructInstance × α)}
      {path : List PathStep} {before after : StructInstance} {answer : α}
      (h : Reaches schema before)
      (changes : ∀ inst next answer, change inst = .ok (next, answer) → inst.Changes next)
      (made : StructInstance.updateAt change path before = .ok (after, answer)) :
      Reaches schema after

theorem TypeSchema.Kinded.typed_of_reaches {schema : TypeSchema} (hk : schema.Kinded)
    {inst : StructInstance} (h : schema.Reaches inst) : inst.Typed ∧ inst.schema = schema := by
  induction h with
  | new => exact ⟨hk.typed_instantiate, schema.schema_instantiate⟩
  | call _ changes made ih =>
    obtain ⟨htyped, hschema⟩ := ih
    obtain ⟨hafter, hsame⟩ := StructInstance.typed_updateAt
      (fun inst next answer hi hc => (changes inst next answer hc).typed hi) htyped made
    exact ⟨hafter, hsame.trans hschema⟩

theorem TypeSchema.Reaches.typed {schema : TypeSchema} (hr : schema.Regular) {inst : StructInstance}
    (h : schema.Reaches inst) : inst.Typed ∧ inst.schema = schema :=
  hr.kinded.typed_of_reaches h

end UniformLayout
