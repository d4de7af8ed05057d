import UniformLayout.Proofs.Instance.Units

/-!
# Reaching leaves by their names

Accessors find a field by its name, and take the first of several fields with one name. So every field
is the one that its name finds if and only if the names differ. If they do on every level of nesting,
every leaf can be read and written: a path of names and indices leads to the instance that it belongs
to, and its own name to the leaf.

* `TypeSchema.found_iff`: fields and names.
* `descend_of_leaf`: the way to a leaf.

Main statement: `TypeSchema.FieldsApart.takes_leaf`.
-/

namespace UniformLayout

/-! ## Fields and their names -/

/-- The first field with a name is the only one if and only if names differ. -/
theorem findIdx?_name_iff {α : Type} {name : α → String} {list : List α} :
    (∀ (index : Nat) (a : α), list[index]? = some a →
      list.findIdx? (name · == name a) = some index) ↔ (list.map name).Nodup := by
  constructor
  · intro h
    refine List.nodup_iff_injective_getElem.2 fun ⟨i, hi⟩ ⟨j, hj⟩ he => ?_
    rw [List.length_map] at hi hj
    dsimp only at he
    rw [List.getElem_map, List.getElem_map] at he
    have hfirst := h i _ (List.getElem?_eq_getElem hi)
    rw [he, h j _ (List.getElem?_eq_getElem hj)] at hfirst
    exact Fin.ext (Option.some.inj hfirst).symm
  · intro hn index a ha
    obtain ⟨hlt, rfl⟩ := List.getElem?_eq_some_iff.1 ha
    refine List.findIdx?_eq_some_iff_getElem.2 ⟨hlt, beq_self_eq_true _, fun j hj he => ?_⟩
    have hsame : (list.map name)[j]? = (list.map name)[index]? := by
      rw [List.getElem?_map, List.getElem?_map, List.getElem?_eq_getElem (Nat.lt_trans hj hlt),
        List.getElem?_eq_getElem hlt, Option.map_some, Option.map_some, eq_of_beq he]
    have hj' : j < (list.map name).length := by
      rw [List.length_map]
      exact Nat.lt_trans hj hlt
    exact Nat.ne_of_lt hj ((List.getElem?_inj hj' hn).1 hsame)

/-- Every field of the schema is the one that look-up by its name finds, if and only if the names of
the fields differ. -/
theorem TypeSchema.found_iff (schema : TypeSchema) :
    (∀ (index : Nat) (field : FieldSchema), schema.fields[index]? = some field →
      schema.fieldIndex? field.name = some index) ↔
        (schema.fields.map FieldSchema.name).Nodup :=
  findIdx?_name_iff

/-- The names of the fields differ, on every level of nesting. -/
inductive TypeSchema.FieldsApart : TypeSchema → Prop
  | intro {schema : TypeSchema} (names : (schema.fields.map FieldSchema.name).Nodup)
      (nested : ∀ field ∈ schema.fields, ∀ inner, field.kind = .aggregate inner →
        inner.FieldsApart) : TypeSchema.FieldsApart schema

/-! ## Leaves -/

/-- How an accessor names an element of the field. -/
def FieldSchema.elementIndex (field : FieldSchema) (element : Nat) : Option Nat :=
  if field.isArray then some element else none

/-- The field holds values or handles. -/
def FieldSchema.IsLeaf (field : FieldSchema) : Prop := ∀ inner, field.kind ≠ .aggregate inner

/-- An element of a leaf field of the schema, or of a schema nested in it, and the steps from element
to element that lead there. -/
inductive TypeSchema.HasLeaf : TypeSchema → List PathStep → FieldSchema → Nat → Prop
  | own {schema : TypeSchema} {field : FieldSchema} {element : Nat} (mem : field ∈ schema.fields)
      (leaf : field.IsLeaf) (bound : element < field.length) : HasLeaf schema [] field element
  | nested {schema inner : TypeSchema} {field leaf : FieldSchema} {element position : Nat}
      {path : List PathStep} (mem : field ∈ schema.fields) (kind : field.kind = .aggregate inner)
      (bound : position < field.length) (below : HasLeaf inner path leaf element) :
      HasLeaf schema (⟨field.name, field.elementIndex position⟩ :: path) leaf element

theorem FieldSchema.position_elementIndex {field : FieldSchema} {element : Nat}
    (h : element < field.length) (wanted : String) :
    field.position (field.elementIndex element) wanted = .ok element := by
  unfold FieldSchema.position FieldSchema.elementIndex
  cases ha : field.isArray with
  | true =>
    simp only [if_true, FieldSchema.checkElement, ha, FieldSchema.checkBounds, h]
    rfl
  | false =>
    unfold FieldSchema.length at h
    unfold FieldSchema.isArray at ha
    rw [Option.isSome_eq_false_iff, Option.isNone_iff_eq_none] at ha
    rw [ha, Option.elim_none] at h
    obtain rfl : element = 0 := Nat.lt_one_iff.1 h
    rfl

theorem StatesTyped.length_eq {schemas : List FieldSchema} {states : List FieldState}
    (h : StatesTyped schemas states) : states.length = schemas.length := by
  induction schemas generalizing states with
  | nil =>
    cases states with
    | nil => rfl
    | cons state rest => simp [StatesTyped] at h
  | cons schema rest ih =>
    cases states with
    | nil => simp [StatesTyped] at h
    | cons state others =>
      rw [StatesTyped] at h
      rw [List.length_cons, List.length_cons, ih h.2]

namespace StructInstance

variable {inst child next after : StructInstance} {path : List PathStep}

/-- A field whose name is not that of another one is found. -/
theorem exists_lookup (ht : inst.Typed) (hn : (inst.schema.fields.map FieldSchema.name).Nodup)
    {field : FieldSchema} (hm : field ∈ inst.schema.fields) :
    ∃ index state, inst.lookup field.name = .ok ⟨index, field, state⟩ ∧
      inst.fields[index]? = some state ∧ state.Typed field := by
  obtain ⟨index, hs⟩ := List.getElem?_of_mem hm
  have htyped := typed_iff.1 ht
  have hlt : index < inst.fields.length := by
    rw [htyped.length_eq]
    exact (List.getElem?_eq_some_iff.1 hs).1
  have hstate := List.getElem?_eq_getElem hlt
  refine ⟨index, inst.fields[index], ?_, hstate, htyped.state hs hstate⟩
  unfold lookup
  rw [inst.schema.found_iff.2 hn index field hs]
  simp [hs, hstate]

theorem exists_child (ht : inst.Typed) (hn : (inst.schema.fields.map FieldSchema.name).Nodup)
    {field : FieldSchema} (hm : field ∈ inst.schema.fields) {inner : TypeSchema}
    (hk : field.kind = .aggregate inner) {position : Nat} (hlt : position < field.length) :
    ∃ view list nested, inst.findChild ⟨field.name, field.elementIndex position⟩ =
        .ok (view, list, position, nested) ∧ nested.schema = inner ∧ nested.Typed := by
  obtain ⟨index, ⟨contents, dirty, location, unit⟩, hv, -, htyped⟩ := exists_lookup ht hn hm
  obtain ⟨list, rfl, hl, hchildren⟩ := htyped.of_aggregate hk
  have hnested := List.getElem?_eq_getElem (hl.symm ▸ hlt : position < list.length)
  refine ⟨⟨index, field, ⟨.children list, dirty, location, unit⟩⟩, list, list[position], ?_,
    hchildren.child hnested⟩
  unfold findChild
  rw [hv]
  simp only [ok_bind, FieldSchema.position_elementIndex hlt, hnested]
  rfl

/-- The path to a leaf leads to its instance, and there its name to the leaf. -/
theorem descend_of_leaf {schema : TypeSchema} {leaf : FieldSchema} {element : Nat}
    (hn : schema.FieldsApart) (hl : schema.HasLeaf path leaf element) (ht : inst.Typed)
    (hs : inst.schema = schema) :
    ∃ child index state, inst.descend path = .ok child ∧
      child.lookup leaf.name = .ok ⟨index, leaf, state⟩ ∧ child.fields[index]? = some state ∧
      state.Typed leaf ∧ leaf.IsLeaf ∧ element < leaf.length := by
  induction hl generalizing inst with
  | own mem leaf bound =>
    obtain ⟨names, -⟩ := hn
    obtain ⟨index, state, hv, hstate, htyped⟩ := exists_lookup ht (hs ▸ names) (hs ▸ mem)
    exact ⟨inst, index, state, rfl, hv, hstate, htyped, leaf, bound⟩
  | nested mem kind bound _ ih =>
    obtain ⟨names, nested⟩ := hn
    obtain ⟨view, list, found, hfind, hschema, htyped⟩ :=
      exists_child ht (hs ▸ names) (hs ▸ mem) kind bound
    obtain ⟨child, index, state, hd, hrest⟩ := ih (nested _ mem _ kind) htyped hschema
    refine ⟨child, index, state, ?_, hrest⟩
    rw [descend, hfind]
    exact hd

/-! ## Writing where a path leads -/

theorem lookup_setState {name : String} {view : FieldView} (hv : inst.lookup name = .ok view)
    (state : FieldState) : (inst.setState view.index state).lookup name = .ok { view with state } := by
  obtain ⟨hi, hs, hstate⟩ := lookup_eq_ok hv
  have hlt := (List.getElem?_eq_some_iff.1 hstate).1
  unfold lookup setState
  dsimp only
  rw [hi]
  simp [hs, hlt]

theorem findChild_setState {step : PathStep} {view : FieldView} {list : List StructInstance}
    {index : Nat} (h : inst.findChild step = .ok (view, list, index, child)) :
    (inst.setState view.index { view.state with contents := .children (list.set index next) }).findChild
        step =
      .ok ({ view with state := { view.state with contents := .children (list.set index next) } },
        list.set index next, index, next) := by
  obtain ⟨hv, hp, -, hchild⟩ := findChild_eq_ok_iff.1 h
  have hlt := (List.getElem?_eq_some_iff.1 hchild).1
  exact findChild_eq_ok_iff.2 ⟨lookup_setState hv _, hp, rfl, List.getElem?_set_self hlt⟩

/-- A change that is accepted where the path leads is accepted at the end of the path, and the path
leads to what it makes. -/
theorem updateAt_of_descend {α : Type}
    (change : StructInstance → Except AccessError (StructInstance × α)) {answer : α}
    (hd : inst.descend path = .ok child) (hc : change child = .ok (next, answer)) :
    ∃ after, inst.updateAt change path = .ok (after, answer) ∧ after.descend path = .ok next := by
  induction path generalizing inst with
  | nil =>
    obtain rfl := Except.ok.inj hd
    exact ⟨next, hc, rfl⟩
  | cons step rest ih =>
    rw [descend] at hd
    obtain ⟨⟨view, list, index, nested⟩, hfind, hd⟩ := bind_eq_ok_iff.1 hd
    obtain ⟨after, hafter, hlead⟩ := ih hd
    refine ⟨_, by rw [updateAt, hfind]; simp only [ok_bind, hafter]; rfl, ?_⟩
    rw [descend, findChild_setState hfind]
    exact hlead

section

variable {leaf : FieldSchema} {index element : Nat} {state : FieldState}

theorem set_leaf (hv : child.lookup leaf.name = .ok ⟨index, leaf, state⟩) (ht : state.Typed leaf)
    (hlt : element < leaf.length) (hw : child.checkLocated ⟨index, leaf, state⟩ = .ok ())
    {value : UniformValue} (ha : accepts leaf value = true) :
    ∃ next, child.set leaf.name (leaf.elementIndex element) value = .ok next ∧
      next.get leaf.name (leaf.elementIndex element) = .ok value := by
  obtain ⟨contents, dirty, location, unit⟩ := state
  obtain ⟨list, rfl, hl, -⟩ := ht.of_value (kind_of_accepts ha)
  refine ⟨child.setState index
    { contents := .values (list.set element value), dirty := dirty.set element true, location, unit },
    ?_, ?_⟩
  · unfold set
    rw [hv]
    simp only [ok_bind, FieldSchema.position_elementIndex hlt, ha, Bool.not_true,
      Bool.false_eq_true, if_false, hw]
    rfl
  · unfold get
    rw [lookup_setState hv]
    simp only [ok_bind, FieldSchema.position_elementIndex hlt,
      List.getElem?_set_self (hl.symm ▸ hlt : element < list.length)]
    rfl

theorem setHandle_leaf (hv : child.lookup leaf.name = .ok ⟨index, leaf, state⟩)
    (ht : state.Typed leaf) (hlt : element < leaf.length)
    (hw : child.checkLocated ⟨index, leaf, state⟩ = .ok ()) {kind : HandleKind}
    (hk : leaf.kind = .handle kind) (handle : TextureHandle) (table : HandleTable) :
    ∃ next bound, child.setHandle leaf.name element handle table = .ok (next, bound) ∧
      next.handle leaf.name element = .ok (some handle) := by
  have hb : leaf.checkBounds element = .ok () := by
    unfold FieldSchema.checkBounds
    rw [if_pos hlt]
  obtain ⟨contents, dirty, location, unit⟩ := state
  obtain ⟨list, rfl, hl⟩ := ht.of_handle hk
  refine ⟨child.setState index
      { contents := .handles (list.set element (some handle)), dirty := dirty.set element true,
        location, unit },
    unit.elim table fun base => table.put (base + element) kind.target? handle, ?_, ?_⟩
  · unfold setHandle
    rw [hv]
    simp only [ok_bind, hk, hb, hw]
    cases unit <;> rfl
  · unfold StructInstance.handle
    rw [lookup_setState hv]
    simp only [ok_bind, hb, List.getElem?_set_self (hl.symm ▸ hlt : element < list.length)]
    rfl

end

/-- Through the path, and a call on its own name, the element of the leaf takes everything of its
type. What it took is read through the same path. -/
structure Takes (inst : StructInstance) (path : List PathStep) (leaf : FieldSchema) (element : Nat) :
    Prop where
  value : ∀ value, accepts leaf value = true → ∀ table, ∃ after,
    inst.updateAt ((InstanceCall.set leaf.name (leaf.elementIndex element) value).apply table) path =
        .ok (after, table) ∧
      (after.descend path >>= (·.get leaf.name (leaf.elementIndex element))) = .ok value
  handle : ∀ kind, leaf.kind = .handle kind → ∀ handle table, ∃ after bound,
    inst.updateAt ((InstanceCall.setHandle leaf.name element handle).apply table) path =
        .ok (after, bound) ∧
      (after.descend path >>= (·.handle leaf.name element)) = .ok (some handle)

theorem takes_leaf {leaf : FieldSchema} {index element : Nat} {state : FieldState}
    (hd : inst.descend path = .ok child) (hv : child.lookup leaf.name = .ok ⟨index, leaf, state⟩)
    (ht : state.Typed leaf) (hlt : element < leaf.length)
    (hw : child.checkLocated ⟨index, leaf, state⟩ = .ok ()) : inst.Takes path leaf element where
  value value ha table := by
    obtain ⟨next, hset, hget⟩ := set_leaf hv ht hlt hw ha
    have happly : (InstanceCall.set leaf.name (leaf.elementIndex element) value).apply table child =
        .ok (next, table) := by
      rw [InstanceCall.apply, hset]
      rfl
    obtain ⟨after, hafter, hlead⟩ := updateAt_of_descend (InstanceCall.apply table · _) hd happly
    exact ⟨after, hafter, bind_eq_ok_iff.2 ⟨next, hlead, hget⟩⟩
  handle kind hk handle table := by
    obtain ⟨next, bound, hset, hget⟩ := setHandle_leaf hv ht hlt hw hk handle table
    obtain ⟨after, hafter, hlead⟩ := updateAt_of_descend (·.setHandle leaf.name element handle table) hd hset
    exact ⟨after, bound, hafter, bind_eq_ok_iff.2 ⟨next, hlead, hget⟩⟩

end StructInstance

theorem TypeSchema.attached_instantiate (schema : TypeSchema) :
    schema.instantiate.attached = false := by
  cases schema
  rw [instantiate]

/-- **Leaves.** If names differ on every level, then every element of every leaf has a path to it,
whatever calls the instance has seen. It takes everything of its type, unless the instance at the end
of the path is attached and the leaf has no location there. -/
theorem TypeSchema.FieldsApart.takes_leaf {schema : TypeSchema} (hn : schema.FieldsApart)
    (hk : schema.Kinded) {inst : StructInstance} (hr : schema.Reaches inst) {path : List PathStep}
    {leaf : FieldSchema} {element : Nat} (hl : schema.HasLeaf path leaf element) :
    ∃ child view, inst.descend path = .ok child ∧ child.lookup leaf.name = .ok view ∧
      view.schema = leaf ∧ (child.checkLocated view = .ok () → inst.Takes path leaf element) := by
  obtain ⟨htyped, hschema⟩ := hk.typed_of_reaches hr
  obtain ⟨child, index, state, hd, hv, -, hstate, -, hlt⟩ :=
    StructInstance.descend_of_leaf hn hl htyped hschema
  exact ⟨child, ⟨index, leaf, state⟩, hd, hv, rfl, StructInstance.takes_leaf hd hv hstate hlt⟩

end UniformLayout
