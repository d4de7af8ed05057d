import UniformLayout.Proofs.Instance.Changes

/-!
# Leaves that wait for a location

A new instance has the locations that its schema gives to its leaves, and no others. Once it is attached,
a leaf that has a location takes everything of its type; one that has none refuses all writes until it is
located, whatever happens to other leaves in the meantime.

* `StructInstance.AsDeclared`: the locations of a new instance.
* `descend_map`: changes of all fields, seen from a path.
* `HasLocation.updateAt`, `HasLocation.run`: calls that spare a leaf leave its location alone.

Main statements: `HasLocation.takes`, `HasLocation.refuses` and `HasLocation.locate`.
-/

namespace UniformLayout

/-! ## The locations of a new instance -/

mutual

/-- Each leaf field, on every level, has the location that its schema gives it. -/
def StructInstance.AsDeclared : StructInstance → Prop
  | ⟨schema, fields, _⟩ => StatesAsDeclared schema.fields fields

def StatesAsDeclared : List FieldSchema → List FieldState → Prop
  | schema :: schemas, state :: states => state.AsDeclared schema ∧ StatesAsDeclared schemas states
  | _, _ => True

def FieldState.AsDeclared (schema : FieldSchema) : FieldState → Prop
  | ⟨.values _, _, location, _⟩ => location = schema.location
  | ⟨.handles _, _, location, _⟩ => location = schema.location
  | ⟨.children list, _, _, _⟩ => ChildrenAsDeclared list

def ChildrenAsDeclared : List StructInstance → Prop
  | [] => True
  | child :: rest => child.AsDeclared ∧ ChildrenAsDeclared rest

end

theorem childrenAsDeclared_iff {list : List StructInstance} :
    ChildrenAsDeclared list ↔ ∀ child ∈ list, child.AsDeclared := by
  induction list with
  | nil => simp [ChildrenAsDeclared]
  | cons child rest ih => rw [ChildrenAsDeclared, ih, List.forall_mem_cons]

theorem StatesAsDeclared.state {schemas : List FieldSchema} {states : List FieldState}
    (h : StatesAsDeclared schemas states) {index : Nat} {schema : FieldSchema} {state : FieldState}
    (hs : schemas[index]? = some schema) (ht : states[index]? = some state) :
    state.AsDeclared schema := by
  induction states generalizing schemas index with
  | nil => cases ht
  | cons first rest ih =>
    cases schemas with
    | nil => cases hs
    | cons own others =>
      rw [StatesAsDeclared] at h
      cases index with
      | zero =>
        obtain rfl := Option.some.inj hs
        obtain rfl := Option.some.inj ht
        exact h.1
      | succ index => exact ih h.2 hs ht

mutual

/-- Handing out texture units leaves locations alone. -/
theorem StructInstance.asDeclared_assignUnits (next : Nat) : ∀ inst : StructInstance,
    inst.AsDeclared → (inst.assignUnits next).1.AsDeclared
  | ⟨schema, fields, attached⟩, h => by
    rw [StructInstance.AsDeclared] at h
    rw [StructInstance.assignUnits, StructInstance.AsDeclared]
    exact statesAsDeclared_assignFieldUnits next schema.fields fields h

theorem statesAsDeclared_assignFieldUnits (next : Nat) : ∀ (schemas : List FieldSchema)
    (states : List FieldState), StatesAsDeclared schemas states →
    StatesAsDeclared schemas (assignFieldUnits next schemas states).1
  | schema :: schemas, state :: states, h => by
    rw [StatesAsDeclared] at h
    rw [assignFieldUnits, StatesAsDeclared]
    exact ⟨state.asDeclared_assignUnits next schema h.1,
      statesAsDeclared_assignFieldUnits _ schemas states h.2⟩
  | [], _, _ => by simp [assignFieldUnits, StatesAsDeclared]
  | _ :: _, [], _ => by simp [assignFieldUnits, StatesAsDeclared]

theorem FieldState.asDeclared_assignUnits (next : Nat) (schema : FieldSchema) :
    ∀ state : FieldState, state.AsDeclared schema → (state.assignUnits next schema).1.AsDeclared schema
  | ⟨.children list, dirty, location, unit⟩, h => by
    rw [FieldState.AsDeclared] at h
    rw [FieldState.assignUnits, FieldState.AsDeclared]
    exact childrenAsDeclared_assignChildUnits next list h
  | ⟨.values list, dirty, location, unit⟩, h => by rwa [FieldState.assignUnits]
  | ⟨.handles list, dirty, location, unit⟩, h => by
    rw [FieldState.AsDeclared] at h
    rw [FieldState.assignUnits]
    split
    · rwa [FieldState.AsDeclared]
    · rwa [FieldState.AsDeclared]

theorem childrenAsDeclared_assignChildUnits (next : Nat) : ∀ list : List StructInstance,
    ChildrenAsDeclared list → ChildrenAsDeclared (assignChildUnits next list).1
  | [], _ => by simp [assignChildUnits, ChildrenAsDeclared]
  | child :: rest, h => by
    rw [ChildrenAsDeclared] at h
    rw [assignChildUnits, ChildrenAsDeclared]
    exact ⟨child.asDeclared_assignUnits next h.1, childrenAsDeclared_assignChildUnits _ rest h.2⟩

end

mutual

theorem TypeSchema.asDeclared_instantiate : ∀ schema : TypeSchema, schema.instantiate.AsDeclared
  | ⟨_, _, _, _, fields⟩ => by
    rw [TypeSchema.instantiate, StructInstance.AsDeclared]
    exact statesAsDeclared_initialStates fields

theorem statesAsDeclared_initialStates : ∀ fields : List FieldSchema,
    StatesAsDeclared fields (initialStates fields)
  | [] => by simp [StatesAsDeclared]
  | field :: rest => by
    rw [initialStates, StatesAsDeclared]
    exact ⟨field.asDeclared_initialState, statesAsDeclared_initialStates rest⟩

theorem FieldSchema.asDeclared_initialState : ∀ field : FieldSchema,
    field.initialState.AsDeclared field
  | ⟨_, _, .value type, _, _, _, _, _⟩ => by
    rw [FieldSchema.initialState]
    simp only [FieldKind.initialContents]
    split
    · rw [FieldState.AsDeclared]
    · rw [FieldState.AsDeclared]
  | ⟨_, _, .handle handle, _, _, _, _, _⟩ => by
    rw [FieldSchema.initialState]
    simp only [FieldKind.initialContents]
    rw [FieldState.AsDeclared]
  | ⟨_, _, .aggregate inner, _, _, array, _, unit⟩ => by
    have hchildren : ChildrenAsDeclared
        (List.replicate (array.elim 1 ArrayLayout.length) inner.instantiate) := by
      refine childrenAsDeclared_iff.2 fun child hm => ?_
      rw [List.eq_of_mem_replicate hm]
      exact inner.asDeclared_instantiate
    rw [FieldSchema.initialState]
    simp only [FieldKind.initialContents]
    split
    · rw [FieldState.AsDeclared]
      exact childrenAsDeclared_assignChildUnits _ _ hchildren
    · rw [FieldState.AsDeclared]
      exact hchildren

end

theorem FieldState.AsDeclared.location_eq {schema : FieldSchema} {state : FieldState}
    (h : state.AsDeclared schema) (hleaf : state.children? = none) :
    state.location = schema.location := by
  obtain ⟨contents, dirty, location, unit⟩ := state
  cases contents with
  | children list => cases hleaf
  | values list | handles list => rwa [FieldState.AsDeclared] at h

theorem FieldState.location_attach (state : FieldState) : state.attach.location = state.location := by
  obtain ⟨contents, dirty, location, unit⟩ := state
  cases contents with
  | values list | handles list | children list => rw [FieldState.attach]

/-- There is one way to name an element of a field. -/
theorem FieldSchema.element_eq {field : FieldSchema} {element : Option Nat} {wanted : String}
    {index : Nat} (h : field.position element wanted = .ok index) :
    element = field.elementIndex index := by
  obtain ⟨rfl, -⟩ := FieldSchema.position_eq_ok h
  unfold FieldSchema.position FieldSchema.checkElement at h
  unfold FieldSchema.elementIndex
  cases element with
  | none =>
    cases ha : field.isArray with
    | true => simp [ha] at h
    | false => rfl
  | some given =>
    cases ha : field.isArray with
    | true => rfl
    | false => simp [ha] at h

namespace StructInstance

variable {inst child next after : StructInstance} {path : List PathStep} {step : PathStep}
  {view : FieldView} {list : List StructInstance} {index : Nat}

/-! ## Steps -/

theorem AsDeclared.descend (h : inst.AsDeclared) (hd : inst.descend path = .ok child) :
    child.AsDeclared := by
  induction path generalizing inst with
  | nil =>
    obtain rfl := Except.ok.inj hd
    exact h
  | cons step rest ih =>
    rw [StructInstance.descend] at hd
    obtain ⟨⟨view, list, index, held⟩, hfind, hd⟩ := bind_eq_ok_iff.1 hd
    obtain ⟨hv, -, hcontents, hheld⟩ := findChild_eq_ok_iff.1 hfind
    obtain ⟨-, hfield, hstate⟩ := lookup_eq_ok hv
    refine ih ?_ hd
    obtain ⟨schema, fields, attached⟩ := inst
    rw [AsDeclared] at h
    have hown := h.state hfield hstate
    obtain ⟨viewIndex, own, ⟨contents, dirty, location, unit⟩⟩ := view
    obtain rfl : contents = .children list := hcontents
    rw [FieldState.AsDeclared] at hown
    exact childrenAsDeclared_iff.1 hown held (List.mem_of_getElem? hheld)

/-- Two names find the field at one position only if they are the same. -/
theorem lookup_inj {name other : String} {found : FieldView} (hv : inst.lookup name = .ok view)
    (hw : inst.lookup other = .ok found) (hi : found.index = view.index) :
    other = name ∧ found = view := by
  obtain ⟨-, hs, ht⟩ := lookup_eq_ok hv
  obtain ⟨-, hs', ht'⟩ := lookup_eq_ok hw
  have hname := name_of_lookup hv
  have hother := name_of_lookup hw
  obtain ⟨index, schema, state⟩ := view
  obtain ⟨index', schema', state'⟩ := found
  obtain rfl : index' = index := hi
  obtain rfl : schema = schema' := Option.some.inj (hs.symm.trans hs')
  obtain rfl : state = state' := Option.some.inj (ht.symm.trans ht')
  exact ⟨hother.symm.trans hname, rfl⟩

/-- Two steps lead to one place only if they are the same. -/
theorem findChild_inj {other : PathStep} {found : FieldView} {others : List StructInstance}
    {held : StructInstance} (h : inst.findChild step = .ok (view, list, index, child))
    (k : inst.findChild other = .ok (found, others, index, held)) (hi : found.index = view.index) :
    other = step := by
  obtain ⟨hv, hp, -, -⟩ := findChild_eq_ok_iff.1 h
  obtain ⟨hw, hp', -, -⟩ := findChild_eq_ok_iff.1 k
  obtain ⟨hfield, rfl⟩ := lookup_inj hv hw hi
  have helement : other.element = step.element :=
    (FieldSchema.element_eq hp').trans (FieldSchema.element_eq hp).symm
  cases step
  cases other
  exact congr (congrArg PathStep.mk hfield) helement

theorem lookup_setState_of_ne {name : String} {position : Nat} (hv : inst.lookup name = .ok view)
    (hne : view.index ≠ position) (state : FieldState) :
    (inst.setState position state).lookup name = .ok view := by
  obtain ⟨hi, hs, ht⟩ := lookup_eq_ok hv
  unfold lookup setState
  dsimp only
  rw [hi]
  simp [hs, ht, List.getElem?_set_ne (Ne.symm hne)]

theorem findChild_setState_of_ne {position : Nat}
    (h : inst.findChild step = .ok (view, list, index, child)) (hne : view.index ≠ position)
    (state : FieldState) :
    (inst.setState position state).findChild step = .ok (view, list, index, child) := by
  obtain ⟨hv, hrest⟩ := findChild_eq_ok_iff.1 h
  exact findChild_eq_ok_iff.2 ⟨lookup_setState_of_ne hv hne state, hrest⟩

/-- A step leads where it did after the instance in another place has changed. -/
theorem findChild_setChild_of_ne {other : PathStep} {found : FieldView}
    {others : List StructInstance} {position : Nat} {held : StructInstance}
    (h : inst.findChild step = .ok (view, list, index, child))
    (k : inst.findChild other = .ok (found, others, position, held))
    (hne : (found.index, position) ≠ (view.index, index)) (next : StructInstance) :
    ∃ view list, (inst.setChild found others position next).findChild step =
      .ok (view, list, index, child) := by
  unfold setChild
  by_cases hi : found.index = view.index
  · obtain ⟨hv, hp, hcontents, hchild⟩ := findChild_eq_ok_iff.1 h
    obtain ⟨hw, -, hcontents', -⟩ := findChild_eq_ok_iff.1 k
    obtain ⟨-, rfl⟩ := lookup_inj hv hw hi
    obtain rfl := FieldContents.children.inj (hcontents.symm.trans hcontents')
    have hposition : position ≠ index := fun he => hne (Prod.ext rfl he)
    refine ⟨_, _, findChild_eq_ok_iff.2 ⟨lookup_setState hv _, hp, rfl, ?_⟩⟩
    rw [List.getElem?_set_ne hposition]
    exact hchild
  · exact ⟨view, list, findChild_setState_of_ne h (Ne.symm hi) _⟩

/-! ## Changes of all fields -/

section

variable {whole : StructInstance → StructInstance} {each : FieldState → FieldState}

theorem lookup_map (h : Everywhere whole each) {name : String} (hv : inst.lookup name = .ok view) :
    (whole inst).lookup name = .ok { view with state := each view.state } := by
  obtain ⟨hi, hs, ht⟩ := lookup_eq_ok hv
  unfold lookup
  rw [h.schema_eq, h.fields_eq, hi]
  simp [hs, ht]

theorem findChild_map (h : Everywhere whole each)
    (hf : inst.findChild step = .ok (view, list, index, child)) :
    (whole inst).findChild step =
      .ok ({ view with state := each view.state }, list.map whole, index, whole child) := by
  obtain ⟨hv, hp, hcontents, hchild⟩ := findChild_eq_ok_iff.1 hf
  have hchildren : (each view.state).children? = some (list.map whole) := by
    rw [h.children?_eq, FieldState.children?_eq_some.2 hcontents]
    rfl
  refine findChild_eq_ok_iff.2 ⟨lookup_map h hv, hp, FieldState.children?_eq_some.1 hchildren, ?_⟩
  rw [List.getElem?_map, hchild]
  rfl

/-- A path leads to what the change makes of the instance at its end. -/
theorem descend_map (h : Everywhere whole each) (hd : inst.descend path = .ok child) :
    (whole inst).descend path = .ok (whole child) := by
  induction path generalizing inst with
  | nil =>
    obtain rfl := Except.ok.inj hd
    rfl
  | cons step rest ih =>
    rw [descend] at hd ⊢
    obtain ⟨⟨view, list, index, held⟩, hf, hd⟩ := bind_eq_ok_iff.1 hd
    rw [findChild_map h hf]
    exact ih hd

end

/-! ## The location of one leaf -/

theorem attached_attach (inst : StructInstance) : inst.attach.attached = true := by
  cases inst
  rw [attach]

/-- In the instance at the end of the path, which is attached, the leaf field with the name has the
location. -/
def HasLocation (inst : StructInstance) (path : List PathStep) (name : String) (location : Option Nat) :
    Prop :=
  ∃ child view, inst.descend path = .ok child ∧ child.attached = true ∧
    child.lookup name = .ok view ∧ view.state.children? = none ∧ view.state.location = location

section

variable {name : String} {location : Option Nat}

theorem hasLocation_nil : inst.HasLocation [] name location ↔ inst.attached = true ∧ ∃ view,
    inst.lookup name = .ok view ∧ view.state.children? = none ∧ view.state.location = location := by
  constructor
  · rintro ⟨child, view, hd, hattached, hrest⟩
    obtain rfl := Except.ok.inj hd
    exact ⟨hattached, view, hrest⟩
  · rintro ⟨hattached, view, hrest⟩
    exact ⟨inst, view, rfl, hattached, hrest⟩

theorem hasLocation_cons : inst.HasLocation (step :: path) name location ↔ ∃ view list index held,
    inst.findChild step = .ok (view, list, index, held) ∧ held.HasLocation path name location := by
  constructor
  · rintro ⟨child, own, hd, hrest⟩
    rw [descend] at hd
    obtain ⟨⟨view, list, index, held⟩, hf, hd⟩ := bind_eq_ok_iff.1 hd
    exact ⟨view, list, index, held, hf, child, own, hd, hrest⟩
  · rintro ⟨view, list, index, held, hf, child, own, hd, hrest⟩
    refine ⟨child, own, ?_, hrest⟩
    rw [descend, hf]
    exact hd

theorem HasLocation.map {whole : StructInstance → StructInstance} {each : FieldState → FieldState}
    (hh : inst.HasLocation path name location) (h : Everywhere whole each)
    (ha : ∀ inst, inst.attached = true → (whole inst).attached = true)
    (hl : ∀ state, (each state).location = state.location) :
    (whole inst).HasLocation path name location := by
  obtain ⟨child, view, hd, hattached, hv, hleaf, hlocation⟩ := hh
  refine ⟨whole child, _, descend_map h hd, ha child hattached, lookup_map h hv, ?_,
    (hl view.state).trans hlocation⟩
  rw [h.children?_eq, hleaf]
  rfl

theorem HasLocation.attach (hh : inst.HasLocation path name location) :
    inst.attach.HasLocation path name location :=
  hh.map everywhere_attach (fun inst _ => attached_attach inst) FieldState.location_attach

theorem HasLocation.setClean (hh : inst.HasLocation path name location) :
    inst.setClean.HasLocation path name location := by
  refine hh.map everywhere_setClean (fun inst ha => ?_) fun state => ?_
  · cases inst
    rwa [StructInstance.setClean]
  · obtain ⟨contents, dirty, own, unit⟩ := state
    cases contents with
    | values list | handles list | children list => rw [FieldState.setClean]

/-- A leaf keeps its location when the state of a leaf field of the instance itself changes. If it is
this field, the change is not of its location. -/
theorem HasLocation.setState (hh : inst.HasLocation path name location) {other : String}
    (hv : inst.lookup other = .ok view) (hleaf : view.state.children? = none) {state : FieldState}
    (hstays : state.children? = none)
    (hl : ([], other) ≠ (path, name) ∨ state.location = view.state.location) :
    (inst.setState view.index state).HasLocation path name location := by
  cases path with
  | nil =>
    obtain ⟨hattached, own, hown, hnone, hlocation⟩ := hasLocation_nil.1 hh
    refine hasLocation_nil.2 ⟨hattached, ?_⟩
    by_cases hi : own.index = view.index
    · obtain ⟨rfl, rfl⟩ := lookup_inj hv hown hi
      refine ⟨_, lookup_setState hv state, hstays, ?_⟩
      rw [← hlocation]
      exact hl.resolve_left fun hne => hne rfl
    · exact ⟨own, lookup_setState_of_ne hown hi state, hnone, hlocation⟩
  | cons step rest =>
    obtain ⟨own, list, index, held, hf, hh⟩ := hasLocation_cons.1 hh
    have hi : own.index ≠ view.index := by
      intro hi
      obtain ⟨how, -, hcontents, -⟩ := findChild_eq_ok_iff.1 hf
      obtain ⟨-, rfl⟩ := lookup_inj hv how hi
      rw [FieldState.children?_eq_some.2 hcontents] at hleaf
      cases hleaf
    exact hasLocation_cons.2 ⟨own, list, index, held, findChild_setState_of_ne hf hi state, hh⟩

/-! ## Calls -/

theorem HasLocation.set (hh : inst.HasLocation path name location) (ht : inst.Typed) {other : String}
    {element : Option Nat} {value : UniformValue} (h : inst.set other element value = .ok after) :
    after.HasLocation path name location := by
  obtain ⟨view, list, hs⟩ := ht.of_set h
  obtain rfl := hs.becomes
  have hleaf := (ht.view hs.lookup).children?_eq_none fun inner hk => by cases hk.symm.trans hs.kind
  exact hh.setState hs.lookup hleaf rfl (.inr rfl)

theorem HasLocation.setHandle (hh : inst.HasLocation path name location) (ht : inst.Typed) {other : String}
    {element : Nat} {handle : TextureHandle} {table bound : HandleTable}
    (h : inst.setHandle other element handle table = .ok (after, bound)) :
    after.HasLocation path name location := by
  obtain ⟨view, kind, list, hs, -⟩ := ht.of_setHandle h
  obtain rfl := hs.becomes
  have hleaf := (ht.view hs.lookup).children?_eq_none fun inner hk => by cases hk.symm.trans hs.kind
  exact hh.setState hs.lookup hleaf rfl (.inr rfl)

theorem HasLocation.locateOther (hh : inst.HasLocation path name location) (ht : inst.Typed) {other : String}
    {given : Nat} (h : inst.locate other given = .ok after) (hne : ([], other) ≠ (path, name)) :
    after.HasLocation path name location := by
  obtain ⟨view, hv, hk, rfl⟩ := locate_eq_ok h
  have hleaf := (ht.view hv).children?_eq_none hk
  exact hh.setState hv hleaf (FieldState.children?_located hleaf _) (.inl hne)

end

end StructInstance

/-- The call at the end of its path gives no location to the leaf with the name at the end of the other
path. -/
def SiteCall.Spares (path : List PathStep) (name : String) : List PathStep × SiteCall → Prop
  | (steps, .on (.locate other _)) => (steps, other) ≠ (path, name)
  | (steps, .locateAtOffsets) => ¬ steps <+: path
  | _ => True

theorem SiteCall.Spares.tail {step : PathStep} {path steps : List PathStep} {name : String}
    {call : SiteCall} (h : Spares (step :: path) name (step :: steps, call)) :
    Spares path name (steps, call) := by
  cases call with
  | on call =>
    cases call with
    | set other element value | setHandle other element handle | attach => trivial
    | locate other location =>
      intro he
      obtain ⟨rfl, rfl⟩ := Prod.mk.inj he
      exact h rfl
  | locateAtOffsets => exact fun hp => h (List.cons_prefix_cons.2 ⟨rfl, hp⟩)
  | setClean => trivial

namespace StructInstance

variable {inst child next after : StructInstance} {path steps : List PathStep} {name : String}
  {location : Option Nat} {notices : List HandleNotice}

theorem HasLocation.answer (hh : inst.HasLocation path name location) (ht : inst.Typed) {call : SiteCall}
    (hs : SiteCall.Spares path name ([], call)) (ha : call.answer inst = .ok (next, notices)) :
    next.HasLocation path name location := by
  cases call with
  | on call =>
    cases call with
    | set other element value =>
      obtain ⟨made, h, he⟩ := map_eq_ok_iff.1 ha
      obtain ⟨rfl, -⟩ := Prod.mk.inj he
      exact hh.set ht h
    | setHandle other element handle =>
      obtain ⟨⟨made, table⟩, h, he⟩ := map_eq_ok_iff.1 ha
      obtain ⟨rfl, -⟩ := Prod.mk.inj he
      exact hh.setHandle ht h
    | locate other given =>
      obtain ⟨made, h, he⟩ := map_eq_ok_iff.1 ha
      obtain ⟨rfl, -⟩ := Prod.mk.inj he
      exact hh.locateOther ht h hs
    | attach =>
      obtain ⟨rfl, -⟩ := Prod.mk.inj (Except.ok.inj ha)
      exact hh.attach
  | locateAtOffsets => exact absurd List.nil_prefix hs
  | setClean =>
    obtain ⟨rfl, -⟩ := Prod.mk.inj (Except.ok.inj ha)
    exact hh.setClean

/-- The induction is on the path of the call. It either goes on along the path to the leaf, or leads
to another place. -/
theorem HasLocation.updateAt (hh : inst.HasLocation path name location) (ht : inst.Typed) {call : SiteCall}
    (hs : SiteCall.Spares path name (steps, call))
    (hu : inst.updateAt (fun inst => call.answer inst) steps = .ok (after, notices)) :
    after.HasLocation path name location := by
  induction steps generalizing inst path after with
  | nil => exact hh.answer ht hs hu
  | cons other rest ih =>
    rw [StructInstance.updateAt] at hu
    obtain ⟨⟨found, others, position, moved⟩, hk, hu⟩ := bind_eq_ok_iff.1 hu
    obtain ⟨⟨made, given⟩, hr, hu⟩ := bind_eq_ok_iff.1 hu
    obtain ⟨rfl, rfl⟩ := Prod.mk.inj (Except.ok.inj hu)
    cases path with
    | nil =>
      obtain ⟨hattached, own, hown, hnone, hlocation⟩ := hasLocation_nil.1 hh
      have hi : own.index ≠ found.index := by
        intro hi
        obtain ⟨hw, -, hcontents, -⟩ := findChild_eq_ok_iff.1 hk
        obtain ⟨-, rfl⟩ := lookup_inj hw hown hi
        rw [FieldState.children?_eq_some.2 hcontents] at hnone
        cases hnone
      exact hasLocation_nil.2 ⟨hattached, own, lookup_setState_of_ne hown hi _, hnone, hlocation⟩
    | cons step tail =>
      obtain ⟨view, list, index, held, hf, hh⟩ := hasLocation_cons.1 hh
      by_cases hp : (found.index, position) = (view.index, index)
      · obtain ⟨hi, rfl⟩ := Prod.mk.inj hp
        obtain rfl := findChild_inj hf hk hi
        cases hk.symm.trans hf
        exact hasLocation_cons.2 ⟨_, _, _, made, findChild_setState hf, ih hh (ht.held hf) hs.tail hr⟩
      · obtain ⟨view, list, hf⟩ := findChild_setChild_of_ne hf hk hp made
        exact hasLocation_cons.2 ⟨view, list, index, held, hf, hh⟩

/-- A leaf keeps its location in any calls that spare it. -/
theorem HasLocation.run {schema : TypeSchema} {site : Site} (hh : site.inst.HasLocation path name location)
    (h : site.Sound schema) {calls : List (List PathStep × SiteCall)}
    (hs : ∀ call ∈ calls, SiteCall.Spares path name call) :
    (site.run calls).inst.HasLocation path name location := by
  unfold Site.run
  induction calls generalizing site with
  | nil => exact hh
  | cons call rest ih =>
    obtain ⟨hcall, hrest⟩ := List.forall_mem_cons.1 hs
    refine ih ?_ (h.perform call) hrest
    obtain ⟨steps, call⟩ := call
    unfold Site.perform
    dsimp only
    rw [call.does.along steps site]
    cases hu : site.inst.updateAt (fun inst => call.answer inst) steps with
    | error e => exact hh
    | ok made => exact hh.updateAt h.typed hcall hu

/-! ## Writes -/

variable {schema : TypeSchema} {leaf : FieldSchema} {element : Nat}

/-- Through the path, every write to the element is refused for want of a location. -/
structure Refuses (inst : StructInstance) (path : List PathStep) (leaf : FieldSchema)
    (element : Nat) : Prop where
  value : ∀ value, accepts leaf value = true → ∀ table,
    inst.updateAt ((InstanceCall.set leaf.name (leaf.elementIndex element) value).apply table) path =
      .error (.unlocatedField leaf.name)
  handle : ∀ kind, leaf.kind = .handle kind → ∀ handle table,
    inst.updateAt ((InstanceCall.setHandle leaf.name element handle).apply table) path =
      .error (.unlocatedField leaf.name)

theorem updateAt_eq_error {α : Type}
    {change : StructInstance → Except AccessError (StructInstance × α)} {e : AccessError}
    (hd : inst.descend path = .ok child) (hc : change child = .error e) :
    inst.updateAt change path = .error e := by
  induction path generalizing inst with
  | nil =>
    obtain rfl := Except.ok.inj hd
    exact hc
  | cons step rest ih =>
    rw [descend] at hd
    obtain ⟨⟨view, list, index, held⟩, hf, hd⟩ := bind_eq_ok_iff.1 hd
    rw [StructInstance.updateAt, hf, ok_bind]
    dsimp only
    rw [ih hd]
    rfl

/-- What is known of the leaf at the end of a path. -/
theorem HasLocation.found (hh : inst.HasLocation path leaf.name location) (hn : schema.FieldsApart)
    (hl : schema.HasLeaf path leaf element) (ht : inst.Typed) (hs : inst.schema = schema) :
    ∃ child index state, inst.descend path = .ok child ∧ child.attached = true ∧
      child.lookup leaf.name = .ok ⟨index, leaf, state⟩ ∧ state.location = location ∧
      state.Typed leaf ∧ leaf.IsLeaf ∧ element < leaf.length := by
  obtain ⟨found, index, state, hd, hv, -, hstate, hleaf, hlt⟩ := descend_of_leaf hn hl ht hs
  obtain ⟨child, view, hd', hattached, hv', -, hlocation⟩ := hh
  obtain rfl := Except.ok.inj (hd.symm.trans hd')
  obtain rfl := Except.ok.inj (hv.symm.trans hv')
  exact ⟨_, index, state, hd, hattached, hv, hlocation, hstate, hleaf, hlt⟩

/-- A leaf that has a location takes everything of its type. -/
theorem HasLocation.takes {place : Nat} (hh : inst.HasLocation path leaf.name (some place))
    (hn : schema.FieldsApart) (hl : schema.HasLeaf path leaf element) (ht : inst.Typed)
    (hs : inst.schema = schema) : inst.Takes path leaf element := by
  obtain ⟨child, index, state, hd, -, hv, hlocation, hstate, -, hlt⟩ := hh.found hn hl ht hs
  refine takes_leaf hd hv hstate hlt ?_
  unfold checkLocated
  rw [hlocation]
  simp

/-- A leaf that has no location refuses all writes. -/
theorem HasLocation.refuses (hh : inst.HasLocation path leaf.name none) (hn : schema.FieldsApart)
    (hl : schema.HasLeaf path leaf element) (ht : inst.Typed) (hs : inst.schema = schema) :
    inst.Refuses path leaf element := by
  obtain ⟨child, index, state, hd, hattached, hv, hlocation, -, -, hlt⟩ := hh.found hn hl ht hs
  have hcheck : child.checkLocated ⟨index, leaf, state⟩ = .error (.unlocatedField leaf.name) := by
    unfold checkLocated
    rw [hattached, hlocation]
    rfl
  refine ⟨fun value ha table => updateAt_eq_error hd ?_, fun kind hk handle table =>
    updateAt_eq_error hd ?_⟩
  · rw [InstanceCall.apply, StructInstance.set, hv]
    simp only [ok_bind, FieldSchema.position_elementIndex hlt, ha, Bool.not_true,
      Bool.false_eq_true, if_false, hcheck]
    rfl
  · have hb : leaf.checkBounds element = .ok () := by
      unfold FieldSchema.checkBounds
      rw [if_pos hlt]
    rw [InstanceCall.apply, StructInstance.setHandle, hv]
    simp only [ok_bind, hk, hb, hcheck]
    rfl

/-- A leaf can be located, and takes everything of its type from then on. -/
theorem HasLocation.locate (hh : inst.HasLocation path leaf.name location) (hn : schema.FieldsApart)
    (hl : schema.HasLeaf path leaf element) (ht : inst.Typed) (hs : inst.schema = schema)
    (place : Nat) (table : HandleTable) :
    ∃ after, inst.updateAt ((InstanceCall.locate leaf.name place).apply table) path =
      .ok (after, table) ∧ after.HasLocation path leaf.name (some place) := by
  obtain ⟨child, index, state, hd, hattached, hv, -, hstate, hleaf, -⟩ := hh.found hn hl ht hs
  have hlocate : child.locate leaf.name place =
      .ok (child.setState index { state with location := some place }) := by
    unfold StructInstance.locate
    rw [hv, ok_bind]
    dsimp only
    split
    · rename_i inner hk
      exact absurd hk (hleaf inner)
    · rfl
  have happly : (InstanceCall.locate leaf.name place).apply table child =
      .ok (child.setState index { state with location := some place }, table) := by
    rw [InstanceCall.apply, hlocate]
    rfl
  obtain ⟨after, hafter, hlead⟩ := updateAt_of_descend (InstanceCall.apply table · _) hd happly
  exact ⟨after, hafter, _, _, hlead, hattached, lookup_setState hv _,
    FieldState.children?_located (hstate.children?_eq_none hleaf) _, rfl⟩

end StructInstance

/-- In a new instance that is attached, every leaf has the location that its schema gives it. -/
theorem TypeSchema.FieldsApart.hasLocation {schema : TypeSchema} (hn : schema.FieldsApart)
    (hk : schema.Kinded) {path : List PathStep} {leaf : FieldSchema} {element : Nat}
    (hl : schema.HasLeaf path leaf element) :
    schema.instantiate.attach.HasLocation path leaf.name leaf.location := by
  obtain ⟨child, index, state, hd, hv, hown, hstate, hleaf, -⟩ :=
    StructInstance.descend_of_leaf hn hl hk.typed_instantiate schema.schema_instantiate
  have hdeclared := schema.asDeclared_instantiate.descend hd
  have hfield : state.AsDeclared leaf := by
    obtain ⟨childSchema, fields, attached⟩ := child
    rw [StructInstance.AsDeclared] at hdeclared
    exact hdeclared.state (StructInstance.lookup_eq_ok hv).2.1 hown
  have hnone := hstate.children?_eq_none hleaf
  refine ⟨child.attach, _, StructInstance.descend_map StructInstance.everywhere_attach hd,
    child.attached_attach, StructInstance.lookup_map StructInstance.everywhere_attach hv, ?_, ?_⟩
  · rw [StructInstance.everywhere_attach.children?_eq, hnone]
    rfl
  · exact state.location_attach.trans (hfield.location_eq hnone)

/-- Calls that spare the leaf leave it there. -/
theorem TypeSchema.FieldsApart.hasLocation_run {schema : TypeSchema} (hn : schema.FieldsApart)
    (hk : schema.Kinded) {path : List PathStep} {leaf : FieldSchema} {element : Nat}
    (hl : schema.HasLeaf path leaf element) {calls : List (List PathStep × SiteCall)}
    (hs : ∀ call ∈ calls, SiteCall.Spares path leaf.name call) :
    ∃ site, Site.run ⟨schema.instantiate.attach, []⟩ calls = site ∧ site.Sound schema ∧
      site.inst.HasLocation path leaf.name leaf.location := by
  have hstart : (⟨schema.instantiate.attach, []⟩ : Site).Sound schema :=
    (Site.sound_new hk).run [([], .on .attach)]
  exact ⟨_, rfl, hstart.run calls, (hn.hasLocation hk hl).run hstart hs⟩

end UniformLayout
