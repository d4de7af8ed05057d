import UniformLayout.Proofs.Instance.Writes

/-!
# Sockets

A socket is a place for a handle in an instance, with its texture unit. The sockets stand in
declaration order, on all levels of nesting, and a call stores at most one handle: in the socket that
its path and its names lead to, and in the table at the unit of this socket (`Stores`). The sockets of
a new set of free uniforms have the units of its leaves.

* `InstanceCall.stores`, `stores_updateAt`: one call, on an instance itself and at the end of a path.
* `StructInstance.socket_of_handle`: what the accessors of handles and units read.
* `StructInstance.numbered_assignUnits`: what handing out units does.

Main statements: `stores_updateAt` and `numbered_instantiate`.
-/

namespace UniformLayout

/-- A place for a handle: its unit and target, and what is stored there. -/
structure Socket where
  unit : Option Nat
  target : Option TextureTarget
  handle : Option TextureHandle

/-- Binds a handle to the unit of the socket. -/
def Socket.bind (socket : Socket) (table : HandleTable) (handle : TextureHandle) : HandleTable :=
  socket.unit.elim table fun unit => table.put unit socket.target handle

def FieldKind.target? : FieldKind → Option TextureTarget
  | .handle kind => kind.target?
  | _ => none

/-- The sockets of consecutive elements, the first of which has the given unit. -/
def socketsFrom (target : Option TextureTarget) :
    Option Nat → List (Option TextureHandle) → List Socket
  | _, [] => []
  | unit, handle :: rest => ⟨unit, target, handle⟩ :: socketsFrom target (unit.map (· + 1)) rest

mutual

/-- The sockets of an instance, in declaration order. -/
def StructInstance.sockets : StructInstance → List Socket
  | ⟨schema, fields, _⟩ => socketsOfStates schema.fields fields

def socketsOfStates : List FieldSchema → List FieldState → List Socket
  | schema :: schemas, state :: states =>
    state.sockets schema.kind.target? ++ socketsOfStates schemas states
  | _, _ => []

/-- The sockets of a field whose handles have the given target. -/
def FieldState.sockets (target : Option TextureTarget) : FieldState → List Socket
  | ⟨.values _, _, _, _⟩ => []
  | ⟨.handles list, _, _, unit⟩ => socketsFrom target unit list
  | ⟨.children list, _, _, _⟩ => socketsOfChildren list

def socketsOfChildren : List StructInstance → List Socket
  | [] => []
  | child :: rest => child.sockets ++ socketsOfChildren rest

end

theorem StructInstance.sockets_eq (inst : StructInstance) :
    inst.sockets = socketsOfStates inst.schema.fields inst.fields := by
  cases inst
  rw [StructInstance.sockets]

/-! ## Counting sockets -/

@[simp] theorem length_socketsFrom (target : Option TextureTarget) (unit : Option Nat)
    (list : List (Option TextureHandle)) : (socketsFrom target unit list).length = list.length := by
  induction list generalizing unit with
  | nil => rfl
  | cons handle rest ih => rw [socketsFrom, List.length_cons, List.length_cons, ih]

mutual

/-- A typed instance has a socket for each handle that its schema counts. -/
theorem StructInstance.length_sockets : ∀ inst : StructInstance, inst.Typed →
    inst.sockets.length = inst.schema.handleCount
  | ⟨⟨identity, kind, size, alignment, schemas⟩, fields, attached⟩, ht => by
    rw [StructInstance.Typed] at ht
    rw [StructInstance.sockets, TypeSchema.handleCount]
    exact length_socketsOfStates schemas fields ht

theorem length_socketsOfStates : ∀ (schemas : List FieldSchema) (states : List FieldState),
    StatesTyped schemas states → (socketsOfStates schemas states).length = handleCountOf schemas
  | schema :: schemas, state :: states, ht => by
    rw [StatesTyped] at ht
    rw [socketsOfStates, handleCountOf, List.length_append, state.length_sockets schema ht.1,
      length_socketsOfStates schemas states ht.2]
  | [], [], _ => by simp [socketsOfStates, handleCountOf]
  | [], _ :: _, ht => by simp [StatesTyped] at ht
  | _ :: _, [], ht => by simp [StatesTyped] at ht

theorem FieldState.length_sockets (schema : FieldSchema) : ∀ state : FieldState,
    state.Typed schema → (state.sockets schema.kind.target?).length = schema.handleCount
  | ⟨.values list, dirty, location, unit⟩, ht => by
    rw [FieldState.Typed] at ht
    obtain ⟨-, type, hk, -⟩ := ht
    rw [FieldState.sockets, schema.handleCount_eq, hk, FieldKind.handleCount, Nat.zero_mul]
    rfl
  | ⟨.handles list, dirty, location, unit⟩, ht => by
    rw [FieldState.Typed] at ht
    obtain ⟨hl, handle, hk⟩ := ht
    rw [FieldState.sockets, length_socketsFrom, schema.handleCount_eq, hk, FieldKind.handleCount,
      Nat.one_mul, hl]
  | ⟨.children list, dirty, location, unit⟩, ht => by
    rw [FieldState.Typed] at ht
    obtain ⟨hl, inner, hk, hchildren⟩ := ht
    rw [FieldState.sockets, length_socketsOfChildren inner list hchildren, schema.handleCount_eq, hk,
      FieldKind.handleCount, hl]

theorem length_socketsOfChildren (schema : TypeSchema) : ∀ list : List StructInstance,
    ChildrenTyped schema list → (socketsOfChildren list).length = schema.handleCount * list.length
  | [], _ => by simp [socketsOfChildren]
  | child :: rest, ht => by
    rw [ChildrenTyped] at ht
    obtain ⟨rfl, htyped, hrest⟩ := ht
    rw [socketsOfChildren, List.length_append, child.length_sockets htyped,
      length_socketsOfChildren child.schema rest hrest, List.length_cons, Nat.mul_succ, Nat.add_comm]

end

/-! ## Single elements, fields and children -/

theorem socketsFrom_split {list : List (Option TextureHandle)} {index : Nat}
    {handle : Option TextureHandle} (h : list[index]? = some handle) (target : Option TextureTarget)
    (unit : Option Nat) :
    ∃ front back, front.length = index ∧ socketsFrom target unit list =
        front ++ [⟨unit.map (· + index), target, handle⟩] ++ back ∧
      ∀ other, socketsFrom target unit (list.set index other) =
        front ++ [⟨unit.map (· + index), target, other⟩] ++ back := by
  induction list generalizing index unit with
  | nil => cases h
  | cons first rest ih =>
    cases index with
    | zero =>
      obtain rfl := Option.some.inj h
      refine ⟨[], socketsFrom target (unit.map (· + 1)) rest, rfl, ?_⟩
      simp [socketsFrom]
    | succ index =>
      obtain ⟨front, back, hl, hsplit, hset⟩ := ih h (unit.map (· + 1))
      have hunit : (unit.map (· + 1)).map (· + index) = unit.map (· + (index + 1)) := by
        cases unit with
        | none => rfl
        | some unit => exact congrArg some (by dsimp only; omega)
      rw [hunit] at hsplit hset
      refine ⟨⟨unit, target, first⟩ :: front, back, by rw [List.length_cons, hl], ?_,
        fun other => ?_⟩
      · rw [socketsFrom, hsplit]
        rfl
      · rw [List.set_cons_succ, socketsFrom, hset]
        rfl

theorem socketsOfStates_split {schemas : List FieldSchema} {states : List FieldState} {index : Nat}
    {schema : FieldSchema} {state : FieldState} (htyped : StatesTyped schemas states)
    (hs : schemas[index]? = some schema) (ht : states[index]? = some state) :
    ∃ front back, front.length = handleCountOf (schemas.take index) ∧
      socketsOfStates schemas states = front ++ state.sockets schema.kind.target? ++ back ∧
      ∀ other : FieldState, socketsOfStates schemas (states.set index other) =
        front ++ other.sockets schema.kind.target? ++ back := by
  induction states generalizing schemas index with
  | nil => cases ht
  | cons first rest ih =>
    cases schemas with
    | nil => cases hs
    | cons firstSchema others =>
      rw [StatesTyped] at htyped
      cases index with
      | zero =>
        obtain rfl := Option.some.inj hs
        obtain rfl := Option.some.inj ht
        refine ⟨[], socketsOfStates others rest, by simp [handleCountOf], ?_⟩
        simp [socketsOfStates]
      | succ index =>
        obtain ⟨front, back, hl, hsplit, hset⟩ := ih htyped.2 hs ht
        refine ⟨first.sockets firstSchema.kind.target? ++ front, back, ?_, ?_, fun other => ?_⟩
        · rw [List.length_append, hl, first.length_sockets firstSchema htyped.1, List.take_succ_cons,
            handleCountOf]
        · rw [socketsOfStates, hsplit, List.append_assoc, List.append_assoc, List.append_assoc]
        · rw [List.set_cons_succ, socketsOfStates, hset, List.append_assoc, List.append_assoc,
            List.append_assoc]

theorem socketsOfChildren_split {schema : TypeSchema} {list : List StructInstance} {index : Nat}
    {child : StructInstance} (ht : ChildrenTyped schema list) (h : list[index]? = some child) :
    ∃ front back, front.length = index * schema.handleCount ∧
      socketsOfChildren list = front ++ child.sockets ++ back ∧
      ∀ other : StructInstance, socketsOfChildren (list.set index other) =
        front ++ other.sockets ++ back := by
  induction list generalizing index with
  | nil => cases h
  | cons first rest ih =>
    rw [ChildrenTyped] at ht
    obtain ⟨hschema, htyped, hrest⟩ := ht
    cases index with
    | zero =>
      obtain rfl := Option.some.inj h
      refine ⟨[], socketsOfChildren rest, by simp, ?_⟩
      simp [socketsOfChildren]
    | succ index =>
      obtain ⟨front, back, hl, hsplit, hset⟩ := ih hrest h
      refine ⟨first.sockets ++ front, back, ?_, ?_, fun other => ?_⟩
      · rw [List.length_append, hl, first.length_sockets htyped, hschema, Nat.succ_mul, Nat.add_comm]
      · rw [socketsOfChildren, hsplit, List.append_assoc, List.append_assoc, List.append_assoc]
      · rw [List.set_cons_succ, socketsOfChildren, hset, List.append_assoc, List.append_assoc,
          List.append_assoc]

/-! ## What a call stores -/

/-- The number of handles in the fields before the one with the name. -/
def TypeSchema.handlesBefore? (schema : TypeSchema) (name : String) : Option Nat :=
  (schema.fieldIndex? name).map fun index => handleCountOf (schema.fields.take index)

/-- The position of the socket that names lead to: of the instance at the end of the path, the element
of the field with the name. -/
def TypeSchema.socketIndex? (name : String) (element : Nat) :
    List PathStep → TypeSchema → Option Nat
  | [], schema => (schema.handlesBefore? name).map (· + element)
  | step :: rest, schema => do
    let before ← schema.handlesBefore? step.field
    let field ← schema.field? step.field
    match field.kind with
    | .aggregate inner =>
      let inside ← inner.socketIndex? name element rest
      return before + step.element.getD 0 * inner.handleCount + inside
    | _ => none

/-- The position at which a call at the end of a path stores a handle, and the handle. -/
def InstanceCall.stored? (schema : TypeSchema) (path : List PathStep) :
    InstanceCall → Option (Nat × TextureHandle)
  | .setHandle name element handle => (schema.socketIndex? name element path).map (·, handle)
  | _ => none

/-- What an accepted call does to sockets and to the table: nothing, or it stores a handle in one
socket and binds it to the unit of this socket. -/
inductive Stores (before : List Socket) (table : HandleTable) :
    Option (Nat × TextureHandle) → List Socket → HandleTable → Prop
  | nothing : Stores before table none before table
  | one {position : Nat} {socket : Socket} {handle : TextureHandle}
      (found : before[position]? = some socket) :
      Stores before table (some (position, handle))
        (before.set position { socket with handle := some handle }) (socket.bind table handle)

/-- Sockets in front and behind do not matter. -/
theorem Stores.within {before after : List Socket} {table bound : HandleTable}
    {stored : Option (Nat × TextureHandle)} (h : Stores before table stored after bound)
    (front back : List Socket) :
    Stores (front ++ before ++ back) table
      (stored.map fun (position, handle) => (front.length + position, handle))
      (front ++ after ++ back) bound := by
  cases h with
  | nothing => exact .nothing
  | @one position socket handle found =>
    have hlt : position < before.length := (List.getElem?_eq_some_iff.1 found).1
    have hfound : (front ++ before ++ back)[front.length + position]? = some socket := by
      rw [List.append_assoc, List.getElem?_append_right (Nat.le_add_right _ _),
        Nat.add_sub_cancel_left, List.getElem?_append_left hlt, found]
    have hset : front ++ before.set position { socket with handle := some handle } ++ back =
        (front ++ before ++ back).set (front.length + position)
          { socket with handle := some handle } := by
      rw [List.append_assoc, List.append_assoc, List.set_append_right _ _ (Nat.le_add_right _ _),
        Nat.add_sub_cancel_left, List.set_append_left _ _ hlt]
    rw [hset]
    exact .one hfound

namespace StructInstance

variable {inst after : StructInstance} {name : String} {table bound : HandleTable}

theorem handlesBefore?_of_lookup {view : FieldView} (hv : inst.lookup name = .ok view) :
    inst.schema.handlesBefore? name =
      some (handleCountOf (inst.schema.fields.take view.index)) := by
  obtain ⟨hi, -, -⟩ := lookup_eq_ok hv
  rw [TypeSchema.handlesBefore?, hi]
  rfl

/-- Sockets in front of a field and behind it stay when its state is replaced. -/
theorem sockets_setState (ht : inst.Typed) {view : FieldView} (hv : inst.lookup name = .ok view) :
    ∃ front back, front.length = handleCountOf (inst.schema.fields.take view.index) ∧
      inst.sockets = front ++ view.state.sockets view.schema.kind.target? ++ back ∧
      ∀ state : FieldState, (inst.setState view.index state).sockets =
        front ++ state.sockets view.schema.kind.target? ++ back := by
  obtain ⟨-, hs, hstate⟩ := lookup_eq_ok hv
  obtain ⟨front, back, hl, hsplit, hset⟩ := socketsOfStates_split (typed_iff.1 ht) hs hstate
  refine ⟨front, back, hl, ?_, fun state => ?_⟩
  · rw [sockets_eq, hsplit]
  · rw [sockets_eq]
    exact hset state

theorem sockets_setState_of_eq (ht : inst.Typed) {view : FieldView}
    (hv : inst.lookup name = .ok view) {state : FieldState}
    (h : state.sockets view.schema.kind.target? = view.state.sockets view.schema.kind.target?) :
    (inst.setState view.index state).sockets = inst.sockets := by
  obtain ⟨front, back, -, hsplit, hset⟩ := sockets_setState ht hv
  rw [hset, h, hsplit]

theorem sockets_set (ht : inst.Typed) {element : Option Nat} {value : UniformValue}
    (h : inst.set name element value = .ok after) : after.sockets = inst.sockets := by
  obtain ⟨view, list, hs⟩ := ht.of_set h
  obtain rfl := hs.becomes
  refine sockets_setState_of_eq ht hs.lookup ?_
  obtain ⟨viewIndex, schema, ⟨contents, dirty, location, unit⟩⟩ := view
  obtain rfl : contents = .values list := hs.contents
  rw [FieldState.sockets, FieldState.sockets]

theorem sockets_locate (ht : inst.Typed) {location : Nat}
    (h : inst.locate name location = .ok after) : after.sockets = inst.sockets := by
  obtain ⟨view, hv, -, rfl⟩ := locate_eq_ok h
  refine sockets_setState_of_eq ht hv ?_
  obtain ⟨viewIndex, schema, ⟨contents, dirty, own, unit⟩⟩ := view
  cases contents <;> rw [FieldState.sockets, FieldState.sockets]

theorem stores_setHandle (ht : inst.Typed) {element : Nat} {handle : TextureHandle}
    (h : inst.setHandle name element handle table = .ok (after, bound)) :
    Stores inst.sockets table ((inst.schema.socketIndex? name element []).map (·, handle))
      after.sockets bound := by
  obtain ⟨view, kind, list, hs, rfl⟩ := ht.of_setHandle h
  obtain rfl := hs.becomes
  have hkind := hs.kind
  have hbefore := handlesBefore?_of_lookup hs.lookup
  obtain ⟨front, back, hl, hsplit, hset⟩ := sockets_setState ht hs.lookup
  obtain ⟨viewIndex, schema, ⟨contents, dirty, location, unit⟩⟩ := view
  obtain rfl : contents = .handles list := hs.contents
  dsimp only at hkind hset hsplit hl
  rw [hkind] at hset hsplit
  rw [TypeSchema.socketIndex?, hbefore, ← hl]
  have hin := hs.bound
  obtain ⟨before, behind, hl', hsplit', hset'⟩ :=
    socketsFrom_split (List.getElem?_eq_getElem hin) (FieldKind.target? (.handle kind)) unit
  dsimp only
  rw [hset, hsplit, FieldState.sockets, FieldState.sockets, hset', hsplit']
  have hone : Stores [⟨unit.map (· + element), kind.target?, list[element]⟩] table
      (some (0, handle)) [⟨unit.map (· + element), kind.target?, some handle⟩]
      (Socket.bind ⟨unit.map (· + element), kind.target?, list[element]⟩ table handle) :=
    Stores.one (List.getElem?_cons_zero)
  have hall := (hone.within before behind).within front back
  cases unit with
  | none => simpa [Socket.bind, FieldKind.target?, hl'] using hall
  | some unit => simpa [Socket.bind, FieldKind.target?, hl'] using hall

end StructInstance

mutual

/-- Attaching an instance leaves its sockets alone. -/
theorem StructInstance.sockets_attach : ∀ inst : StructInstance, inst.attach.sockets = inst.sockets
  | ⟨schema, fields, attached⟩ => by
    rw [StructInstance.attach, StructInstance.sockets, StructInstance.sockets,
      socketsOfStates_attachFields schema.fields fields]

theorem socketsOfStates_attachFields : ∀ (schemas : List FieldSchema) (states : List FieldState),
    socketsOfStates schemas (attachFields states) = socketsOfStates schemas states
  | schema :: schemas, state :: states => by
    rw [attachFields, socketsOfStates, socketsOfStates, state.sockets_attach,
      socketsOfStates_attachFields schemas states]
  | [], _ => by simp [socketsOfStates]
  | _ :: _, [] => by simp [attachFields]

theorem FieldState.sockets_attach (target : Option TextureTarget) : ∀ state : FieldState,
    state.attach.sockets target = state.sockets target
  | ⟨.children list, dirty, location, unit⟩ => by
    rw [FieldState.attach, FieldState.sockets, FieldState.sockets,
      socketsOfChildren_attachChildren list]
  | ⟨.values list, dirty, location, unit⟩ => by rw [FieldState.attach]
  | ⟨.handles list, dirty, location, unit⟩ => by rw [FieldState.attach]

theorem socketsOfChildren_attachChildren : ∀ list : List StructInstance,
    socketsOfChildren (attachChildren list) = socketsOfChildren list
  | [] => by rw [attachChildren]
  | child :: rest => by
    rw [attachChildren, socketsOfChildren, socketsOfChildren, child.sockets_attach,
      socketsOfChildren_attachChildren rest]

end

/-- **One call.** It stores what `InstanceCall.stored?` says. -/
theorem InstanceCall.stores {call : InstanceCall} {table bound : HandleTable}
    {inst after : StructInstance} (ht : inst.Typed) (h : call.apply table inst = .ok (after, bound)) :
    Stores inst.sockets table (call.stored? inst.schema []) after.sockets bound := by
  cases call with
  | set name element value =>
    obtain ⟨next, hs, he⟩ := map_eq_ok_iff.1 h
    obtain ⟨rfl, rfl⟩ := Prod.mk.inj he
    rw [StructInstance.sockets_set ht hs]
    exact .nothing
  | setHandle name element handle => exact StructInstance.stores_setHandle ht h
  | locate name location =>
    obtain ⟨next, hs, he⟩ := map_eq_ok_iff.1 h
    obtain ⟨rfl, rfl⟩ := Prod.mk.inj he
    rw [StructInstance.sockets_locate ht hs]
    exact .nothing
  | attach =>
    obtain ⟨rfl, rfl⟩ := Prod.mk.inj (Except.ok.inj h)
    rw [inst.sockets_attach]
    exact .nothing

/-- The socket at the end of a path lies behind the fields and instances that the first step
passes. -/
theorem TypeSchema.socketIndex?_cons {schema inner : TypeSchema} {step : PathStep}
    {field : FieldSchema} {before : Nat} (hb : schema.handlesBefore? step.field = some before)
    (hf : schema.field? step.field = some field) (hk : field.kind = .aggregate inner)
    (name : String) (element : Nat) (rest : List PathStep) :
    schema.socketIndex? name element (step :: rest) = (inner.socketIndex? name element rest).map
      (before + step.element.getD 0 * inner.handleCount + ·) := by
  simp only [socketIndex?, hb, hf, hk, Option.bind_eq_bind, Option.bind_some, Option.pure_def]
  cases inner.socketIndex? name element rest <;> rfl

theorem InstanceCall.stored?_cons {call : InstanceCall} {schema inner : TypeSchema}
    {step : PathStep} {rest : List PathStep} {field : FieldSchema} {before : Nat}
    (hb : schema.handlesBefore? step.field = some before) (hf : schema.field? step.field = some field)
    (hk : field.kind = .aggregate inner) :
    call.stored? schema (step :: rest) = (call.stored? inner rest).map fun (position, handle) =>
      (before + step.element.getD 0 * inner.handleCount + position, handle) := by
  cases call with
  | setHandle name element handle =>
    rw [stored?, stored?, TypeSchema.socketIndex?_cons hb hf hk, Option.map_map, Option.map_map]
    rfl
  | set name element value | locate name location | attach => rfl

/-- A call at the end of a path stores what it stores in the instance there. The induction is on the
path; positions move behind everything that the steps pass. -/
theorem stores_updateAt {call : InstanceCall} {table bound : HandleTable} {path : List PathStep}
    {inst after : StructInstance} (ht : inst.Typed)
    (hu : inst.updateAt (call.apply table) path = .ok (after, bound)) :
    Stores inst.sockets table (call.stored? inst.schema path) after.sockets bound := by
  induction path generalizing inst after with
  | nil => exact call.stores ht hu
  | cons step rest ih =>
    rw [StructInstance.updateAt] at hu
    obtain ⟨⟨view, list, index, child⟩, hfind, hu⟩ := bind_eq_ok_iff.1 hu
    obtain ⟨⟨changed, given⟩, hr, hu⟩ := bind_eq_ok_iff.1 hu
    obtain ⟨rfl, rfl⟩ := Prod.mk.inj (Except.ok.inj hu)
    obtain ⟨hv, hcontents, hchild⟩ := StructInstance.findChild_eq_ok hfind
    have hindex := StructInstance.index_of_findChild hfind
    have htyped := ht.view hv
    have hfield := StructInstance.field?_of_lookup hv
    have hbefore := StructInstance.handlesBefore?_of_lookup hv
    obtain ⟨front, back, hl, hsplit, hset⟩ := StructInstance.sockets_setState ht hv
    obtain ⟨viewIndex, schema, ⟨contents, dirty, location, unit⟩⟩ := view
    obtain rfl : contents = .children list := hcontents
    rw [FieldState.Typed] at htyped
    obtain ⟨-, inner, hk, hchildren⟩ := htyped
    dsimp only at hk hfield hset hsplit hl hbefore
    obtain ⟨rfl, hchildTyped⟩ := hchildren.child hchild
    obtain ⟨front', back', hl', hsplit', hset'⟩ := socketsOfChildren_split hchildren hchild
    have hall := ((ih hchildTyped hr).within front' back').within front back
    dsimp only
    rw [hset, hsplit, FieldState.sockets, FieldState.sockets, hset', hsplit',
      InstanceCall.stored?_cons hbefore hfield hk, ← hindex, ← hl, ← hl']
    simpa [Option.map_map, Function.comp_def, Nat.add_assoc] using hall

/-! ## What the accessors read -/

namespace StructInstance

variable {inst child : StructInstance} {name : String} {element : Nat} {found : Option TextureHandle}

/-- The handle of an element is that of its socket, and its texture unit the socket's unit. -/
theorem socket_of_own_handle (ht : inst.Typed) (h : inst.handle name element = .ok found) :
    ∃ position socket, inst.schema.socketIndex? name element [] = some position ∧
      inst.sockets[position]? = some socket ∧ found = socket.handle ∧
      inst.textureUnit name element = .ok socket.unit := by
  unfold handle at h
  obtain ⟨view, hv, h⟩ := bind_eq_ok_iff.1 h
  obtain ⟨⟨⟩, hb, h⟩ := bind_eq_ok_iff.1 h
  have hlt := FieldSchema.checkBounds_eq_ok hb
  have htyped := ht.view hv
  have hbefore := handlesBefore?_of_lookup hv
  obtain ⟨front, back, hl, hsplit, -⟩ := sockets_setState ht hv
  unfold textureUnit
  rw [hv]
  obtain ⟨viewIndex, schema, ⟨contents, dirty, location, unit⟩⟩ := view
  cases contents with
  | values list | children list => cases h
  | handles list =>
    obtain rfl := Except.ok.inj h
    rw [FieldState.Typed] at htyped
    obtain ⟨stored, hs⟩ : ∃ stored, list[element]? = some stored :=
      ⟨_, List.getElem?_eq_getElem (Nat.lt_of_lt_of_eq hlt htyped.1.symm)⟩
    obtain ⟨before, behind, hl', hsplit', -⟩ := socketsFrom_split hs schema.kind.target? unit
    dsimp only at hsplit hl hb
    refine ⟨front.length + before.length, ⟨unit.map (· + element), schema.kind.target?, stored⟩,
      ?_, ?_, ?_, ?_⟩
    · rw [TypeSchema.socketIndex?, hbefore, hl, hl']
      rfl
    · rw [hsplit, FieldState.sockets, hsplit']
      simp
    · rw [hs, Option.join_some]
    · simp only [ok_bind, hb]
      rfl

/-- The same at the end of a path. The induction is on the path, as in `stores_updateAt`. -/
theorem socket_of_handle {path : List PathStep} (ht : inst.Typed)
    (hd : inst.descend path = .ok child) (h : child.handle name element = .ok found) :
    ∃ position socket, inst.schema.socketIndex? name element path = some position ∧
      inst.sockets[position]? = some socket ∧ found = socket.handle ∧
      child.textureUnit name element = .ok socket.unit := by
  induction path generalizing inst with
  | nil =>
    obtain rfl := Except.ok.inj hd
    exact socket_of_own_handle ht h
  | cons step rest ih =>
    rw [descend] at hd
    obtain ⟨⟨view, list, index, next⟩, hfind, hd⟩ := bind_eq_ok_iff.1 hd
    obtain ⟨hv, hcontents, hchild⟩ := findChild_eq_ok hfind
    have hindex := index_of_findChild hfind
    have htyped := ht.view hv
    have hfield := field?_of_lookup hv
    have hbefore := handlesBefore?_of_lookup hv
    obtain ⟨front, back, hl, hsplit, -⟩ := sockets_setState ht hv
    obtain ⟨viewIndex, schema, ⟨contents, dirty, location, unit⟩⟩ := view
    obtain rfl : contents = .children list := hcontents
    rw [FieldState.Typed] at htyped
    obtain ⟨-, inner, hk, hchildren⟩ := htyped
    dsimp only at hk hfield hsplit hl hbefore
    obtain ⟨rfl, hnextTyped⟩ := hchildren.child hchild
    obtain ⟨front', back', hl', hsplit', -⟩ := socketsOfChildren_split hchildren hchild
    obtain ⟨position, socket, hposition, hsocket, hhandle, hunit⟩ := ih hnextTyped hd
    refine ⟨front.length + (front'.length + position), socket, ?_, ?_, hhandle, hunit⟩
    · rw [TypeSchema.socketIndex?_cons hbefore hfield hk, hposition, ← hindex, ← hl, ← hl',
        Option.map_some, Nat.add_assoc]
    · have hlt : position < next.sockets.length := (List.getElem?_eq_some_iff.1 hsocket).1
      rw [hsplit, FieldState.sockets, hsplit', List.append_assoc,
        List.getElem?_append_right (Nat.le_add_right _ _), Nat.add_sub_cancel_left,
        List.append_assoc, List.append_assoc, List.getElem?_append_right (Nat.le_add_right _ _),
        Nat.add_sub_cancel_left, List.getElem?_append_left hlt, hsocket]

end StructInstance

/-! ## New instances -/

/-- The sockets have no handles, and the given units. -/
structure Numbered (units : List Nat) (sockets : List Socket) : Prop where
  units_eq : sockets.map Socket.unit = units.map some
  empty : ∀ socket ∈ sockets, socket.handle = none

theorem numbered_nil : Numbered [] [] := ⟨rfl, by simp⟩

theorem Numbered.append {units others : List Nat} {sockets more : List Socket}
    (h : Numbered units sockets) (k : Numbered others more) :
    Numbered (units ++ others) (sockets ++ more) where
  units_eq := by rw [List.map_append, List.map_append, h.units_eq, k.units_eq]
  empty := List.forall_mem_append.2 ⟨h.empty, k.empty⟩

theorem map_handle_socketsFrom (target : Option TextureTarget) (unit : Option Nat)
    (list : List (Option TextureHandle)) :
    (socketsFrom target unit list).map Socket.handle = list := by
  induction list generalizing unit with
  | nil => rfl
  | cons handle rest ih => rw [socketsFrom, List.map_cons, ih]

theorem assignFieldUnits_cons (next : Nat) (schema : FieldSchema) (schemas : List FieldSchema)
    (state : FieldState) (states : List FieldState) :
    assignFieldUnits next (schema :: schemas) (state :: states) =
      ((state.assignUnits next schema).1 ::
          (assignFieldUnits (state.assignUnits next schema).2 schemas states).1,
        (assignFieldUnits (state.assignUnits next schema).2 schemas states).2) := by
  rw [assignFieldUnits]

theorem assignChildUnits_cons (next : Nat) (child : StructInstance) (rest : List StructInstance) :
    assignChildUnits next (child :: rest) =
      ((child.assignUnits next).1 :: (assignChildUnits (child.assignUnits next).2 rest).1,
        (assignChildUnits (child.assignUnits next).2 rest).2) := by
  rw [assignChildUnits]

theorem numbered_socketsFrom (target : Option TextureTarget) (first : Nat)
    {list : List (Option TextureHandle)} (h : ∀ handle ∈ list, handle = none) :
    Numbered (List.range' first list.length) (socketsFrom target (some first) list) := by
  induction list generalizing first with
  | nil => exact numbered_nil
  | cons handle rest ih =>
    obtain ⟨rfl, hrest⟩ := List.forall_mem_cons.1 h
    have htail := ih (first + 1) hrest
    rw [socketsFrom, List.length_cons, List.range'_succ]
    refine ⟨?_, List.forall_mem_cons.2 ⟨rfl, htail.empty⟩⟩
    rw [List.map_cons, List.map_cons]
    exact congrArg _ htail.units_eq

mutual

/-- Handing out units from `next` on numbers the sockets, and ends behind the last one. -/
theorem StructInstance.numbered_assignUnits (next : Nat) : ∀ inst : StructInstance, inst.Typed →
    (∀ socket ∈ inst.sockets, socket.handle = none) →
    Numbered (List.range' next inst.schema.handleCount) (inst.assignUnits next).1.sockets ∧
      (inst.assignUnits next).2 = next + inst.schema.handleCount
  | ⟨⟨identity, kind, size, alignment, schemas⟩, fields, attached⟩, ht, he => by
    rw [StructInstance.Typed] at ht
    rw [StructInstance.sockets] at he
    rw [StructInstance.assignUnits, StructInstance.sockets, TypeSchema.handleCount]
    exact numbered_assignFieldUnits next schemas fields ht he

theorem numbered_assignFieldUnits (next : Nat) : ∀ (schemas : List FieldSchema)
    (states : List FieldState), StatesTyped schemas states →
    (∀ socket ∈ socketsOfStates schemas states, socket.handle = none) →
    Numbered (List.range' next (handleCountOf schemas))
        (socketsOfStates schemas (assignFieldUnits next schemas states).1) ∧
      (assignFieldUnits next schemas states).2 = next + handleCountOf schemas
  | schema :: schemas, state :: states, ht, he => by
    rw [StatesTyped] at ht
    rw [socketsOfStates, List.forall_mem_append] at he
    obtain ⟨hfirst, hafter⟩ := state.numbered_assignUnits next schema ht.1 he.1
    obtain ⟨hrest, hend⟩ := numbered_assignFieldUnits (next + schema.handleCount) schemas states
      ht.2 he.2
    rw [assignFieldUnits_cons, handleCountOf, hafter, socketsOfStates, hend, Nat.add_assoc]
    refine ⟨?_, rfl⟩
    rw [← List.range'_append_1]
    exact hfirst.append hrest
  | [], [], _, _ => by
    simp only [assignFieldUnits, socketsOfStates, handleCountOf]
    exact ⟨numbered_nil, rfl⟩
  | [], _ :: _, ht, _ => by simp [StatesTyped] at ht
  | _ :: _, [], ht, _ => by simp [StatesTyped] at ht

theorem FieldState.numbered_assignUnits (next : Nat) (schema : FieldSchema) :
    ∀ state : FieldState, state.Typed schema →
    (∀ socket ∈ state.sockets schema.kind.target?, socket.handle = none) →
    Numbered (List.range' next schema.handleCount)
        ((state.assignUnits next schema).1.sockets schema.kind.target?) ∧
      (state.assignUnits next schema).2 = next + schema.handleCount
  | ⟨.values list, dirty, location, unit⟩, ht, _ => by
    rw [FieldState.Typed] at ht
    obtain ⟨-, type, hk, -⟩ := ht
    rw [FieldState.assignUnits, FieldState.sockets, schema.handleCount_eq, hk,
      FieldKind.handleCount, Nat.zero_mul]
    exact ⟨numbered_nil, rfl⟩
  | ⟨.handles list, dirty, location, unit⟩, ht, he => by
    rw [FieldState.Typed] at ht
    obtain ⟨hl, handle, hk⟩ := ht
    rw [FieldState.sockets] at he
    rw [FieldState.assignUnits, hk, FieldState.sockets, schema.handleCount_eq, hk,
      FieldKind.handleCount, Nat.one_mul, ← hl]
    refine ⟨numbered_socketsFrom _ next ?_, rfl⟩
    rw [← map_handle_socketsFrom schema.kind.target? unit list]
    exact List.forall_mem_map.2 he
  | ⟨.children list, dirty, location, unit⟩, ht, he => by
    rw [FieldState.Typed] at ht
    obtain ⟨hl, inner, hk, hchildren⟩ := ht
    rw [FieldState.sockets] at he
    rw [FieldState.assignUnits, FieldState.sockets, schema.handleCount_eq, hk,
      FieldKind.handleCount, ← hl]
    exact numbered_assignChildUnits next inner list hchildren he

theorem numbered_assignChildUnits (next : Nat) (schema : TypeSchema) :
    ∀ list : List StructInstance, ChildrenTyped schema list →
    (∀ socket ∈ socketsOfChildren list, socket.handle = none) →
    Numbered (List.range' next (schema.handleCount * list.length))
        (socketsOfChildren (assignChildUnits next list).1) ∧
      (assignChildUnits next list).2 = next + schema.handleCount * list.length
  | [], _, _ => by
    rw [assignChildUnits, socketsOfChildren]
    exact ⟨numbered_nil, rfl⟩
  | child :: rest, ht, he => by
    rw [ChildrenTyped] at ht
    obtain ⟨rfl, htyped, hrest⟩ := ht
    rw [socketsOfChildren, List.forall_mem_append] at he
    obtain ⟨hfirst, hafter⟩ := child.numbered_assignUnits next htyped he.1
    obtain ⟨hothers, hend⟩ := numbered_assignChildUnits (next + child.schema.handleCount)
      child.schema rest hrest he.2
    rw [assignChildUnits_cons, hafter, socketsOfChildren, hend, List.length_cons, Nat.mul_succ,
      Nat.add_comm (child.schema.handleCount * rest.length), Nat.add_assoc]
    refine ⟨?_, rfl⟩
    rw [← List.range'_append_1]
    exact hfirst.append hothers

end

theorem socketsOfChildren_replicate {child : StructInstance}
    (h : ∀ socket ∈ child.sockets, socket.handle = none) (length : Nat) :
    ∀ socket ∈ socketsOfChildren (List.replicate length child), socket.handle = none := by
  induction length with
  | zero => simp [socketsOfChildren]
  | succ length ih =>
    rw [List.replicate_succ, socketsOfChildren]
    exact List.forall_mem_append.2 ⟨h, ih⟩

/-- New fields have no handles, and a field with a unit has the units from this one on. -/
theorem numbered_initialState {field : FieldSchema}
    (h : ∀ type, field.kind = .value type → type.isHandle = false)
    (hn : ∀ inner, field.kind = .aggregate inner → inner.instantiate.Typed ∧
      ∀ socket ∈ inner.instantiate.sockets, socket.handle = none) :
    (∀ socket ∈ field.initialState.sockets field.kind.target?, socket.handle = none) ∧
      ∀ first, field.unit = some first → Numbered (List.range' first field.handleCount)
        (field.initialState.sockets field.kind.target?) := by
  obtain ⟨name, typeName, kind, offset, size, array, location, unit⟩ := field
  rw [FieldSchema.initialState, FieldSchema.handleCount]
  dsimp only at h hn ⊢
  cases kind with
  | value type =>
    have hvalue : ∀ length, ∃ list, FieldKind.initialContents length unit (.value type) =
        .values list := by
      intro length
      rw [FieldKind.initialContents]
      split
      · exact ⟨_, rfl⟩
      · rename_i hz
        cases type with
        | handle handle => cases h _ rfl
        | scalar _ | vector _ _ | matrix _ _ _ => cases hz
    obtain ⟨list, hlist⟩ := hvalue (array.elim 1 ArrayLayout.length)
    rw [hlist, FieldState.sockets, FieldKind.handleCount, Nat.zero_mul]
    exact ⟨by simp, fun _ _ => numbered_nil⟩
  | handle handle =>
    rw [FieldKind.initialContents, FieldState.sockets, FieldKind.handleCount, Nat.one_mul]
    have hnone : ∀ given ∈ List.replicate (array.elim 1 ArrayLayout.length)
        (none : Option TextureHandle), given = none := fun _ hm => List.eq_of_mem_replicate hm
    refine ⟨?_, fun first hu => ?_⟩
    · rw [← map_handle_socketsFrom (FieldKind.target? (.handle handle)) unit
        (List.replicate (array.elim 1 ArrayLayout.length) none)] at hnone
      exact List.forall_mem_map.1 hnone
    · have hnumbered := numbered_socketsFrom (FieldKind.target? (.handle handle)) first hnone
      rw [List.length_replicate] at hnumbered
      rw [hu]
      exact hnumbered
  | aggregate inner =>
    obtain ⟨htyped, hempty⟩ := hn inner rfl
    have hchildren := childrenTyped_replicate inner.schema_instantiate htyped
      (array.elim 1 ArrayLayout.length)
    have hnew := socketsOfChildren_replicate hempty (array.elim 1 ArrayLayout.length)
    rw [FieldKind.handleCount]
    cases unit with
    | none =>
      simp only [FieldKind.initialContents]
      rw [FieldState.sockets]
      exact ⟨hnew, fun _ hu => absurd hu (Option.some_ne_none _).symm⟩
    | some first =>
      obtain ⟨hnumbered, -⟩ := numbered_assignChildUnits first inner _ hchildren hnew
      rw [List.length_replicate] at hnumbered
      simp only [FieldKind.initialContents]
      rw [FieldState.sockets]
      exact ⟨hnumbered.empty, fun _ hu => Option.some.inj hu ▸ hnumbered⟩

/-- A new instance holds no handles. -/
theorem TypeSchema.Kinded.empty_instantiate {schema : TypeSchema} (h : schema.Kinded) :
    ∀ socket ∈ schema.instantiate.sockets, socket.handle = none := by
  induction h with
  | @intro schema value nested ih =>
    obtain ⟨identity, kind, size, alignment, fields⟩ := schema
    dsimp only at value nested ih
    rw [TypeSchema.instantiate, StructInstance.sockets]
    dsimp only
    induction fields with
    | nil => simp [initialStates, socketsOfStates]
    | cons field rest ihFields =>
      obtain ⟨hvalue, hvalues⟩ := List.forall_mem_cons.1 value
      obtain ⟨hkinded, hrest⟩ := List.forall_mem_cons.1 nested
      obtain ⟨hempty, hothers⟩ := List.forall_mem_cons.1 ih
      rw [initialStates, socketsOfStates]
      refine List.forall_mem_append.2 ⟨?_, ihFields hvalues hrest hothers⟩
      exact (numbered_initialState hvalue fun inner hi =>
        ⟨(hkinded inner hi).typed_instantiate, hempty inner hi⟩).1

/-- **New sets.** The sockets of a new set of free uniforms have the units of its leaves. -/
theorem numbered_instantiate {schema : TypeSchema} {max : Nat} (hk : schema.Kinded)
    (hu : schema.HasOwnUnits max) : Numbered schema.leafUnits schema.instantiate.sockets := by
  obtain ⟨value, nested⟩ := hk
  have hgiven := hu.given
  clear hu
  obtain ⟨identity, kind, size, alignment, fields⟩ := schema
  rw [TypeSchema.instantiate, StructInstance.sockets]
  unfold TypeSchema.leafUnits
  dsimp only at value nested hgiven ⊢
  induction fields with
  | nil =>
    rw [initialStates, socketsOfStates]
    · exact numbered_nil
    · simp
  | cons field rest ih =>
    obtain ⟨hvalue, hvalues⟩ := List.forall_mem_cons.1 value
    obtain ⟨hkinded, hrest⟩ := List.forall_mem_cons.1 nested
    obtain ⟨hfirst, hothers⟩ := List.forall_mem_cons.1 hgiven
    have hnew : ∀ inner, field.kind = .aggregate inner → inner.instantiate.Typed ∧
        ∀ socket ∈ inner.instantiate.sockets, socket.handle = none := fun inner hi =>
      ⟨(hkinded inner hi).typed_instantiate, (hkinded inner hi).empty_instantiate⟩
    obtain ⟨-, hnumbered⟩ := numbered_initialState hvalue hnew
    rw [initialStates, socketsOfStates, List.flatMap_cons]
    refine Numbered.append ?_ (ih hvalues hrest hothers)
    cases hunit : field.unit with
    | some first => exact hnumbered first hunit
    | none =>
      have hlength := field.initialState.length_sockets field
        (typed_initialState hvalue fun inner hi => (hnew inner hi).1)
      rw [FieldSchema.handleCount_eq_zero hfirst hunit] at hlength ⊢
      rw [List.length_eq_zero_iff.1 hlength]
      exact numbered_nil

end UniformLayout
