import UniformLayout.Proofs.Instance.Naming

/-!
# The spots of an instance

A leaf field of an instance, or of one nested in it, has its spot: the way to the instance that it
belongs to, by positions, and its own position there. Names play no part in this, so that two fields
with one name have two spots. A path leads along one way, and a change at its end leaves all leaves
alone that lie elsewhere.

* `StructInstance.leafAt?`: what is at a spot.
* `StructInstance.ownLeaf?_setChild`, `StructInstance.childAt?_setChild`: one level.

Main statement: `StructInstance.changedAt_of_updateAt`.
-/

namespace UniformLayout

/-- Where a nested instance lies: on each level the position of a field and an element of it. -/
abbrev Way := List (Nat × Nat)

/-- Where a leaf field lies. -/
structure Spot where
  way : Way
  index : Nat
  deriving DecidableEq, Repr

def FieldState.children? : FieldState → Option (List StructInstance)
  | ⟨.children list, _, _, _⟩ => some list
  | _ => none

theorem FieldState.children?_eq_some {state : FieldState} {list : List StructInstance} :
    state.children? = some list ↔ state.contents = .children list := by
  obtain ⟨contents, dirty, location, unit⟩ := state
  cases contents with
  | values held | handles held => simp [children?]
  | children held => simp [children?]

/-- A leaf field holds no instances. -/
theorem FieldState.Typed.children?_eq_none {schema : FieldSchema} {state : FieldState}
    (h : state.Typed schema) (hk : schema.IsLeaf) : state.children? = none := by
  obtain ⟨contents, dirty, location, unit⟩ := state
  cases contents with
  | values list | handles list => rfl
  | children list =>
    rw [FieldState.Typed] at h
    obtain ⟨-, inner, hinner, -⟩ := h
    exact absurd hinner (hk inner)

/-- Without instances in it, a state can be located. -/
theorem FieldState.children?_located {state : FieldState} (h : state.children? = none)
    (location : Option Nat) : FieldState.children? { state with location } = none := by
  obtain ⟨contents, dirty, own, unit⟩ := state
  cases contents with
  | children list => cases h
  | values list | handles list => rfl

/-- A function that goes through a list element by element maps it. -/
theorem eq_map_of_cons {α β : Type} {f : List α → List β} {g : α → β} (hnil : f [] = [])
    (hcons : ∀ a rest, f (a :: rest) = g a :: f rest) (list : List α) : f list = list.map g := by
  induction list with
  | nil => exact hnil
  | cons a rest ih => rw [hcons, ih, List.map_cons]

namespace StructInstance

/-- The nested instance in an element of a field. -/
def childAt? (place : Nat × Nat) (inst : StructInstance) : Option StructInstance := do
  let state ← inst.fields[place.1]?
  (← state.children?)[place.2]?

def inner? : Way → StructInstance → Option StructInstance
  | [], inst => some inst
  | place :: rest, inst => (inst.childAt? place).bind (inner? rest)

/-- The state of a field of the instance itself that holds no instances. -/
def ownLeaf? (index : Nat) (inst : StructInstance) : Option FieldState :=
  inst.fields[index]?.filter (·.children?.isNone)

/-- The state of the leaf field at a spot. -/
def leafAt? (spot : Spot) (inst : StructInstance) : Option FieldState :=
  (inst.inner? spot.way).bind (ownLeaf? spot.index)

/-- The way along which a path leads. -/
def way? : List PathStep → StructInstance → Option Way
  | [], _ => some []
  | step :: rest, inst => do
    let (view, _, index, child) ← (inst.findChild step).toOption
    return (view.index, index) :: (← child.way? rest)

theorem leafAt?_own (index : Nat) (inst : StructInstance) :
    inst.leafAt? ⟨[], index⟩ = inst.ownLeaf? index := rfl

theorem leafAt?_nested (place : Nat × Nat) (way : Way) (index : Nat) (inst : StructInstance) :
    inst.leafAt? ⟨place :: way, index⟩ = (inst.childAt? place).bind (leafAt? ⟨way, index⟩) := by
  change ((inst.childAt? place).bind (inner? way)).bind (ownLeaf? index) = _
  rw [Option.bind_assoc]
  rfl

/-! ## One level -/

variable {inst child next after : StructInstance}

theorem ownLeaf?_setState {index : Nat} (hlt : index < inst.fields.length) (state : FieldState)
    (other : Nat) : (inst.setState index state).ownLeaf? other =
      if other = index then (some state).filter (·.children?.isNone) else inst.ownLeaf? other := by
  unfold ownLeaf? setState
  dsimp only
  rw [List.getElem?_set]
  by_cases he : other = index
  · subst he
    simp [hlt]
  · rw [if_neg (Ne.symm he), if_neg he]

theorem childAt?_setState {index : Nat} (hlt : index < inst.fields.length) (state : FieldState)
    (place : Nat × Nat) : (inst.setState index state).childAt? place =
      if place.1 = index then state.children?.bind (·[place.2]?) else inst.childAt? place := by
  unfold childAt? setState
  dsimp only
  rw [List.getElem?_set]
  by_cases he : place.1 = index
  · rw [if_pos he.symm, if_pos he]
    simp [hlt]
  · rw [if_neg (Ne.symm he), if_neg he]

section

variable {step : PathStep} {view : FieldView} {list : List StructInstance} {index : Nat}

/-- The instance with another child where a step leads. -/
def setChild (inst : StructInstance) (view : FieldView) (list : List StructInstance) (index : Nat)
    (next : StructInstance) : StructInstance :=
  inst.setState view.index { view.state with contents := .children (list.set index next) }

theorem childAt?_of_findChild (h : inst.findChild step = .ok (view, list, index, child)) :
    inst.childAt? (view.index, index) = some child := by
  obtain ⟨hv, hcontents, hchild⟩ := findChild_eq_ok h
  obtain ⟨-, -, hstate⟩ := lookup_eq_ok hv
  obtain ⟨viewIndex, schema, ⟨contents, dirty, location, unit⟩⟩ := view
  obtain rfl : contents = .children list := hcontents
  unfold childAt?
  dsimp only at hstate ⊢
  rw [hstate]
  exact hchild

theorem ownLeaf?_setChild (h : inst.findChild step = .ok (view, list, index, child))
    (next : StructInstance) (other : Nat) :
    (inst.setChild view list index next).ownLeaf? other = inst.ownLeaf? other := by
  obtain ⟨hv, hcontents, -⟩ := findChild_eq_ok h
  obtain ⟨-, -, hstate⟩ := lookup_eq_ok hv
  obtain ⟨hlt, -⟩ := List.getElem?_eq_some_iff.1 hstate
  unfold setChild
  rw [ownLeaf?_setState hlt]
  split
  · rename_i he
    subst he
    obtain ⟨viewIndex, schema, ⟨contents, dirty, location, unit⟩⟩ := view
    obtain rfl : contents = .children list := hcontents
    unfold ownLeaf?
    rw [hstate]
    rfl
  · rfl

theorem childAt?_setChild (h : inst.findChild step = .ok (view, list, index, child))
    (next : StructInstance) (place : Nat × Nat) :
    (inst.setChild view list index next).childAt? place =
      if place = (view.index, index) then some next else inst.childAt? place := by
  obtain ⟨hv, hcontents, hchild⟩ := findChild_eq_ok h
  obtain ⟨-, -, hstate⟩ := lookup_eq_ok hv
  obtain ⟨hlt, -⟩ := List.getElem?_eq_some_iff.1 hstate
  obtain ⟨hin, -⟩ := List.getElem?_eq_some_iff.1 hchild
  obtain ⟨first, second⟩ := place
  unfold setChild
  rw [childAt?_setState hlt]
  by_cases hf : first = view.index
  · subst hf
    have hlist : inst.childAt? (view.index, second) = list[second]? := by
      obtain ⟨viewIndex, schema, ⟨contents, dirty, location, unit⟩⟩ := view
      obtain rfl : contents = .children list := hcontents
      unfold childAt?
      dsimp only at hstate ⊢
      rw [hstate]
      rfl
    rw [if_pos rfl, hlist]
    change (list.set index next)[second]? = _
    by_cases hs : second = index
    · subst hs
      rw [if_pos rfl, List.getElem?_set_self hin]
    · rw [if_neg fun he => hs (Prod.mk.inj he).2, List.getElem?_set_ne (Ne.symm hs)]
  · rw [if_neg hf, if_neg fun he => hf (Prod.mk.inj he).1]

end

/-! ## The end of a path -/

/-- A change of the instance at the end of a path, from `child` to `next`: the way along which the path
leads, and what it means for the leaves. -/
structure ChangedAt (path : List PathStep) (way : Way) (inst child next after : StructInstance) :
    Prop where
  leads : inst.descend path = .ok child
  takes : inst.way? path = some way
  led : after.descend path = .ok next
  before : ∀ rest index, inst.leafAt? ⟨way ++ rest, index⟩ = child.leafAt? ⟨rest, index⟩
  inside : ∀ rest index, after.leafAt? ⟨way ++ rest, index⟩ = next.leafAt? ⟨rest, index⟩
  outside : ∀ spot : Spot, ¬ way <+: spot.way → after.leafAt? spot = inst.leafAt? spot

theorem ChangedAt.nil (inst next : StructInstance) : ChangedAt [] [] inst inst next next where
  leads := rfl
  takes := rfl
  led := rfl
  before _ _ := rfl
  inside _ _ := rfl
  outside _ h := absurd List.nil_prefix h

theorem ChangedAt.cons {step : PathStep} {view : FieldView} {list : List StructInstance}
    {index : Nat} {held made : StructInstance} {path : List PathStep} {way : Way}
    (hf : inst.findChild step = .ok (view, list, index, held))
    (h : ChangedAt path way held child next made) :
    ChangedAt (step :: path) ((view.index, index) :: way) inst child next
      (inst.setChild view list index made) where
  leads := by
    rw [descend, hf]
    exact h.leads
  takes := by
    rw [way?, hf]
    simp [Except.toOption, h.takes]
  led := by
    rw [descend, setChild, findChild_setState hf]
    exact h.led
  before rest position := by
    rw [List.cons_append, leafAt?_nested, childAt?_of_findChild hf]
    exact h.before rest position
  inside rest position := by
    rw [List.cons_append, leafAt?_nested, childAt?_setChild hf, if_pos rfl]
    exact h.inside rest position
  outside spot hs := by
    obtain ⟨other, position⟩ := spot
    cases other with
    | nil => exact ownLeaf?_setChild hf made position
    | cons place rest =>
      rw [leafAt?_nested, leafAt?_nested, childAt?_setChild hf]
      split
      · rename_i he
        subst he
        rw [childAt?_of_findChild hf]
        exact h.outside ⟨rest, position⟩ fun hp => hs (List.cons_prefix_cons.2 ⟨rfl, hp⟩)
      · rfl

/-- An accepted change at the end of a path changes the instance there, and nothing else. -/
theorem changedAt_of_updateAt {α : Type}
    {change : StructInstance → Except AccessError (StructInstance × α)} {path : List PathStep}
    {answer : α} (hu : updateAt change path inst = .ok (after, answer)) :
    ∃ way child next, change child = .ok (next, answer) ∧
      ChangedAt path way inst child next after := by
  induction path generalizing inst after with
  | nil => exact ⟨[], inst, after, hu, .nil inst after⟩
  | cons step rest ih =>
    rw [updateAt] at hu
    obtain ⟨⟨view, list, index, held⟩, hf, hu⟩ := bind_eq_ok_iff.1 hu
    obtain ⟨⟨made, given⟩, hr, hu⟩ := bind_eq_ok_iff.1 hu
    obtain ⟨rfl, rfl⟩ := Prod.mk.inj (Except.ok.inj hu)
    obtain ⟨way, child, next, hc, h⟩ := ih hr
    exact ⟨_, child, next, hc, .cons hf h⟩

/-! ## All fields at once -/

/-- A function changes all fields of an instance in one way, on every level, and keeps the schema. -/
structure Everywhere (whole : StructInstance → StructInstance) (each : FieldState → FieldState) :
    Prop where
  schema_eq : ∀ inst, (whole inst).schema = inst.schema
  fields_eq : ∀ inst, (whole inst).fields = inst.fields.map each
  children?_eq : ∀ state, (each state).children? = state.children?.map (·.map whole)

section

variable {whole : StructInstance → StructInstance} {each : FieldState → FieldState}

theorem ownLeaf?_map (h : Everywhere whole each) (inst : StructInstance) (index : Nat) :
    (whole inst).ownLeaf? index = (inst.ownLeaf? index).map each := by
  unfold ownLeaf?
  rw [h.fields_eq, List.getElem?_map]
  cases inst.fields[index]? with
  | none => rfl
  | some state =>
    have hleaf : (each state).children?.isNone = state.children?.isNone := by
      rw [h.children?_eq, Option.isNone_map]
    rw [Option.map_some, Option.filter_some, Option.filter_some, hleaf]
    cases state.children?.isNone <;> rfl

theorem childAt?_map (h : Everywhere whole each) (inst : StructInstance) (place : Nat × Nat) :
    (whole inst).childAt? place = (inst.childAt? place).map whole := by
  unfold childAt?
  rw [h.fields_eq, List.getElem?_map]
  cases inst.fields[place.1]? with
  | none => rfl
  | some state =>
    change ((each state).children?.bind (·[place.2]?)) = (state.children?.bind (·[place.2]?)).map whole
    rw [h.children?_eq]
    cases state.children? with
    | none => rfl
    | some list => exact List.getElem?_map

/-- A change of every field, on all levels, changes every leaf. -/
theorem leafAt?_map (h : Everywhere whole each) (inst : StructInstance) (spot : Spot) :
    (whole inst).leafAt? spot = (inst.leafAt? spot).map each := by
  obtain ⟨way, index⟩ := spot
  induction way generalizing inst with
  | nil => exact ownLeaf?_map h inst index
  | cons place rest ih =>
    rw [leafAt?_nested, leafAt?_nested, childAt?_map h]
    cases inst.childAt? place with
    | none => rfl
    | some child => exact ih child

end

theorem everywhere_core : Everywhere core FieldState.core where
  schema_eq := schema_core
  fields_eq inst := by
    obtain ⟨schema, fields, attached⟩ := inst
    rw [core]
    exact eq_map_of_cons (by rw [coreAll]) (fun _ _ => by rw [coreAll]) fields
  children?_eq state := by
    obtain ⟨contents, dirty, location, unit⟩ := state
    cases contents with
    | values list | handles list =>
      rw [FieldState.core]
      rfl
    | children list =>
      have hall : coreChildren list = list.map core :=
        eq_map_of_cons (by rw [coreChildren]) (fun _ _ => by rw [coreChildren]) list
      rw [FieldState.core, hall]
      rfl

theorem everywhere_attach : Everywhere attach FieldState.attach where
  schema_eq inst := by
    obtain ⟨schema, fields, attached⟩ := inst
    rw [attach]
  fields_eq inst := by
    obtain ⟨schema, fields, attached⟩ := inst
    rw [attach]
    exact eq_map_of_cons (by rw [attachFields]) (fun _ _ => by rw [attachFields]) fields
  children?_eq state := by
    obtain ⟨contents, dirty, location, unit⟩ := state
    cases contents with
    | values list | handles list =>
      rw [FieldState.attach]
      rfl
    | children list =>
      have hall : attachChildren list = list.map attach :=
        eq_map_of_cons (by rw [attachChildren]) (fun _ _ => by rw [attachChildren]) list
      rw [FieldState.attach, hall]
      rfl

theorem everywhere_setClean : Everywhere setClean FieldState.setClean where
  schema_eq := schema_setClean
  fields_eq inst := by
    obtain ⟨schema, fields, attached⟩ := inst
    rw [setClean]
    exact eq_map_of_cons (by rw [cleanFields]) (fun _ _ => by rw [cleanFields]) fields
  children?_eq state := by
    obtain ⟨contents, dirty, location, unit⟩ := state
    cases contents with
    | values list | handles list =>
      rw [FieldState.setClean]
      rfl
    | children list =>
      have hall : cleanChildren list = list.map setClean :=
        eq_map_of_cons (by rw [cleanChildren]) (fun _ _ => by rw [cleanChildren]) list
      rw [FieldState.setClean, hall]
      rfl

end StructInstance

end UniformLayout
