import UniformLayout.Proofs.Instance.InPlace
import UniformLayout.Proofs.Instance.Spots

/-!
# What accessors change, and what they leave alone

An element of a leaf field has a spot and an index. An accepted write changes what is stored in one
element and sets its dirty flag, and a location belongs to all elements of one leaf; whatever the
instance has for any other element of any leaf stays as it is (`Touches`). A refused call changes
nothing, and the registrar does not hear of it. This holds after any calls.

* `touches_setState`: a change of one field of an instance.
* `Touches.along`: the same at the end of a path.
* `set_obeyed`, `setHandle_obeyed`, `locate_obeyed`: the accessors one by one.
* `Site.Sound.run`: what calls keep.

Main statement: `accessors_obeyed`.
-/

namespace UniformLayout

/-! ## Elements -/

/-- What an element of a leaf field holds: a value, or the handle that was stored in it. -/
inductive ElementContent where
  | value (value : UniformValue)
  | handle (handle : Option TextureHandle)

/-- All that an instance has for an element of a leaf field. Location and unit are those of the
field. -/
structure LeafElement where
  content : ElementContent
  dirty : Bool
  location : Option Nat
  unit : Option Nat

namespace LeafElement

/-- The element after a write. -/
def take (content : ElementContent) (element : LeafElement) : LeafElement :=
  { element with content, dirty := true }

def locate (location : Nat) (element : LeafElement) : LeafElement :=
  { element with location := some location }

def clean (element : LeafElement) : LeafElement :=
  { element with dirty := false }

end LeafElement

def FieldState.element? (index : Nat) : FieldState → Option LeafElement
  | ⟨.values list, dirty, location, unit⟩ => do
    return ⟨.value (← list[index]?), ← dirty[index]?, location, unit⟩
  | ⟨.handles list, dirty, location, unit⟩ => do
    return ⟨.handle (← list[index]?), ← dirty[index]?, location, unit⟩
  | _ => none

namespace StructInstance

/-- The element of a leaf field at a spot. -/
def elementAt? (spot : Spot) (index : Nat) (inst : StructInstance) : Option LeafElement :=
  (inst.leafAt? spot).bind (·.element? index)

/-- The spot of the field with the given name in the instance at the end of a path. -/
def spot? (path : List PathStep) (name : String) (inst : StructInstance) : Option Spot := do
  let way ← inst.way? path
  let child ← (inst.descend path).toOption
  let view ← (child.lookup name).toOption
  return ⟨way, view.index⟩

end StructInstance

/-- The elements with the given indices change at one spot, and nothing else does. -/
structure Touches (spot : Spot) (indices : Nat → Prop) (change : LeafElement → LeafElement)
    (before after : StructInstance) : Prop where
  there : ∀ index, indices index →
    after.elementAt? spot index = (before.elementAt? spot index).map change
  elsewhere : ∀ (other : Spot) (index : Nat), ¬ (other = spot ∧ indices index) →
    after.elementAt? other index = before.elementAt? other index

namespace StructInstance

variable {inst child next after : StructInstance} {path : List PathStep} {way : Way}
  {name : String} {view : FieldView} {indices : Nat → Prop} {change : LeafElement → LeafElement}

theorem ownLeaf?_of_lookup (hv : inst.lookup name = .ok view)
    (hleaf : view.state.children? = none) : inst.ownLeaf? view.index = some view.state := by
  obtain ⟨-, -, hstate⟩ := lookup_eq_ok hv
  unfold ownLeaf?
  rw [hstate]
  simp [hleaf]

/-- The state of a leaf field changes. -/
theorem touches_setState (hv : inst.lookup name = .ok view) {state : FieldState}
    (hleaf : view.state.children? = none) (hstays : state.children? = none)
    (hchange : ∀ index, indices index →
      state.element? index = (view.state.element? index).map change)
    (hkeep : ∀ index, ¬ indices index → state.element? index = view.state.element? index) :
    Touches ⟨[], view.index⟩ indices change inst (inst.setState view.index state) := by
  obtain ⟨-, -, hstate⟩ := lookup_eq_ok hv
  have hlt := (List.getElem?_eq_some_iff.1 hstate).1
  have hbefore := ownLeaf?_of_lookup hv hleaf
  have hafter : (inst.setState view.index state).ownLeaf? view.index = some state := by
    rw [ownLeaf?_setState hlt, if_pos rfl]
    simp [hstays]
  refine ⟨fun index hi => ?_, fun other index hn => ?_⟩
  · unfold elementAt?
    rw [leafAt?_own, leafAt?_own, hbefore, hafter]
    exact hchange index hi
  · obtain ⟨way, position⟩ := other
    cases way with
    | nil =>
      unfold elementAt?
      rw [leafAt?_own, leafAt?_own]
      by_cases he : position = view.index
      · subst he
        rw [hbefore, hafter]
        exact hkeep index fun hi => hn ⟨rfl, hi⟩
      · rw [ownLeaf?_setState hlt, if_neg he]
    | cons place rest =>
      unfold elementAt?
      rw [leafAt?_nested, leafAt?_nested, childAt?_setState hlt]
      split
      · rename_i he
        have hnone : inst.childAt? place = none := by
          unfold childAt?
          rw [he, hstate]
          simp [hleaf]
        rw [hstays, hnone]
        rfl
      · rfl

/-! ## The accessors -/

theorem elementAt?_own (hv : inst.lookup name = .ok view) (hleaf : view.state.children? = none)
    (index : Nat) : inst.elementAt? ⟨[], view.index⟩ index = view.state.element? index := by
  unfold elementAt?
  rw [leafAt?_own, ownLeaf?_of_lookup hv hleaf]
  rfl

theorem set_obeyed (ht : inst.Typed) (hf : inst.Flagged) {element : Option Nat}
    {value : UniformValue} (h : inst.set name element value = .ok after) :
    ∃ view, inst.lookup name = .ok view ∧ after.get name element = .ok value ∧
      (inst.elementAt? ⟨[], view.index⟩ (element.getD 0)).isSome ∧
      Touches ⟨[], view.index⟩ (· = element.getD 0) (.take (.value value)) inst after := by
  obtain ⟨view, list, hs⟩ := ht.of_set h
  obtain rfl := hs.becomes
  have hflagged := hf.view hs.lookup
  have hown := @elementAt?_own inst name view hs.lookup
  have hlookup := lookup_setState hs.lookup
  have htouches := @touches_setState inst name view (· = element.getD 0)
    (.take (.value value)) hs.lookup
  have hlist := hs.bound
  obtain ⟨viewIndex, schema, ⟨contents, dirty, location, unit⟩⟩ := view
  obtain rfl : contents = .values list := hs.contents
  rw [FieldState.Flagged] at hflagged
  have hdirty : element.getD 0 < dirty.length := hflagged.symm ▸ hlist
  refine ⟨_, hs.lookup, ?_, ?_, htouches rfl rfl ?_ ?_⟩
  · unfold get
    rw [hlookup]
    simp only [ok_bind, hs.position, List.getElem?_set_self hlist]
    rfl
  · rw [hown rfl]
    simp [FieldState.element?, hlist, hdirty]
  · rintro _ rfl
    simp [FieldState.element?, hlist, hdirty, LeafElement.take]
  · intro other hne
    simp [FieldState.element?, List.getElem?_set_ne (Ne.symm hne)]

theorem setHandle_obeyed (ht : inst.Typed) (hf : inst.Flagged) {index : Nat}
    {handle : TextureHandle} {table bound : HandleTable}
    (h : inst.setHandle name index handle table = .ok (after, bound)) :
    ∃ view, inst.lookup name = .ok view ∧ after.handle name index = .ok (some handle) ∧
      (inst.elementAt? ⟨[], view.index⟩ index).isSome ∧
      Touches ⟨[], view.index⟩ (· = index) (.take (.handle (some handle))) inst after := by
  obtain ⟨view, kind, list, hs, -⟩ := ht.of_setHandle h
  obtain rfl := hs.becomes
  have hflagged := hf.view hs.lookup
  have hown := @elementAt?_own inst name view hs.lookup
  have hlookup := lookup_setState hs.lookup
  have htouches := @touches_setState inst name view (· = index)
    (.take (.handle (some handle))) hs.lookup
  have hlist := hs.bound
  obtain ⟨viewIndex, schema, ⟨contents, dirty, location, unit⟩⟩ := view
  obtain rfl : contents = .handles list := hs.contents
  rw [FieldState.Flagged] at hflagged
  have hdirty : index < dirty.length := hflagged.symm ▸ hlist
  refine ⟨_, hs.lookup, ?_, ?_, htouches rfl rfl ?_ ?_⟩
  · unfold StructInstance.handle
    rw [hlookup]
    simp only [ok_bind, hs.checkBounds, List.getElem?_set_self hlist]
    rfl
  · rw [hown rfl]
    simp [FieldState.element?, hlist, hdirty]
  · rintro _ rfl
    simp [FieldState.element?, hlist, hdirty, LeafElement.take]
  · intro other hne
    simp [FieldState.element?, List.getElem?_set_ne (Ne.symm hne)]

theorem locate_obeyed (ht : inst.Typed) {location : Nat}
    (h : inst.locate name location = .ok after) :
    ∃ view, inst.lookup name = .ok view ∧ after.location name = .ok (some location) ∧
      (inst.leafAt? ⟨[], view.index⟩).isSome ∧
      Touches ⟨[], view.index⟩ (fun _ => True) (.locate location) inst after := by
  obtain ⟨view, hv, hkind, rfl⟩ := locate_eq_ok h
  have hleaf := (ht.view hv).children?_eq_none hkind
  refine ⟨view, hv, ?_, ?_,
    touches_setState hv hleaf (FieldState.children?_located hleaf _) ?_ fun _ hn => absurd trivial hn⟩
  · unfold StructInstance.location
    rw [lookup_setState hv]
    rfl
  · rw [leafAt?_own, ownLeaf?_of_lookup hv hleaf]
    rfl
  · intro index _
    obtain ⟨viewIndex, schema, ⟨contents, dirty, own, unit⟩⟩ := view
    cases contents with
    | children list => rfl
    | values list | handles list =>
      cases hc : list[index]? <;> cases hd : dirty[index]? <;>
        simp [FieldState.element?, hc, hd, LeafElement.locate]

end StructInstance

variable {inst child next after : StructInstance} {path : List PathStep} {way rest : Way}

namespace StructInstance.ChangedAt

variable (h : StructInstance.ChangedAt path way inst child next after)
include h

theorem elementAt?_before (position index : Nat) :
    inst.elementAt? ⟨way ++ rest, position⟩ index = child.elementAt? ⟨rest, position⟩ index :=
  congrArg (·.bind (·.element? index)) (h.before rest position)

theorem elementAt?_inside (position index : Nat) :
    after.elementAt? ⟨way ++ rest, position⟩ index = next.elementAt? ⟨rest, position⟩ index :=
  congrArg (·.bind (·.element? index)) (h.inside rest position)

theorem elementAt?_outside {spot : Spot} (hs : ¬ way <+: spot.way) (index : Nat) :
    after.elementAt? spot index = inst.elementAt? spot index :=
  congrArg (·.bind (·.element? index)) (h.outside spot hs)

/-- Whatever can be told of the elements stays if it does so at the end of the path. -/
theorem stays {α : Type} (tell : Option LeafElement → α)
    (hs : ∀ spot index, tell (next.elementAt? spot index) = tell (child.elementAt? spot index))
    (spot : Spot) (index : Nat) :
    tell (after.elementAt? spot index) = tell (inst.elementAt? spot index) := by
  by_cases hp : way <+: spot.way
  · obtain ⟨spotWay, position⟩ := spot
    obtain ⟨tail, rfl⟩ := hp
    rw [h.elementAt?_inside, h.elementAt?_before]
    exact hs ⟨tail, position⟩ index
  · exact congrArg tell (h.elementAt?_outside hp index)

end StructInstance.ChangedAt

/-- Whatever a change leaves of each element stays. -/
theorem Touches.stays {α : Type} {spot : Spot} {indices : Nat → Prop}
    {change : LeafElement → LeafElement} (h : Touches spot indices change inst after)
    (tell : Option LeafElement → α) (hc : ∀ element, tell (element.map change) = tell element)
    (other : Spot) (index : Nat) :
    tell (after.elementAt? other index) = tell (inst.elementAt? other index) := by
  by_cases he : other = spot ∧ indices index
  · obtain ⟨rfl, hi⟩ := he
    rw [h.there index hi, hc]
  · rw [h.elsewhere other index he]

/-- What changes in the instance at the end of a path changes in the whole one. -/
theorem Touches.along {index : Nat} {indices : Nat → Prop} {change : LeafElement → LeafElement}
    (ht : Touches ⟨rest, index⟩ indices change child next)
    (h : StructInstance.ChangedAt path way inst child next after) :
    Touches ⟨way ++ rest, index⟩ indices change inst after := by
  refine ⟨fun other hi => ?_, fun spot other hn => ?_⟩
  · rw [h.elementAt?_inside, h.elementAt?_before]
    exact ht.there other hi
  · by_cases hp : way <+: spot.way
    · obtain ⟨spotWay, position⟩ := spot
      obtain ⟨tail, rfl⟩ := hp
      rw [h.elementAt?_inside, h.elementAt?_before]
      refine ht.elsewhere ⟨tail, position⟩ other fun ⟨he, hi⟩ => hn ⟨?_, hi⟩
      obtain ⟨rfl, rfl⟩ := Spot.mk.inj he
      rfl
    · exact h.elementAt?_outside hp other

/-! ## Calls at the end of a path -/

theorem StructInstance.elementAt?_attach (inst : StructInstance) (spot : Spot) (index : Nat) :
    inst.attach.elementAt? spot index = inst.elementAt? spot index := by
  unfold elementAt?
  rw [leafAt?_map everywhere_attach, Option.bind_map]
  refine congrArg _ (funext fun state => ?_)
  obtain ⟨contents, dirty, location, unit⟩ := state
  cases contents with
  | values list | handles list =>
    dsimp only [Function.comp]
    rw [FieldState.attach]
  | children list =>
    dsimp only [Function.comp]
    rw [FieldState.attach]
    rfl

theorem StructInstance.elementAt?_setClean (inst : StructInstance) (spot : Spot) (index : Nat) :
    inst.setClean.elementAt? spot index = (inst.elementAt? spot index).map LeafElement.clean := by
  unfold elementAt?
  rw [leafAt?_map everywhere_setClean]
  cases inst.leafAt? spot with
  | none => rfl
  | some state =>
    obtain ⟨contents, dirty, location, unit⟩ := state
    rw [Option.map_some, Option.bind_some, Option.bind_some]
    cases contents with
    | values list | handles list =>
      rw [FieldState.setClean]
      simp only [FieldState.element?, List.getElem?_map]
      cases list[index]? <;> cases dirty[index]? <;> rfl
    | children list =>
      rw [FieldState.setClean]
      rfl

/-- The content is written to one element, which is dirty then; all others stay. -/
def Written (path : List PathStep) (name : String) (index : Nat) (content : ElementContent)
    (before after : StructInstance) : Prop :=
  ∃ spot, before.spot? path name = some spot ∧ (before.elementAt? spot index).isSome ∧
    Touches spot (· = index) (.take content) before after

/-- The leaf is given a location; all others stay. -/
def Located (path : List PathStep) (name : String) (location : Nat)
    (before after : StructInstance) : Prop :=
  ∃ spot, before.spot? path name = some spot ∧ (before.leafAt? spot).isSome ∧
    Touches spot (fun _ => True) (.locate location) before after

/-- What an accepted call at the end of a path has done. -/
def InstanceCall.Obeyed (path : List PathStep) (before after : Site) : InstanceCall → Prop
  | .set name element value =>
    Written path name (element.getD 0) (.value value) before.inst after.inst ∧
      (after.inst.descend path >>= (·.get name element)) = .ok value ∧ after.told = before.told
  | .setHandle name element handle =>
    Written path name element (.handle (some handle)) before.inst after.inst ∧
      (after.inst.descend path >>= (·.handle name element)) = .ok (some handle) ∧
      ∃ child, before.inst.descend path = .ok child ∧
        after.told = before.told ++ child.notices name element handle
  | .locate name location =>
    Located path name location before.inst after.inst ∧
      (after.inst.descend path >>= (·.location name)) = .ok (some location) ∧
      after.told = before.told
  | .attach => (∀ spot index, after.inst.elementAt? spot index = before.inst.elementAt? spot index) ∧
      after.told = before.told

theorem StructInstance.ChangedAt.spot?_eq (h : ChangedAt path way inst child next after)
    {name : String} {view : FieldView} (hv : child.lookup name = .ok view) :
    inst.spot? path name = some ⟨way ++ [], view.index⟩ := by
  unfold spot?
  rw [h.takes, h.leads, List.append_nil]
  simp [Except.toOption, hv]

/-- An accepted call does at the end of a path what it does to an instance itself. -/
theorem InstanceCall.obeyed_of_answer {call : InstanceCall} {notices told : List HandleNotice}
    (ht : child.Typed) (hf : child.Flagged) (ha : call.answer child = .ok (next, notices))
    (h : StructInstance.ChangedAt path way inst child next after) :
    call.Obeyed path ⟨inst, told⟩ ⟨after, told ++ notices⟩ := by
  cases call with
  | set name element value =>
    obtain ⟨made, hs, he⟩ := map_eq_ok_iff.1 ha
    obtain ⟨rfl, rfl⟩ := Prod.mk.inj he
    obtain ⟨view, hv, hget, hsome, htouches⟩ := StructInstance.set_obeyed ht hf hs
    exact ⟨⟨_, h.spot?_eq hv, h.elementAt?_before _ _ ▸ hsome, htouches.along h⟩,
      bind_eq_ok_iff.2 ⟨made, h.led, hget⟩, List.append_nil _⟩
  | setHandle name element handle =>
    obtain ⟨⟨made, table⟩, hs, he⟩ := map_eq_ok_iff.1 ha
    obtain ⟨rfl, rfl⟩ := Prod.mk.inj he
    obtain ⟨view, hv, hget, hsome, htouches⟩ := StructInstance.setHandle_obeyed ht hf hs
    exact ⟨⟨_, h.spot?_eq hv, h.elementAt?_before _ _ ▸ hsome, htouches.along h⟩,
      bind_eq_ok_iff.2 ⟨made, h.led, hget⟩, child, h.leads, rfl⟩
  | locate name location =>
    obtain ⟨made, hs, he⟩ := map_eq_ok_iff.1 ha
    obtain ⟨rfl, rfl⟩ := Prod.mk.inj he
    obtain ⟨view, hv, hlocation, hsome, htouches⟩ := StructInstance.locate_obeyed ht hs
    exact ⟨⟨_, h.spot?_eq hv, (congrArg Option.isSome (h.before [] view.index)).trans hsome,
      htouches.along h⟩, bind_eq_ok_iff.2 ⟨made, h.led, hlocation⟩, List.append_nil _⟩
  | attach =>
    obtain ⟨rfl, rfl⟩ := Prod.mk.inj (Except.ok.inj ha)
    exact ⟨h.stays id child.elementAt?_attach, List.append_nil _⟩

/-! ## Any calls -/

theorem FieldState.flagged_congr {state other : FieldState} (h : state.Flagged)
    (hc : other.contents = state.contents) (hd : other.dirty = state.dirty) : other.Flagged := by
  obtain ⟨contents, dirty, location, unit⟩ := state
  obtain ⟨contents', dirty', location', unit'⟩ := other
  obtain rfl : contents' = contents := hc
  obtain rfl : dirty' = dirty := hd
  cases contents' with
  | values list | handles list | children list => exact h

theorem StructInstance.flagged_locate (hf : inst.Flagged) {name : String} {location : Nat}
    (h : inst.locate name location = .ok after) : after.Flagged := by
  obtain ⟨view, hv, -, rfl⟩ := locate_eq_ok h
  exact hf.setState view.index (FieldState.flagged_congr (hf.view hv) rfl rfl)

theorem InstanceCall.changes_of_answer {call : InstanceCall} {notices : List HandleNotice}
    (h : call.answer inst = .ok (next, notices)) : inst.Changes next := by
  have happly := call.apply_eq [] inst
  rw [h] at happly
  exact InstanceCall.changes happly

theorem SiteCall.typed {call : SiteCall} {notices : List HandleNotice} (ht : inst.Typed)
    (h : call.answer inst = .ok (next, notices)) : next.Typed ∧ next.schema = inst.schema := by
  cases call with
  | on call => exact (InstanceCall.changes_of_answer h).typed ht
  | locateAtOffsets =>
    obtain ⟨rfl, -⟩ := Prod.mk.inj (Except.ok.inj h)
    exact StructInstance.Changes.locateAtOffsets.typed ht
  | setClean =>
    obtain ⟨rfl, -⟩ := Prod.mk.inj (Except.ok.inj h)
    exact ⟨inst.typed_setClean.2 ht, inst.schema_setClean⟩

theorem SiteCall.flagged {call : SiteCall} {notices : List HandleNotice} (ht : inst.Typed)
    (hf : inst.Flagged) (h : call.answer inst = .ok (next, notices)) : next.Flagged := by
  cases call with
  | on call =>
    cases call with
    | set name element value =>
      obtain ⟨made, hs, he⟩ := map_eq_ok_iff.1 h
      obtain ⟨rfl, -⟩ := Prod.mk.inj he
      exact (StructInstance.follows_set ht hf hs).1
    | setHandle name element handle =>
      obtain ⟨⟨made, table⟩, hs, he⟩ := map_eq_ok_iff.1 h
      obtain ⟨rfl, -⟩ := Prod.mk.inj he
      exact (StructInstance.follows_setHandle ht hf hs).1
    | locate name location =>
      obtain ⟨made, hs, he⟩ := map_eq_ok_iff.1 h
      obtain ⟨rfl, -⟩ := Prod.mk.inj he
      exact StructInstance.flagged_locate hf hs
    | attach =>
      obtain ⟨rfl, -⟩ := Prod.mk.inj (Except.ok.inj h)
      exact StructInstance.flagged_attach hf
  | locateAtOffsets =>
    obtain ⟨rfl, -⟩ := Prod.mk.inj (Except.ok.inj h)
    rw [← StructInstance.flagged_core, StructInstance.locateAtOffsets, inst.core_locateFrom 0,
      StructInstance.flagged_core]
    exact hf
  | setClean =>
    obtain ⟨rfl, -⟩ := Prod.mk.inj (Except.ok.inj h)
    exact inst.flagged_setClean hf

namespace StructInstance

/-- A child of a typed instance belongs to the schema that its field nests. -/
theorem Typed.child_of_field (ht : inst.Typed) {position index : Nat} {field : FieldSchema}
    {state : FieldState} {list : List StructInstance}
    (hfield : inst.schema.fields[position]? = some field)
    (hs : inst.fields[position]? = some state) (hl : state.contents = .children list)
    (hc : list[index]? = some child) :
    index < field.length ∧ field.kind = .aggregate child.schema ∧ child.Typed := by
  have htyped := (typed_iff.1 ht).state hfield hs
  obtain ⟨contents, dirty, location, unit⟩ := state
  obtain rfl : contents = .children list := hl
  rw [FieldState.Typed] at htyped
  obtain ⟨hlength, inner, hk, hchildren⟩ := htyped
  obtain ⟨rfl, hchild⟩ := hchildren.child hc
  exact ⟨hlength ▸ (List.getElem?_eq_some_iff.1 hc).1, hk, hchild⟩

theorem Flagged.children_of_field (hf : inst.Flagged) {position : Nat} {state : FieldState}
    {list : List StructInstance} (hs : inst.fields[position]? = some state)
    (hl : state.contents = .children list) : ∀ child ∈ list, child.Flagged := by
  have hflagged := statesFlagged_iff.1 (flagged_iff.1 hf) state (List.mem_of_getElem? hs)
  obtain ⟨contents, dirty, location, unit⟩ := state
  obtain rfl : contents = .children list := hl
  rw [FieldState.Flagged] at hflagged
  exact childrenFlagged_iff.1 hflagged

theorem Typed.held (ht : inst.Typed) {step : PathStep} {view : FieldView}
    {list : List StructInstance} {index : Nat}
    (h : inst.findChild step = .ok (view, list, index, child)) : child.Typed := by
  obtain ⟨hv, hcontents, hchild⟩ := findChild_eq_ok h
  obtain ⟨-, hfield, hstate⟩ := lookup_eq_ok hv
  exact (ht.child_of_field hfield hstate hcontents hchild).2.2

theorem Flagged.all (hf : inst.Flagged) {step : PathStep} {view : FieldView}
    {list : List StructInstance} {index : Nat}
    (h : inst.findChild step = .ok (view, list, index, child)) : ∀ other ∈ list, other.Flagged := by
  obtain ⟨hv, hcontents, -⟩ := findChild_eq_ok h
  exact hf.children_of_field (lookup_eq_ok hv).2.2 hcontents

theorem Flagged.held (hf : inst.Flagged) {step : PathStep} {view : FieldView}
    {list : List StructInstance} {index : Nat}
    (h : inst.findChild step = .ok (view, list, index, child)) : child.Flagged :=
  hf.all h child (List.mem_of_getElem? (findChild_eq_ok h).2.2)

theorem sound_descend (ht : inst.Typed) (hf : inst.Flagged) (hd : inst.descend path = .ok child) :
    child.Typed ∧ child.Flagged := by
  induction path generalizing inst with
  | nil =>
    obtain rfl := Except.ok.inj hd
    exact ⟨ht, hf⟩
  | cons step rest ih =>
    rw [descend] at hd
    obtain ⟨⟨view, list, index, held⟩, hfind, hd⟩ := bind_eq_ok_iff.1 hd
    exact ih (ht.held hfind) (hf.held hfind) hd

theorem flagged_updateAt {α : Type}
    {change : StructInstance → Except AccessError (StructInstance × α)}
    (hc : ∀ before next answer, before.Typed → before.Flagged → change before = .ok (next, answer) →
      next.Flagged) {answer : α} (ht : inst.Typed) (hf : inst.Flagged)
    (hu : updateAt change path inst = .ok (after, answer)) : after.Flagged := by
  induction path generalizing inst after with
  | nil => exact hc inst after answer ht hf hu
  | cons step rest ih =>
    rw [updateAt] at hu
    obtain ⟨⟨view, list, index, held⟩, hfind, hu⟩ := bind_eq_ok_iff.1 hu
    obtain ⟨⟨made, given⟩, hr, hu⟩ := bind_eq_ok_iff.1 hu
    obtain ⟨rfl, rfl⟩ := Prod.mk.inj (Except.ok.inj hu)
    have hnext := ih (ht.held hfind) (hf.held hfind) hr
    refine hf.setState view.index ?_
    rw [FieldState.Flagged]
    refine childrenFlagged_iff.2 fun other hm => ?_
    rcases List.mem_or_eq_of_mem_set hm with hm | rfl
    · exact hf.all hfind other hm
    · exact hnext

end StructInstance

namespace Site

/-- Makes a call on the instance at the end of a path. -/
def perform (site : Site) (call : List PathStep × SiteCall) : Site :=
  (InPlace.along call.1 call.2.run site).2

def run (site : Site) (calls : List (List PathStep × SiteCall)) : Site :=
  calls.foldl perform site

/-- The instance belongs to the schema, with all contents of their types and all flags. -/
structure Sound (schema : TypeSchema) (site : Site) : Prop where
  typed : site.inst.Typed
  flagged : site.inst.Flagged
  schema_eq : site.inst.schema = schema

variable {schema : TypeSchema} {site : Site}

theorem Sound.perform (h : site.Sound schema) (call : List PathStep × SiteCall) :
    (site.perform call).Sound schema := by
  obtain ⟨path, call⟩ := call
  unfold Site.perform
  dsimp only
  rw [call.does.along path site]
  cases hu : site.inst.updateAt (fun inst => call.answer inst) path with
  | error e => exact h
  | ok made =>
    obtain ⟨after, notices⟩ := made
    obtain ⟨htyped, hschema⟩ := StructInstance.typed_updateAt
      (fun _ _ _ ht hc => SiteCall.typed ht hc) h.typed hu
    exact ⟨htyped, StructInstance.flagged_updateAt (fun _ _ _ ht hf hc => SiteCall.flagged ht hf hc)
      h.typed h.flagged hu, hschema.trans h.schema_eq⟩

theorem Sound.run (h : site.Sound schema) (calls : List (List PathStep × SiteCall)) :
    (site.run calls).Sound schema := by
  unfold Site.run
  induction calls generalizing site with
  | nil => exact h
  | cons call rest ih => exact ih (h.perform call)

/-- What a path accepts is accepted by the instance at its end. -/
theorem Sound.accepted (h : site.Sound schema) {call : SiteCall} {notices : List HandleNotice}
    (hu : site.inst.updateAt (fun inst => call.answer inst) path = .ok (after, notices)) :
    ∃ way child next, child.Typed ∧ child.Flagged ∧ call.answer child = .ok (next, notices) ∧
      StructInstance.ChangedAt path way site.inst child next after := by
  obtain ⟨way, child, next, ha, hc⟩ := StructInstance.changedAt_of_updateAt hu
  obtain ⟨htyped, hflagged⟩ := StructInstance.sound_descend h.typed h.flagged hc.leads
  exact ⟨way, child, next, htyped, hflagged, ha, hc⟩

end Site

/-- A new instance of the schema, with nothing told. -/
def TypeSchema.site (schema : TypeSchema) : Site := ⟨schema.instantiate, []⟩

theorem Site.sound_new {schema : TypeSchema} (hk : schema.Kinded) : schema.site.Sound schema :=
  ⟨hk.typed_instantiate, hk.startsFresh.flagged, schema.schema_instantiate⟩

/-- A change answers at the end of a path what it answers there. -/
theorem StructInstance.updateAt_map {α β : Type}
    (change : StructInstance → Except AccessError (StructInstance × α)) (view : α → β)
    (path : List PathStep) (inst : StructInstance) :
    updateAt (fun inst => (change inst).map fun made => (made.1, view made.2)) path inst =
      (updateAt change path inst).map fun made => (made.1, view made.2) := by
  induction path generalizing inst with
  | nil => rfl
  | cons step rest ih =>
    rw [updateAt, updateAt]
    cases inst.findChild step with
    | error e => rfl
    | ok found =>
      obtain ⟨field, list, index, child⟩ := found
      rw [ok_bind, ok_bind]
      dsimp only
      rw [ih]
      cases updateAt change rest child <;> rfl

/-- **Accessors.** Take a new instance of a schema that was built of compiled layouts, let it see any
calls, and make one more at the end of a path. If it fails, the instance is as it was and the
registrar has not been told anything. If not, what was stored is read through the same path, the
element is dirty or the leaf has its location, and all else is as it was for every leaf. -/
theorem accessors_obeyed {scope : SchemaScope} {layouts : List StructLayout}
    {layout : StructLayout} {kept after : SchemaTable} {schema : TypeSchema}
    (hb : Built scope layouts kept) (h : layout.toSchema scope kept = .ok (schema, after))
    (calls : List (List PathStep × SiteCall)) (path : List PathStep) (call : InstanceCall) :
    ∃ site outcome next notices, schema.site.run calls = site ∧
      InPlace.along path (SiteCall.on call).run site = (outcome, next) ∧
      next.told = site.told ++ notices ∧
      (∀ table, site.inst.updateAt (call.apply table) path =
        outcome.map fun _ => (next.inst, notices.foldl HandleTable.heed table)) ∧
      (∀ e, outcome = .error e → next = site ∧ notices = []) ∧
      (outcome = .ok () → call.Obeyed path site next) := by
  have hsound := (Site.sound_new (kinded_of_toSchema hb h)).run calls
  generalize schema.site.run calls = site at hsound
  have happly : ∀ table, site.inst.updateAt (call.apply table) path =
      (site.inst.updateAt call.answer path).map fun made =>
        (made.1, made.2.foldl HandleTable.heed table) := by
    intro table
    rw [← StructInstance.updateAt_map]
    exact congrArg (StructInstance.updateAt · path site.inst)
      (funext fun inst => call.apply_eq table inst)
  have hrun := (SiteCall.on call).does.along path site
  change _ = InPlace.settle site (site.inst.updateAt (fun inst => call.answer inst) path) at hrun
  cases hu : site.inst.updateAt (fun inst => call.answer inst) path with
  | error e =>
    rw [hu] at hrun
    refine ⟨site, .error e, site, [], rfl, hrun, (List.append_nil _).symm, fun table => ?_,
      fun _ _ => ⟨rfl, rfl⟩, nofun⟩
    rw [happly, hu]
    rfl
  | ok made =>
    obtain ⟨inst, notices⟩ := made
    rw [hu] at hrun
    refine ⟨site, .ok (), ⟨inst, site.told ++ notices⟩, notices, rfl, hrun, rfl, fun table => ?_,
      nofun, fun _ => ?_⟩
    · rw [happly, hu]
      rfl
    · obtain ⟨way, child, next, ha, hchanged⟩ := StructInstance.changedAt_of_updateAt hu
      obtain ⟨htyped, hflagged⟩ :=
        StructInstance.sound_descend hsound.typed hsound.flagged hchanged.leads
      exact InstanceCall.obeyed_of_answer htyped hflagged ha hchanged

/-- The numbers 1, 2 and 3. -/
def placeValue : UniformValue := ⟨.float, .vector 3, [0x3f800000, 0x40000000, 0x40400000]⟩

/-- A map is bound, the room is cleaned, and a third lamp is asked for, which it does not have. -/
def roomEdits : List (List PathStep × SiteCall) :=
  [([], .on (.setHandle "plan" 0 ⟨7⟩)), ([], .setClean),
    ([⟨"lamps", some 2⟩], .on (.set "position" none placeValue))]

theorem accessors_obeyed_room :
    ∃ layout schema after site next, roomDeclaration.layOut "room" lampTable = .ok layout ∧
      layout.toSchema roomScope [] = .ok (schema, after) ∧ schema.site.run roomEdits = site ∧
      InPlace.along [⟨"lamps", some 1⟩] (SiteCall.on (.set "position" none placeValue)).run site =
        (.ok (), next) ∧
      (InstanceCall.set "position" none placeValue).Obeyed [⟨"lamps", some 1⟩] site next := by
  have hmade : (roomDeclaration.layOut "room" lampTable).toOption.any (fun layout =>
      (layout.toSchema roomScope []).toOption.any fun made =>
        (InPlace.along [⟨"lamps", some 1⟩] (SiteCall.on (.set "position" none placeValue)).run
          (made.1.site.run roomEdits)).1.toOption.isSome) = true := by
    decide +kernel
  obtain ⟨layout, hl, hmade⟩ := exists_ok_of_any hmade
  obtain ⟨⟨schema, after⟩, hs, haccepted⟩ := exists_ok_of_any hmade
  obtain ⟨site, outcome, next, notices, hsite, hrun, -, -, -, hobeyed⟩ :=
    accessors_obeyed .none hs roomEdits [⟨"lamps", some 1⟩] (.set "position" none placeValue)
  rw [hsite, hrun] at haccepted
  cases outcome with
  | error e => cases haccepted
  | ok answer => exact ⟨layout, schema, after, site, next, hl, hs, hsite, hrun, hobeyed rfl⟩

end UniformLayout
