import UniformLayout.Compilation.Emission
import UniformLayout.Proofs.Instance.Changes
import UniformLayout.Proofs.Instance.Order

/-!
# The locations of block members

An instance of a block with a slot starts with each leaf field located at its byte offset. Calls that
give no locations leave them alone, so that no write is refused for want of one, and every change
reports the location of its field and the number of its element behind it. Free uniforms number the
elements of an array in this way. The bytes of an array lie at least `minAlignment` apart, and so the
location is the byte offset of the first element only.

* `StructInstance.Leads.located`: a location is an offset at first.
* `SiteCall.keepsLocations`: what one call keeps.
* `Site.keepsLocations_run`: what all calls keep.
* `StructInstance.AllLocated.updateAt`: what is located accepts writes.

Main statements: `block_locations` and `location_skips_offset`.
-/

namespace UniformLayout

/-! ## Places in a schema -/

/-- Where a nested instance starts in the whole one, and what its schema is. -/
def TypeSchema.placeAt? : Way → TypeSchema → Option (Nat × TypeSchema)
  | [], schema => some (0, schema)
  | place :: rest, schema => do
    let field ← schema.fields[place.1]?
    match field.kind with
    | .aggregate inner => do
      let (start, found) ← placeAt? rest inner
      return (field.elementOffset place.2 + start, found)
    | _ => none

/-- Arrays have aligned strides, on every level of nesting. -/
inductive TypeSchema.Strided : TypeSchema → Prop
  | intro {schema : TypeSchema}
      (stride : ∀ field ∈ schema.fields, ∀ array, field.array = some array →
        minAlignment ∣ array.stride)
      (nested : ∀ field ∈ schema.fields, ∀ inner, field.kind = .aggregate inner → inner.Strided) :
      TypeSchema.Strided schema

theorem strided_step (scope : SchemaScope) :
    scope.Step StructLayout.LaidOut fun _ schema => schema.Strided := by
  rintro layout identity units fields hlaid - - hfields
  have hboth : ∀ field ∈ fields, (∀ array, field.array = some array → minAlignment ∣ array.stride) ∧
      ∀ inner, field.kind = .aggregate inner → inner.Strided := by
    refine forall_of_forall₂ hfields fun field hm schema hb => ⟨fun array ha => ?_, ?_⟩
    · exact minAlignment_dvd_stride hlaid hm (hb.array ▸ ha)
    · have hkind := hb.kind
      generalize field.shape = shape at hkind
      generalize schema.kind = kind at hkind
      cases hkind with
      | handle handle => exact nofun
      | value type hv => exact nofun
      | aggregate hbuilt => exact fun inner he => FieldKind.aggregate.inj he ▸ hbuilt
  exact .intro (fun field hm => (hboth field hm).1) fun field hm => (hboth field hm).2

/-- Behind the first element, no element of an array is as many bytes away as its number says. -/
theorem FieldSchema.elementOffset_eq_iff {field : FieldSchema}
    (hs : ∀ array, field.array = some array → minAlignment ∣ array.stride) {index : Nat}
    (hi : index < field.length) : field.offset + index = field.elementOffset index ↔ index = 0 := by
  unfold elementOffset stride
  unfold length at hi
  cases ha : field.array with
  | none =>
    rw [ha] at hi
    simp only [Option.elim_none] at hi ⊢
    omega
  | some array =>
    obtain ⟨count, hcount⟩ := hs array ha
    rw [Option.elim_some, hcount, Nat.mul_left_comm]
    unfold minAlignment
    rcases Nat.eq_zero_or_pos count with rfl | hpos
    · omega
    · have hle := Nat.le_mul_of_pos_right index hpos
      constructor
      · omega
      · rintro rfl
        rw [Nat.zero_mul]

namespace StructInstance

variable {inst child found : StructInstance} {steps : List PathStep} {way : Way} {start : Nat}

theorem Leads.placeAt?_eq (h : inst.Leads steps way start found) (ht : inst.Typed) :
    inst.schema.placeAt? way = some (start, found.schema) := by
  induction h with
  | here inst => rfl
  | into schemaAt stateAt held childAt _ ih =>
    obtain ⟨-, hk, htyped⟩ := ht.child_of_field schemaAt stateAt held childAt
    simp [TypeSchema.placeAt?, schemaAt, hk, ih htyped]

theorem Leads.strided (h : inst.Leads steps way start found) (ht : inst.Typed)
    (hs : inst.schema.Strided) : found.schema.Strided := by
  induction h with
  | here inst => exact hs
  | into schemaAt stateAt held childAt _ ih =>
    obtain ⟨-, hk, htyped⟩ := ht.child_of_field schemaAt stateAt held childAt
    obtain ⟨-, nested⟩ := hs
    exact ih htyped (nested _ (List.mem_of_getElem? schemaAt) _ hk)

/-! ## Locations -/

/-- The location of the field that an element belongs to, where there is such an element. -/
def locationAt? (spot : Spot) (index : Nat) (inst : StructInstance) : Option (Option Nat) :=
  (inst.elementAt? spot index).map LeafElement.location

/-- Every leaf field is located at its byte offset in the whole instance. -/
def AtOffsets (inst : StructInstance) : Prop :=
  ∀ spot index location, inst.locationAt? spot index = some location →
    ∃ start schema field, inst.schema.placeAt? spot.way = some (start, schema) ∧
      schema.fields[spot.index]? = some field ∧ location = some (start + field.offset)

end StructInstance

theorem FieldState.element?_location {state : FieldState} {index : Nat} {element : LeafElement}
    (h : state.element? index = some element) : element.location = state.location := by
  obtain ⟨contents, dirty, location, unit⟩ := state
  cases contents with
  | children list => cases h
  | values list | handles list =>
    obtain ⟨held, -, h⟩ := Option.bind_eq_some_iff.1 h
    obtain ⟨flag, -, h⟩ := Option.bind_eq_some_iff.1 h
    obtain rfl := Option.some.inj h
    rfl

namespace StructInstance

variable {inst child found next after : StructInstance} {steps : List PathStep} {way : Way}
  {start base : Nat}

theorem schema_locateFrom (base : Nat) (inst : StructInstance) :
    (inst.locateFrom base).schema = inst.schema := by
  obtain ⟨schema, fields, attached⟩ := inst
  rw [locateFrom]

theorem getElem?_locateFieldsFrom {schemas : List FieldSchema} {states : List FieldState}
    {position : Nat} {field : FieldSchema} (hf : schemas[position]? = some field) (base : Nat) :
    (locateFieldsFrom base schemas states)[position]? =
      states[position]?.map (FieldState.locateFrom base field) := by
  induction schemas generalizing states position with
  | nil => cases hf
  | cons schema rest ih =>
    cases states with
    | nil => rw [locateFieldsFrom] <;> simp
    | cons state others =>
      rw [locateFieldsFrom]
      cases position with
      | zero =>
        obtain rfl := Option.some.inj hf
        rfl
      | succ position => exact ih hf

theorem getElem?_locateChildrenFrom (base stride : Nat) (list : List StructInstance) (index : Nat) :
    (locateChildrenFrom base stride list)[index]? =
      list[index]?.map (locateFrom (base + index * stride)) := by
  induction list generalizing base index with
  | nil => rw [locateChildrenFrom]; rfl
  | cons child rest ih =>
    rw [locateChildrenFrom]
    cases index with
    | zero => simp
    | succ index =>
      rw [List.getElem?_cons_succ, List.getElem?_cons_succ, ih, Nat.succ_mul, Nat.add_assoc,
        Nat.add_comm stride]

/-- A location that was given at the offsets of an instance that starts at `base`. -/
theorem Leads.located {made : StructInstance} (h : made.Leads steps way start found)
    (hm : made = inst.locateFrom base) {position : Nat} {field : FieldSchema} {state : FieldState}
    (hfield : found.schema.fields[position]? = some field)
    (hown : found.ownLeaf? position = some state) :
    state.location = some (base + start + field.offset) := by
  have hfields : ∀ (base : Nat) (inst : StructInstance), (inst.locateFrom base).fields =
      locateFieldsFrom base inst.schema.fields inst.fields := by
    rintro base ⟨schema, fields, attached⟩
    rw [locateFrom]
  induction h generalizing inst base with
  | here made =>
    subst hm
    obtain ⟨hstate, hleaf⟩ := ownLeaf?_eq_some.1 hown
    rw [schema_locateFrom] at hfield
    rw [hfields, getElem?_locateFieldsFrom hfield] at hstate
    obtain ⟨⟨contents, dirty, location, unit⟩, -, rfl⟩ := Option.map_eq_some_iff.1 hstate
    cases contents with
    | children list =>
      rw [FieldState.locateFrom] at hleaf
      cases hleaf
    | values list | handles list =>
      rw [FieldState.locateFrom]
      rfl
  | @into made child found holder held list position index start steps way schemaAt stateAt contents
      childAt _ ih =>
    subst hm
    rw [schema_locateFrom] at schemaAt
    rw [hfields, getElem?_locateFieldsFrom schemaAt] at stateAt
    obtain ⟨⟨before, dirty, location, unit⟩, -, rfl⟩ := Option.map_eq_some_iff.1 stateAt
    cases before with
    | values list | handles list =>
      rw [FieldState.locateFrom] at contents
      cases contents
    | children before =>
      rw [FieldState.locateFrom] at contents
      obtain rfl := FieldContents.children.inj contents
      rw [getElem?_locateChildrenFrom] at childAt
      obtain ⟨inner, -, hinner⟩ := Option.map_eq_some_iff.1 childAt
      rw [ih hinner.symm hfield hown]
      unfold FieldSchema.elementOffset
      simp only [Nat.add_assoc]

theorem atOffsets_locateAtOffsets (ht : inst.Typed) : inst.locateAtOffsets.AtOffsets := by
  obtain ⟨htyped, -⟩ := (@Changes.locateAtOffsets inst).typed ht
  intro spot index location h
  obtain ⟨element, he, rfl⟩ := Option.map_eq_some_iff.1 h
  obtain ⟨steps, start, found, field, state, hleads, hfield, hown, helement⟩ :=
    exists_leads_of_elementAt? htyped he
  refine ⟨start, found.schema, field, hleads.placeAt?_eq htyped, hfield, ?_⟩
  rw [FieldState.element?_location helement, hleads.located rfl hfield hown, Nat.zero_add]

/-- The locations of all leaf fields are as they were. -/
def KeepsLocations (before after : StructInstance) : Prop :=
  ∀ spot index, after.locationAt? spot index = before.locationAt? spot index

theorem AtOffsets.keep (h : inst.AtOffsets) (hs : after.schema = inst.schema)
    (hk : KeepsLocations inst after) : after.AtOffsets := by
  intro spot index location hl
  rw [hk] at hl
  rw [hs]
  exact h spot index location hl

theorem AtOffsets.attach (h : inst.AtOffsets) : inst.attach.AtOffsets := by
  refine h.keep ?_ fun spot index =>
    congrArg (Option.map LeafElement.location) (inst.elementAt?_attach spot index)
  obtain ⟨schema, fields, attached⟩ := inst
  rw [StructInstance.attach]

theorem keepsLocations_setClean (inst : StructInstance) : KeepsLocations inst inst.setClean := by
  intro spot index
  unfold locationAt?
  rw [elementAt?_setClean, Option.map_map]
  rfl

end StructInstance

theorem Touches.keepsLocations {spot : Spot} {indices : Nat → Prop} {content : ElementContent}
    {before after : StructInstance} (h : Touches spot indices (.take content) before after) :
    StructInstance.KeepsLocations before after :=
  h.stays (Option.map LeafElement.location) fun element => by rw [Option.map_map]; rfl

/-! ## Calls -/

/-- The call gives locations. All others write, bind or clean. -/
def SiteCall.locates : SiteCall → Bool
  | .on (.locate _ _) | .locateAtOffsets => true
  | _ => false

variable {inst child next after : StructInstance} {path : List PathStep} {way : Way}

/-- An accepted call at the end of a path keeps all locations, if it gives none. -/
theorem SiteCall.keepsLocations {call : SiteCall} {notices : List HandleNotice}
    (ht : child.Typed) (hf : child.Flagged) (ha : call.answer child = .ok (next, notices))
    (hc : StructInstance.ChangedAt path way inst child next after) (hl : call.locates = false) :
    StructInstance.KeepsLocations inst after := by
  cases call with
  | on call =>
    have hobeyed : call.Obeyed path ⟨inst, []⟩ ⟨after, [] ++ notices⟩ :=
      InstanceCall.obeyed_of_answer ht hf ha hc
    cases call with
    | set name element value | setHandle name element handle =>
      obtain ⟨⟨spot, -, -, htouches⟩, -⟩ := hobeyed
      exact htouches.keepsLocations
    | locate name location => cases hl
    | attach =>
      obtain ⟨hsame, -⟩ := hobeyed
      exact fun spot index => congrArg (Option.map LeafElement.location) (hsame spot index)
  | locateAtOffsets => cases hl
  | setClean =>
    obtain ⟨rfl, -⟩ := Prod.mk.inj (Except.ok.inj ha)
    exact hc.stays (Option.map LeafElement.location) child.keepsLocations_setClean

namespace Site

variable {schema : TypeSchema} {site : Site}

theorem keepsLocations_perform (h : site.Sound schema) {call : List PathStep × SiteCall}
    (hl : call.2.locates = false) :
    StructInstance.KeepsLocations site.inst (site.perform call).inst := by
  obtain ⟨path, call⟩ := call
  unfold perform
  dsimp only at hl ⊢
  rw [call.does.along path site]
  cases hu : site.inst.updateAt (fun inst => call.answer inst) path with
  | error e => exact fun _ _ => rfl
  | ok made =>
    obtain ⟨after, notices⟩ := made
    obtain ⟨way, child, next, htyped, hflagged, ha, hc⟩ := h.accepted hu
    exact call.keepsLocations htyped hflagged ha hc hl

/-- Calls that give no locations keep them. -/
theorem keepsLocations_run (h : site.Sound schema) {calls : List (List PathStep × SiteCall)}
    (hl : ∀ call ∈ calls, call.2.locates = false) :
    StructInstance.KeepsLocations site.inst (site.run calls).inst := by
  unfold run
  induction calls generalizing site with
  | nil => exact fun _ _ => rfl
  | cons call rest ih =>
    obtain ⟨hcall, hrest⟩ := List.forall_mem_cons.1 hl
    intro spot index
    exact (ih (h.perform call) hrest spot index).trans (keepsLocations_perform h hcall spot index)

end Site

/-! ## No refusal for want of a location -/

/-- The result is no refusal for want of a location. -/
def AsksNoLocation {α : Type} (result : Except AccessError α) : Prop :=
  ∀ field, result ≠ .error (.unlocatedField field)

namespace AsksNoLocation

variable {α β : Type}

theorem ok (a : α) : AsksNoLocation (.ok a) := by
  rintro _ ⟨⟩

theorem bind {x : Except AccessError α} {f : α → Except AccessError β} (hx : AsksNoLocation x)
    (hf : ∀ a, x = .ok a → AsksNoLocation (f a)) : AsksNoLocation (x >>= f) := by
  intro field he
  rcases bind_eq_error_iff.1 he with he | ⟨a, ha, he⟩
  · exact hx field he
  · exact hf a ha field he

theorem map {x : Except AccessError α} (hx : AsksNoLocation x) (f : α → β) :
    AsksNoLocation (x.map f) := by
  intro field he
  cases x with
  | error e => exact hx field (congrArg Except.error (Except.error.inj he))
  | ok a => cases he

end AsksNoLocation

theorem FieldSchema.asksNoLocation_checkBounds (field : FieldSchema) (element : Nat) :
    AsksNoLocation (field.checkBounds element) := by
  unfold checkBounds
  split
  · rintro _ ⟨⟩
  · rintro _ ⟨⟩

theorem FieldSchema.asksNoLocation_position (field : FieldSchema) (element : Option Nat)
    (wanted : String) : AsksNoLocation (field.position element wanted) := by
  unfold position
  cases element with
  | none =>
    dsimp only
    split
    · rintro _ ⟨⟩
    · rintro _ ⟨⟩
  | some index =>
    refine .bind ?_ fun _ _ => .ok index
    unfold checkElement
    split
    · exact field.asksNoLocation_checkBounds index
    · rintro _ ⟨⟩

namespace StructInstance

theorem asksNoLocation_lookup (inst : StructInstance) (name : String) :
    AsksNoLocation (inst.lookup name) := by
  unfold lookup
  dsimp only
  split
  · rintro _ ⟨⟩
  · rintro _ ⟨⟩

theorem asksNoLocation_findChild (inst : StructInstance) (step : PathStep) :
    AsksNoLocation (inst.findChild step) := by
  unfold findChild
  refine (inst.asksNoLocation_lookup _).bind fun view _ =>
    (view.schema.asksNoLocation_position _ _).bind fun index _ => ?_
  split
  · split
    · rintro _ ⟨⟩
    · rintro _ ⟨⟩
  · rintro _ ⟨⟩

/-- Every leaf field has a location. -/
def AllLocated (inst : StructInstance) : Prop :=
  ∀ spot index location, inst.locationAt? spot index = some location → location ≠ none

theorem AtOffsets.allLocated (h : inst.AtOffsets) : inst.AllLocated := by
  intro spot index location hl
  obtain ⟨start, schema, field, -, -, rfl⟩ := h spot index location hl
  exact Option.some_ne_none _

theorem AllLocated.held (h : inst.AllLocated) {step : PathStep} {view : FieldView}
    {list : List StructInstance} {index : Nat}
    (hf : inst.findChild step = .ok (view, list, index, child)) : child.AllLocated := by
  rintro ⟨way, position⟩ element location hl
  refine h ⟨(view.index, index) :: way, position⟩ element location ?_
  unfold locationAt? elementAt? at hl ⊢
  rw [leafAt?_nested, childAt?_of_findChild hf]
  exact hl

/-- The location of a leaf field is that of each of its elements. -/
theorem locationAt?_own (ht : inst.Typed) (hf : inst.Flagged) {name : String} {view : FieldView}
    (hv : inst.lookup name = .ok view) (hk : ∀ inner, view.schema.kind ≠ .aggregate inner)
    {index : Nat} (hi : index < view.schema.length) :
    inst.locationAt? ⟨[], view.index⟩ index = some view.state.location := by
  have htyped := ht.view hv
  have hflagged := hf.view hv
  have hown := @elementAt?_own inst name view hv
  unfold locationAt?
  obtain ⟨viewIndex, schema, ⟨contents, dirty, location, unit⟩⟩ := view
  cases contents with
  | children list =>
    rw [FieldState.Typed] at htyped
    obtain ⟨-, inner, hinner, -⟩ := htyped
    exact absurd hinner (hk inner)
  | values list | handles list =>
    rw [FieldState.Typed] at htyped
    rw [FieldState.Flagged] at hflagged
    have hlist : index < list.length := htyped.1.symm ▸ hi
    have hdirty : index < dirty.length := hflagged.symm ▸ hlist
    rw [hown rfl]
    simp [FieldState.element?, hlist, hdirty]

/-- An instance whose leaf fields are located accepts writes to all of them. -/
theorem AllLocated.checkLocated (h : inst.AllLocated) (ht : inst.Typed) (hf : inst.Flagged)
    {name : String} {view : FieldView} (hv : inst.lookup name = .ok view)
    (hk : ∀ inner, view.schema.kind ≠ .aggregate inner) {index : Nat}
    (hi : index < view.schema.length) : inst.checkLocated view = .ok () := by
  have hlocated := h _ _ _ (locationAt?_own ht hf hv hk hi)
  unfold StructInstance.checkLocated
  rw [Option.isNone_eq_false_iff.2 (Option.isSome_iff_ne_none.2 hlocated), Bool.and_false]
  rfl

section

variable (h : inst.AllLocated) (ht : inst.Typed) (hf : inst.Flagged)
include h ht hf

theorem AllLocated.set (name : String) (element : Option Nat) (value : UniformValue) :
    AsksNoLocation (inst.set name element value) := by
  unfold StructInstance.set
  refine (inst.asksNoLocation_lookup name).bind fun view hv =>
    (view.schema.asksNoLocation_position _ _).bind fun index hi => ?_
  obtain ⟨-, hlt⟩ := FieldSchema.position_eq_ok hi
  cases haccepts : accepts view.schema value with
  | false => rintro _ ⟨⟩
  | true =>
    have hk := kind_of_accepts haccepts
    simp only [Bool.not_true, Bool.false_eq_true, if_false]
    rw [h.checkLocated ht hf hv (by simp [hk]) hlt, ok_bind]
    split
    · rintro _ ⟨⟩
    · rintro _ ⟨⟩

theorem AllLocated.setHandle (name : String) (element : Nat) (handle : TextureHandle)
    (table : HandleTable) : AsksNoLocation (inst.setHandle name element handle table) := by
  unfold StructInstance.setHandle
  refine (inst.asksNoLocation_lookup name).bind fun view hv => ?_
  split
  · rename_i kind hk
    refine (view.schema.asksNoLocation_checkBounds element).bind fun bounds hb => ?_
    rw [h.checkLocated ht hf hv (by simp [hk]) (FieldSchema.checkBounds_eq_ok hb), ok_bind]
    rintro _ ⟨⟩
  · rintro _ ⟨⟩

theorem AllLocated.answer (call : SiteCall) : AsksNoLocation (call.answer inst) := by
  cases call with
  | on call =>
    cases call with
    | set name element value => exact (h.set ht hf name element value).map _
    | setHandle name element handle => exact (h.setHandle ht hf name element handle []).map _
    | locate name location =>
      refine .map ((inst.asksNoLocation_lookup name).bind fun view _ => ?_) _
      split
      · rintro _ ⟨⟩
      · rintro _ ⟨⟩
    | attach => rintro _ ⟨⟩
  | locateAtOffsets | setClean => rintro _ ⟨⟩

end

/-- A call along any path is not refused for want of a location. -/
theorem AllLocated.updateAt (h : inst.AllLocated) (ht : inst.Typed) (hf : inst.Flagged)
    (call : SiteCall) (path : List PathStep) :
    AsksNoLocation (inst.updateAt (fun inst => call.answer inst) path) := by
  induction path generalizing inst with
  | nil => exact h.answer ht hf call
  | cons step rest ih =>
    rw [StructInstance.updateAt]
    refine (inst.asksNoLocation_findChild step).bind fun found hfind => ?_
    obtain ⟨view, list, index, child⟩ := found
    exact (ih (h.held hfind) (ht.held hfind) (hf.held hfind)).bind fun made _ => .ok _

/-- The change is of an element of the field, in the nested instance that steps lead to and that starts
at `start`. It gives as location the byte offset of the field, with the number of the element behind it.
That is where the bytes of the element are if and only if it is the first one. -/
structure OffsetChange (inst : StructInstance) (change : DirtyField) (steps : List PathStep)
    (start : Nat) (field : FieldSchema) (index : Nat) : Prop where
  leads : ∃ (way : Way) (found : StructInstance) (position : Nat),
    inst.Leads steps way start found ∧ found.schema.fields[position]? = some field
  bound : index < field.length
  path : change.path = pathText ⟨field.name, field.elementIndex index⟩ steps
  offset : change.offset = start + field.elementOffset index
  location : change.location = some (start + field.offset + index)
  own_iff : change.location = some change.offset ↔ index = 0

/-- The dirty element of a leaf field, with the location of the field. -/
theorem Leads.dirty_element (h : inst.Leads steps way start found) (ht : inst.Typed)
    (hf : inst.Flagged) {position index : Nat} {field : FieldSchema} {state : FieldState}
    (hfield : found.schema.fields[position]? = some field)
    (hown : found.ownLeaf? position = some state) (hflag : state.dirty[index]? = some true) :
    index < field.length ∧ inst.locationAt? ⟨way, position⟩ index = some state.location := by
  obtain ⟨hstate, hleaf⟩ := ownLeaf?_eq_some.1 hown
  have hfieldTyped := (typed_iff.1 (h.typed ht)).state hfield hstate
  have hstateFlagged := (h.flagged hf).ownLeaf hown
  obtain ⟨element, helement, -⟩ :=
    (Option.any_eq_true _ _).1 ((FieldState.element?_dirty hstateFlagged hleaf index).2 hflag)
  refine ⟨?_, ?_⟩
  · obtain ⟨hlt, -⟩ := List.getElem?_eq_some_iff.1 hflag
    obtain ⟨contents, dirty, location, unit⟩ := state
    cases contents with
    | children list => cases hleaf
    | values list | handles list =>
      rw [FieldState.Typed] at hfieldTyped
      rw [FieldState.Flagged] at hstateFlagged
      exact hfieldTyped.1 ▸ hstateFlagged ▸ hlt
  · unfold locationAt?
    rw [h.elementAt?_eq hown, helement, Option.map_some, FieldState.element?_location helement]

theorem AtOffsets.change (h : inst.AtOffsets) (hk : inst.schema.Kinded) (hs : inst.schema.Strided)
    (ht : inst.Typed) (hf : inst.Flagged) {change : DirtyField} (hm : change ∈ inst.dirtyFields) :
    ∃ steps start field index, OffsetChange inst change steps start field index := by
  obtain ⟨spot, index, steps, start, found, field, state, hleads, hfield, hown, hflag, rfl⟩ :=
    (mem_dirtyFields_iff hk ht).1 hm
  obtain ⟨hlt, hlocation⟩ := hleads.dirty_element ht hf hfield hown hflag
  obtain ⟨place, schema, own, hplace, hown', hoffset⟩ := h _ _ _ hlocation
  obtain ⟨rfl, rfl⟩ := Prod.mk.inj (Option.some.inj ((hleads.placeAt?_eq ht).symm.trans hplace))
  obtain rfl := Option.some.inj (hfield.symm.trans hown')
  obtain ⟨stride, -⟩ := hleads.strided ht hs
  have hreported : (field.report ("" ++ pathText ⟨field.name, field.elementIndex index⟩ steps)
      (0 + start) index state.location).location = some (start + field.offset + index) := by
    unfold FieldSchema.report
    rw [hoffset]
    rfl
  refine ⟨steps, start, field, index, ⟨spot.way, found, spot.index, hleads, hfield⟩, hlt,
    String.empty_append, congrArg (· + _) (Nat.zero_add start), hreported, ?_⟩
  rw [hreported, Option.some_inj]
  unfold FieldSchema.report
  dsimp only
  rw [Nat.zero_add, Nat.add_assoc, Nat.add_left_cancel_iff]
  exact FieldSchema.elementOffset_eq_iff (stride field (List.mem_of_getElem? hfield)) hlt

end StructInstance

/-- **Locations.** Take a new instance of a block with a slot, whose schema was built of laid out
aggregates, and let it see any calls that give no locations. It refuses no call for want of a location,
and each of its changes gives the location of its field and the number of its element behind it, which
is the byte offset of the element for first elements only. -/
theorem block_locations {scope : SchemaScope} {layouts : List StructLayout} {layout : StructLayout}
    {kept after : SchemaTable} {emitted : EmittedType} {binding : Option Nat}
    {name : Option String} {packing : Packing} (hb : Built scope layouts kept)
    (h : layout.toSchema scope kept = .ok (emitted.schema, after))
    (hl : ∀ other ∈ layout :: layouts, other.LaidOut)
    (hk : emitted.schema.kind = .uniformBlock binding name packing)
    (hs : emitted.bindingSlot.isSome) (calls : List (List PathStep × SiteCall))
    (hc : ∀ call ∈ calls, call.2.locates = false) :
    ∃ site, Site.run ⟨emitted.instantiate, []⟩ calls = site ∧
      (∀ path call, AsksNoLocation (InPlace.along path (SiteCall.run call) site).1) ∧
      ∀ change ∈ site.inst.dirtyFields, ∃ steps start field index,
        StructInstance.OffsetChange site.inst change steps start field index := by
  have hkinded := kinded_of_toSchema hb h
  obtain ⟨hlayout, hrest⟩ := List.forall_mem_cons.1 fun other hm => (hl other hm).throughout
  obtain ⟨hstrided, -⟩ :=
    toSchema_induction (strided_step scope) hlayout (hb.induction (strided_step scope) hrest) h
  have hnew : emitted.instantiate = emitted.schema.instantiate.locateAtOffsets.attach := by
    unfold EmittedType.instantiate
    rw [hk]
    exact if_pos hs
  -- attaching and locating are calls as well
  have hstart : (⟨emitted.instantiate, []⟩ : Site).Sound emitted.schema := by
    rw [hnew]
    exact (Site.sound_new hkinded).run [([], .locateAtOffsets), ([], .on .attach)]
  have hoffsets : emitted.instantiate.AtOffsets := by
    have ht := hkinded.typed_instantiate
    rw [hnew]
    exact (StructInstance.atOffsets_locateAtOffsets ht).attach
  have hkept := Site.keepsLocations_run hstart hc
  have hsound := hstart.run calls
  generalize Site.run ⟨emitted.instantiate, []⟩ calls = site at hkept hsound
  have hat : site.inst.AtOffsets :=
    hoffsets.keep (hsound.schema_eq.trans hstart.schema_eq.symm) hkept
  refine ⟨site, rfl, fun path call => ?_, fun change hm => ?_⟩
  · have hanswer := hat.allLocated.updateAt hsound.typed hsound.flagged call path
    rw [call.does.along path site]
    cases hu : site.inst.updateAt (fun inst => call.answer inst) path with
    | error e =>
      intro field he
      exact hanswer field (hu.trans (congrArg Except.error (Except.error.inj he)))
    | ok made => rintro _ ⟨⟩
  · exact hat.change (hsound.schema_eq ▸ hkinded) (hsound.schema_eq ▸ hstrided) hsound.typed
      hsound.flagged hm

/-! ## A room -/

/-- The room as a block with a slot. -/
def roomBlock (layout : StructLayout) (schema : TypeSchema) : EmittedType where
  declaredName := "Room"
  identity := schema.identity
  descriptor := ⟨schema.identity, layout⟩
  schema
  bindingSlot := some 1

/-- The second lamp is placed, and the second level is set. -/
def levelWrites : List (List PathStep × SiteCall) :=
  [([⟨"lamps", some 1⟩], .on (.set "position" none placeValue)),
    ([], .on (.set "levels" (some 1) ⟨.float, .scalar, [0x3f800000]⟩))]

theorem block_locations_room :
    ∃ layout schema after site, roomDeclaration.layOut "room" lampTable = .ok layout ∧
      layout.LaidOut ∧ layout.toSchema roomScope [] = .ok (schema, after) ∧
      schema.kind = .uniformBlock (some 1) none .std140 ∧
      (∀ call ∈ levelWrites, call.2.locates = false) ∧
      Site.run ⟨(roomBlock layout schema).instantiate, []⟩ levelWrites = site ∧
      (∀ path call, AsksNoLocation (InPlace.along path (SiteCall.run call) site).1) ∧
      ∀ change ∈ site.inst.dirtyFields, ∃ steps start field index,
        StructInstance.OffsetChange site.inst change steps start field index := by
  have hmade : (roomDeclaration.layOut "room" lampTable).toOption.any (fun layout =>
      (layout.toSchema roomScope []).toOption.any fun made =>
        made.1.kind == .uniformBlock (some 1) none .std140) = true := by
    decide +kernel
  obtain ⟨layout, hl, hmade⟩ := exists_ok_of_any hmade
  obtain ⟨⟨schema, after⟩, hs, hkind⟩ := exists_ok_of_any hmade
  have hlaid : layout.LaidOut := .intro lampTable_laidOut hl
  have hquiet : ∀ call ∈ levelWrites, call.2.locates = false := by
    unfold levelWrites
    simp [SiteCall.locates]
  obtain ⟨site, hrun, hanswers, hchanges⟩ :=
    @block_locations roomScope [] layout [] after (roomBlock layout schema) _ _ _ .none hs
      (by simpa using hlaid) (eq_of_beq hkind) rfl levelWrites hquiet
  exact ⟨layout, schema, after, site, hl, hlaid, hs, eq_of_beq hkind, hquiet, hrun, hanswers,
    hchanges⟩

/-- The second level of the room has its byte at 112, and is reported at location 97. -/
theorem location_skips_offset :
    ∃ layout schema after, roomDeclaration.layOut "room" lampTable = .ok layout ∧
      layout.toSchema roomScope [] = .ok (schema, after) ∧
      ∃ change ∈ (Site.run ⟨(roomBlock layout schema).instantiate, []⟩ levelWrites).inst.dirtyFields,
        change.path = "levels[1]" ∧ change.offset = 112 ∧ change.location = some 97 := by
  have hmade : (roomDeclaration.layOut "room" lampTable).toOption.any (fun layout =>
      (layout.toSchema roomScope []).toOption.any fun made =>
        (Site.run ⟨(roomBlock layout made.1).instantiate, []⟩ levelWrites).inst.dirtyFields.any
          fun change => decide (change.path = "levels[1]" ∧ change.offset = 112 ∧
            change.location = some 97)) = true := by
    decide +kernel
  obtain ⟨layout, hl, hmade⟩ := exists_ok_of_any hmade
  obtain ⟨⟨schema, after⟩, hs, hchange⟩ := exists_ok_of_any hmade
  obtain ⟨change, hm, hsays⟩ := List.any_eq_true.1 hchange
  exact ⟨layout, schema, after, hl, hs, change, hm, of_decide_eq_true hsays⟩

end UniformLayout
