import UniformLayout.Proofs.Instance.Changes
import UniformLayout.Proofs.Instance.Order

/-!
# What a list of changes says

Each change names its element by a path that the accessors take, and says which bytes of the image
are the element's (`Listed`). Where the names of fields are identifiers and differ on every level, a
path belongs to one element only. So there is one change for each dirty element.

* `Leads.cells_split`: the cells of a nested instance.
* `listed_of_reports`: what a report says.
* `Listed.element_inj`: paths tell elements apart.

Main statement: `StructInstance.lists_dirtyFields`.
-/

namespace UniformLayout

/-- The names of the fields are identifiers, on every level of nesting. -/
inductive TypeSchema.FieldsNamed : TypeSchema → Prop
  | intro {schema : TypeSchema} (names : ∀ field ∈ schema.fields, IsIdentifier field.name)
      (nested : ∀ field ∈ schema.fields, ∀ inner, field.kind = .aggregate inner →
        inner.FieldsNamed) : TypeSchema.FieldsNamed schema

/-- The bytes of an element, where the image has them: of the value that it holds, or of the unit of
its handle. -/
def StructInstance.ShowsElement (image : Image) (child : StructInstance) (field : FieldSchema)
    (index : Nat) (change : DirtyField) : Prop :=
  (∃ value, child.get field.name (field.elementIndex index) = .ok value ∧
    change.size = value.baseType.size ∧
    ∀ i < change.size, image[change.offset + i]? = some (value.std140Byte i)) ∨
  (∃ handle unit, child.handle field.name index = .ok handle ∧
    child.textureUnit field.name index = .ok unit ∧ change.size = 4 ∧
    ∀ i < change.size, image[change.offset + i]? = some (Image.byteAt (unit.getD 0) i))

/-- The change names an element of a field of the instance that steps lead to, and says where it
is. -/
structure Listed (inst : StructInstance) (image : Image) (steps : List PathStep)
    (child : StructInstance) (view : FieldView) (element : Spot × Nat) (change : DirtyField) :
    Prop where
  leads : inst.descend steps = .ok child
  found : child.lookup view.schema.name = .ok view
  spot : inst.spot? steps view.schema.name = some element.1
  bound : element.2 < view.schema.length
  path : change.path = pathText ⟨view.schema.name, view.schema.elementIndex element.2⟩ steps
  range : ∃ start, inst.schema.nested? steps = some (start, child.schema) ∧
    change.range = view.schema.elementRange start element.2
  location : change.location = view.state.location.map (· + element.2)
  shown : StructInstance.ShowsElement image child view.schema element.2 change

/-- The change lists the element. -/
def StructInstance.Lists (inst : StructInstance) (image : Image) (element : Spot × Nat)
    (change : DirtyField) : Prop :=
  ∃ steps child view, Listed inst image steps child view element change

namespace StructInstance

variable {inst child found : StructInstance} {image : Image} {steps : List PathStep} {way : Way}
  {offset : Nat}

/-! ## Where the bytes are -/

/-- The cells of a nested instance are among those of the whole one. -/
theorem Leads.cells_split (h : inst.Leads steps way offset found) (base : Nat) :
    ∃ front back, inst.cells base = front ++ found.cells (base + offset) ++ back := by
  induction h generalizing base with
  | here inst => exact ⟨[], [], by simp⟩
  | @into inst child found field state list position index offset steps way schemaAt stateAt held
      childAt _ ih =>
    obtain ⟨front, back, hstates, -⟩ := cellsOfStates_split schemaAt stateAt base
    obtain ⟨left, right, hchildren, -⟩ :=
      cellsOfChildren_split childAt field.stride (base + field.offset)
    obtain ⟨before, after, hchild⟩ := ih (base + field.elementOffset index)
    have hstate : state.cells (base + field.offset) field.stride =
        left ++ child.cells (base + field.elementOffset index) ++ right := by
      obtain ⟨contents, dirty, location, unit⟩ := state
      obtain rfl : contents = .children list := held
      rw [FieldState.cells, hchildren]
      unfold FieldSchema.elementOffset
      rw [Nat.add_assoc]
    refine ⟨front ++ left ++ before, after ++ right ++ back, ?_⟩
    rw [cells_eq, hstates, hstate, hchild, Nat.add_assoc]
    simp only [List.append_assoc]

/-- The cell of an element of a leaf field. -/
theorem exists_cell {position index : Nat} {field : FieldSchema} {state : FieldState}
    {contents : List LeafContent} {content : LeafContent} {flag : Bool}
    (hfield : inst.schema.fields[position]? = some field)
    (hstate : inst.fields[position]? = some state) {base : Nat}
    (hcells : state.cells (base + field.offset) field.stride =
      cellsFrom field.stride (base + field.offset) state.location contents state.dirty)
    (hc : contents[index]? = some content) (hf : state.dirty[index]? = some flag) :
    ∃ own, ⟨base + field.elementOffset index, content, flag, own⟩ ∈ inst.cells base := by
  obtain ⟨front, back, hsplit, -⟩ := cellsOfStates_split hfield hstate base
  obtain ⟨left, right, own, hown, -⟩ :=
    cellsFrom_split hc hf field.stride (base + field.offset) state.location
  refine ⟨own, ?_⟩
  rw [cells_eq, hsplit, hcells, hown]
  unfold FieldSchema.elementOffset
  rw [Nat.add_assoc]
  simp

/-- The image has the bytes of an element of a leaf field, where the report says. -/
theorem Leads.getElem?_image (hl : inst.Leads steps way offset found) (hshows : inst.Shows image)
    (hf : inst.Flagged) {position index : Nat} {field : FieldSchema} {state : FieldState}
    {contents : List LeafContent} {content : LeafContent} {flag : Bool} {path : String}
    (hfield : found.schema.fields[position]? = some field)
    (hstate : found.fields[position]? = some state)
    (hcells : ∀ base stride, state.cells base stride =
      cellsFrom stride base state.location contents state.dirty)
    (hc : contents[index]? = some content) (hflag : state.dirty[index]? = some flag)
    (hsize : field.elementSize = content.size) {i : Nat}
    (hi : i < (field.report path (0 + offset) index state.location).size) :
    image[(field.report path (0 + offset) index state.location).offset + i]? =
      some (content.byte i) := by
  obtain ⟨own, hm⟩ := exists_cell hfield hstate (hcells (0 + offset + field.offset) field.stride)
    hc hflag
  obtain ⟨front, back, hsplit⟩ := hl.cells_split 0
  have hwhole : _ ∈ inst.cells 0 :=
    hsplit ▸ List.mem_append_left back (List.mem_append_right front hm)
  exact hshows.getElem?_of_cell hf hwhole (Nat.lt_of_lt_of_eq hi hsize)

/-- The image shows a reported element where the report says. -/
theorem showsElement_of_leads (hshows : inst.Shows image) (ht : inst.Typed) (hf : inst.Flagged)
    (hl : inst.Leads steps way offset found) {position index : Nat} {field : FieldSchema}
    {state : FieldState} (hfield : found.schema.fields[position]? = some field)
    (hown : found.ownLeaf? position = some state) (hflag : state.dirty[index]? = some true)
    (hv : found.lookup field.name = .ok ⟨position, field, state⟩) (path : String) :
    index < field.length ∧ ShowsElement image found field index
      (field.report path (0 + offset) index state.location) := by
  obtain ⟨hstate, hleaf⟩ := ownLeaf?_eq_some.1 hown
  have hfieldTyped := (typed_iff.1 (hl.typed ht)).state hfield hstate
  have hstateFlagged := (hl.flagged hf).ownLeaf hown
  have himage := @Leads.getElem?_image inst found image steps way offset hl hshows hf position index
    field state
  obtain ⟨hlt, -⟩ := List.getElem?_eq_some_iff.1 hflag
  obtain ⟨contents, dirty, location, unit⟩ := state
  cases contents with
  | children list => cases hleaf
  | values list =>
    rw [FieldState.Typed] at hfieldTyped
    rw [FieldState.Flagged] at hstateFlagged
    obtain ⟨hlength, type, hk, hall⟩ := hfieldTyped
    have hbound : index < list.length := hstateFlagged ▸ hlt
    have hvalue := List.getElem?_eq_getElem hbound
    have hsize : field.elementSize = list[index].baseType.size := by
      rw [field.elementSize_of_value hk, (hall _ (List.getElem_mem hbound)).1]
    refine ⟨hlength ▸ hbound, .inl ⟨list[index], ?_, hsize, fun i hi => ?_⟩⟩
    · unfold get
      rw [hv]
      simp only [ok_bind, FieldSchema.position_elementIndex (hlength ▸ hbound), hvalue]
      rfl
    · have hcontent : (list.map LeafContent.value)[index]? = some (.value list[index]) := by
        rw [List.getElem?_map, hvalue, Option.map_some]
      exact himage hfield hstate (fun base stride => by rw [FieldState.cells]) hcontent hflag hsize
        hi
  | handles list =>
    rw [FieldState.Typed] at hfieldTyped
    rw [FieldState.Flagged] at hstateFlagged
    obtain ⟨hlength, kind, hk⟩ := hfieldTyped
    have hbound : index < list.length := hstateFlagged ▸ hlt
    have hsize := field.elementSize_of_handle hk
    have hcheck : field.checkBounds index = .ok () := by
      unfold FieldSchema.checkBounds
      rw [if_pos (hlength ▸ hbound)]
    refine ⟨hlength ▸ hbound, .inr ⟨list[index], unit.map (· + index), ?_, ?_, hsize,
      fun i hi => ?_⟩⟩
    · unfold StructInstance.handle
      rw [hv]
      simp only [ok_bind, hcheck, List.getElem?_eq_getElem hbound]
      rfl
    · unfold textureUnit
      rw [hv]
      simp only [ok_bind, hcheck]
      rfl
    · have hcontent : ((unitsFrom unit list.length).map LeafContent.handle)[index]? =
          some (.handle (unit.map (· + index))) := by
        simp [unitsFrom, hbound]
      exact himage hfield hstate (fun base stride => by rw [FieldState.cells]) hcontent hflag hsize
        hi

theorem listed_of_reports {spot : Spot} {index : Nat} {change : DirtyField}
    (hshows : inst.Shows image) (ht : inst.Typed) (hf : inst.Flagged)
    (hn : inst.schema.FieldsApart) (h : inst.Reports "" 0 spot index change) :
    inst.Lists image (spot, index) change := by
  obtain ⟨steps, offset, found, field, state, hleads, hfield, hown, hflag, rfl⟩ := h
  obtain ⟨hd, hway, hnested, hapart⟩ := hleads.reached ht hn
  obtain ⟨hstate, -⟩ := ownLeaf?_eq_some.1 hown
  obtain ⟨names, -⟩ := hapart
  have hv := lookup_at names hfield hstate
  obtain ⟨hbound, hshown⟩ := showsElement_of_leads hshows ht hf hleads hfield hown hflag hv
    ("" ++ pathText ⟨field.name, field.elementIndex index⟩ steps)
  refine ⟨steps, found, ⟨spot.index, field, state⟩, hd, hv, ?_, hbound, String.empty_append,
    ⟨offset, hnested, ?_⟩, rfl, hshown⟩
  · unfold spot?
    rw [hway, hd]
    simp [Except.toOption, hv]
  · unfold DirtyField.range FieldSchema.report FieldSchema.elementRange
    rw [Nat.zero_add]

/-! ## Paths tell elements apart -/

/-- The steps that can be made are named by identifiers. -/
theorem identifiers_of_descend (ht : inst.Typed) (hi : inst.schema.FieldsNamed)
    (hd : inst.descend steps = .ok child) :
    (∀ step ∈ steps, IsIdentifier step.field) ∧ child.schema.FieldsNamed := by
  induction steps generalizing inst with
  | nil =>
    obtain rfl := Except.ok.inj hd
    exact ⟨by simp, hi⟩
  | cons step rest ih =>
    rw [descend] at hd
    obtain ⟨⟨view, list, index, held⟩, hfind, hd⟩ := bind_eq_ok_iff.1 hd
    obtain ⟨hv, hcontents, hchild⟩ := findChild_eq_ok hfind
    obtain ⟨-, hfield, hstate⟩ := lookup_eq_ok hv
    obtain ⟨-, hk, htyped⟩ := ht.child_of_field hfield hstate hcontents hchild
    obtain ⟨names, nested⟩ := hi
    have hm := List.mem_of_getElem? hfield
    obtain ⟨hrest, hnamed⟩ := ih htyped (nested view.schema hm _ hk) hd
    refine ⟨List.forall_mem_cons.2 ⟨?_, hrest⟩, hnamed⟩
    rw [← name_of_lookup hv]
    exact names view.schema hm

end StructInstance

theorem FieldSchema.elementIndex_inj {field : FieldSchema} {index other : Nat}
    (hi : index < field.length) (ho : other < field.length)
    (h : field.elementIndex index = field.elementIndex other) : index = other := by
  unfold elementIndex at h
  unfold length at hi ho
  split at h
  · exact Option.some.inj h
  · rename_i harray
    unfold isArray at harray
    rw [Option.not_isSome_iff_eq_none.1 harray, Option.elim_none] at hi ho
    omega

/-- Two elements that are listed with one path are the same. -/
theorem Listed.element_inj {inst child other : StructInstance} {image : Image}
    {steps others : List PathStep} {view found : FieldView} {element twin : Spot × Nat}
    {change same : DirtyField} (ht : inst.Typed) (hi : inst.schema.FieldsNamed)
    (h : Listed inst image steps child view element change)
    (k : Listed inst image others other found twin same) (hp : change.path = same.path) :
    element = twin := by
  have hident : ∀ {steps : List PathStep} {child : StructInstance} {view : FieldView}
      {element : Spot × Nat} {change : DirtyField},
      Listed inst image steps child view element change →
        (∀ step ∈ steps, IsIdentifier step.field) ∧ IsIdentifier view.schema.name := by
    intro steps child view element change h
    obtain ⟨hsteps, ⟨names, -⟩⟩ := StructInstance.identifiers_of_descend ht hi h.leads
    obtain ⟨-, hfield, -⟩ := StructInstance.lookup_eq_ok h.found
    exact ⟨hsteps, names _ (List.mem_of_getElem? hfield)⟩
  obtain ⟨hsteps, hname⟩ := hident h
  obtain ⟨hothers, hname'⟩ := hident k
  rw [h.path, k.path] at hp
  obtain ⟨rfl, hlast⟩ := pathText_inj hname hname' hsteps hothers hp
  obtain ⟨hsame, hindex⟩ := PathStep.mk.inj hlast
  obtain rfl := Except.ok.inj (h.leads.symm.trans k.leads)
  have hfound := h.found
  rw [hsame] at hfound
  obtain rfl := Except.ok.inj (hfound.symm.trans k.found)
  exact Prod.ext (Option.some.inj (h.spot.symm.trans k.spot))
    (FieldSchema.elementIndex_inj h.bound k.bound hindex)

namespace StructInstance

variable {inst found : StructInstance} {image : Image} {steps : List PathStep} {way : Way}
  {offset : Nat}

/-! ## One change for each dirty element -/

/-- Positions determine what lies at them. -/
theorem Leads.unique {other : StructInstance} {others : List PathStep} {start : Nat}
    (h : inst.Leads steps way offset found) (k : inst.Leads others way start other) :
    steps = others ∧ offset = start ∧ found = other := by
  induction h generalizing others start with
  | here inst =>
    cases k
    exact ⟨rfl, rfl, rfl⟩
  | into schemaAt stateAt held childAt _ ih =>
    cases k with
    | into schemaAt' stateAt' held' childAt' rest' =>
      obtain rfl := Option.some.inj (schemaAt.symm.trans schemaAt')
      obtain rfl := Option.some.inj (stateAt.symm.trans stateAt')
      obtain rfl := FieldContents.children.inj (held.symm.trans held')
      obtain rfl := Option.some.inj (childAt.symm.trans childAt')
      obtain ⟨rfl, rfl, rfl⟩ := ih rest'
      exact ⟨rfl, rfl, rfl⟩

theorem Reports.unique {above : String} {base : Nat} {spot : Spot} {index : Nat}
    {change other : DirtyField} (h : inst.Reports above base spot index change)
    (k : inst.Reports above base spot index other) : change = other := by
  obtain ⟨steps, offset, found, field, state, hleads, hfield, hown, -, rfl⟩ := h
  obtain ⟨others, start, inner, last, held, kleads, klast, kown, -, rfl⟩ := k
  obtain ⟨rfl, rfl, rfl⟩ := hleads.unique kleads
  obtain rfl := Option.some.inj (hfield.symm.trans klast)
  obtain rfl := Option.some.inj (hown.symm.trans kown)
  rfl

/-- Each dirty element has one change, in the order of the image, and its path names no other. -/
theorem lists_dirtyFields (hk : inst.schema.Kinded) (ha : inst.schema.FieldsApart)
    (hi : inst.schema.FieldsNamed) (ho : inst.schema.InOrder) (ht : inst.Typed) (hf : inst.Flagged)
    (hshows : inst.Shows image) :
    ∃ elements : List (Spot × Nat), elements.Nodup ∧
      (∀ element, element ∈ elements ↔ inst.dirtyAt element.1 element.2 = true) ∧
      List.Forall₂ (inst.Lists image) elements inst.dirtyFields ∧
      (inst.dirtyFields.map DirtyField.path).Nodup := by
  let Names (element : Spot × Nat) (change : DirtyField) : Prop :=
    inst.Reports "" 0 element.1 element.2 change
  have hlisted : ∀ {element change}, Names element change → inst.Lists image element change :=
    fun h => listed_of_reports hshows ht hf ha h
  have hpath : ∀ {element twin change same}, Names element change → Names twin same →
      change.path = same.path → element = twin := by
    intro element twin change same h k hp
    obtain ⟨steps, child, view, hl⟩ := hlisted h
    obtain ⟨others, other, found, hm⟩ := hlisted k
    exact hl.element_inj ht hi hm hp
  have hchange : ∀ {element change same}, Names element change → Names element same →
      change = same := fun h k => h.unique k
  have hreports : ∀ change ∈ inst.dirtyFields, ∃ element, Names element change := by
    intro change hm
    obtain ⟨spot, index, h⟩ := (mem_dirtyFields_iff hk ht).1 hm
    exact ⟨(spot, index), h⟩
  obtain ⟨elements, hnames⟩ := exists_forall₂ hreports
  have hnames := hnames.flip
  have hchanges : inst.dirtyFields.Nodup := by
    refine (ascending_dirtyFields ht hf ho).imp fun {before after} hlt heq => ?_
    rw [heq] at hlt
    exact Nat.lt_irrefl _ hlt
  have hunique : Relator.BiUnique Names :=
    ⟨fun _ _ _ h k => hpath h k rfl, fun _ _ _ h k => hchange h k⟩
  refine ⟨elements, (List.rel_nodup hunique hnames).2 hchanges, fun element => ?_,
    hnames.imp fun _ _ h => hlisted h, ?_⟩
  · rw [exists_reports_iff ht hf]
    constructor
    · intro hm
      obtain ⟨change, -, h⟩ := exists_of_mem_left hnames hm
      exact ⟨change, h⟩
    · rintro ⟨change, h⟩
      have hm := (mem_dirtyFields_iff hk ht).2 ⟨element.1, element.2, h⟩
      obtain ⟨twin, hm, k⟩ := exists_of_mem_left hnames.flip hm
      rwa [hpath h k rfl]
  · refine hchanges.map_on fun change hm other ho hp => ?_
    obtain ⟨element, h⟩ := hreports change hm
    obtain ⟨twin, k⟩ := hreports other ho
    obtain rfl := hpath h k hp
    exact hchange h k

end StructInstance

end UniformLayout
