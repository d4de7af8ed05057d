import UniformLayout.Proofs.Instance.Reached
import UniformLayout.Proofs.Instance.Upload

/-!
# A staging buffer follows its instance

A `Mirror` is an instance with the buffer that it is synchronized with, and the bytes of all elements
that were written so far. Every call keeps it `Valid`: what was written and has not changed since the
last synchronization stands in the buffer as in the image, and what was never written is zero.

* `Mirror.Valid.perform`, `Mirror.Valid.run`: one call, and any number of calls.
* `mirror_in_step`: after a synchronization the buffer shows everything that was written.
-/

namespace UniformLayout

open ByteRange

/-! ## Instances without handles -/

theorem content_of_mem_cellsFrom {stride base : Nat} {location : Option Nat}
    {contents : List LeafContent} {flags : List Bool} {cell : Cell}
    (h : cell ∈ cellsFrom stride base location contents flags) : cell.content ∈ contents := by
  induction contents generalizing base location flags with
  | nil => simp [cellsFrom] at h
  | cons content rest ih =>
    cases flags with
    | nil => simp [cellsFrom] at h
    | cons flag flags =>
      rw [cellsFrom] at h
      rcases List.mem_cons.1 h with rfl | h
      · exact List.mem_cons_self
      · exact List.mem_cons_of_mem _ (ih h)

mutual

/-- Without handles in the schema, every cell holds a value. -/
theorem StructInstance.value_cells (base : Nat) : ∀ inst : StructInstance, inst.Typed →
    inst.schema.handleCount = 0 → ∀ cell ∈ inst.cells base, ∃ held, cell.content = .value held
  | ⟨⟨identity, kind, size, alignment, schemas⟩, fields, attached⟩, ht, hc => by
    rw [StructInstance.Typed] at ht
    rw [TypeSchema.handleCount] at hc
    rw [StructInstance.cells]
    exact value_cellsOfStates base schemas fields ht hc

theorem value_cellsOfStates (base : Nat) : ∀ (schemas : List FieldSchema) (states : List FieldState),
    StatesTyped schemas states → handleCountOf schemas = 0 →
    ∀ cell ∈ cellsOfStates base schemas states, ∃ held, cell.content = .value held
  | schema :: schemas, state :: states, ht, hc => by
    rw [StatesTyped] at ht
    rw [handleCountOf, Nat.add_eq_zero_iff] at hc
    rw [cellsOfStates]
    exact List.forall_mem_append.2 ⟨state.value_cells _ _ schema ht.1 hc.1,
      value_cellsOfStates base schemas states ht.2 hc.2⟩
  | [], _, _, _ => by simp [cellsOfStates]
  | _ :: _, [], _, _ => by simp [cellsOfStates]

theorem FieldState.value_cells (base stride : Nat) (schema : FieldSchema) :
    ∀ state : FieldState, state.Typed schema → schema.handleCount = 0 →
    ∀ cell ∈ state.cells base stride, ∃ held, cell.content = .value held
  | ⟨.values list, dirty, location, unit⟩, _, _ => by
    rw [FieldState.cells]
    intro cell hm
    obtain ⟨held, -, he⟩ := List.mem_map.1 (content_of_mem_cellsFrom hm)
    exact ⟨held, he.symm⟩
  | ⟨.handles list, dirty, location, unit⟩, ht, hc => by
    rw [FieldState.Typed] at ht
    obtain ⟨hl, kind, hk⟩ := ht
    obtain rfl : list = [] := by
      rw [FieldSchema.handleCount_eq, hk, FieldKind.handleCount, Nat.one_mul] at hc
      exact List.length_eq_zero_iff.1 (hl.trans hc)
    rw [FieldState.cells]
    simp [unitsFrom, cellsFrom]
  | ⟨.children list, dirty, location, unit⟩, ht, hc => by
    rw [FieldState.Typed] at ht
    obtain ⟨hl, inner, hk, hchildren⟩ := ht
    rw [FieldSchema.handleCount_eq, hk, FieldKind.handleCount] at hc
    have hzero : inner.handleCount = 0 ∨ schema.length = 0 := Nat.mul_eq_zero.1 hc
    rw [FieldState.cells]
    exact value_cellsOfChildren base stride inner list hchildren (hl ▸ hzero)

theorem value_cellsOfChildren (base stride : Nat) (schema : TypeSchema) :
    ∀ list : List StructInstance, ChildrenTyped schema list →
    schema.handleCount = 0 ∨ list.length = 0 →
    ∀ cell ∈ cellsOfChildren base stride list, ∃ held, cell.content = .value held
  | [], _, _ => by simp [cellsOfChildren]
  | child :: rest, ht, hc => by
    rw [ChildrenTyped] at ht
    obtain ⟨rfl, htyped, hrest⟩ := ht
    have hzero : child.schema.handleCount = 0 := hc.resolve_right (Nat.succ_ne_zero _)
    rw [cellsOfChildren]
    exact List.forall_mem_append.2 ⟨child.value_cells base htyped hzero,
      value_cellsOfChildren (base + stride) stride child.schema rest hrest (.inl hzero)⟩

end

/-! ## Calls -/

/-- An instance, the texture units, the buffer that the instance is synchronized with, and the bytes
of the elements that were written since the instance is there. -/
structure Mirror where
  inst : StructInstance
  table : HandleTable
  buffer : StagingBuffer
  written : List ByteRange

/-- A call on the instance that a path leads to, or a synchronization of the whole instance. -/
inductive StagingCall where
  | on (path : List PathStep) (call : InstanceCall)
  | synchronize

namespace StagingCall

/-- The bytes that the call writes, if it is accepted. -/
def range? (schema : TypeSchema) : StagingCall → Option ByteRange
  | .on path call => do
    let (offset, inner) ← schema.nested? path
    call.range? offset inner
  | .synchronize => none

/-- The locations of all elements of a located field have 32 bits. -/
def Fits (schema : TypeSchema) : StagingCall → Prop
  | .on path call => ∀ offset inner, schema.nested? path = some (offset, inner) → call.Fits inner
  | .synchronize => True

end StagingCall

/-- A new instance of the schema, and a buffer of zero bytes. -/
def TypeSchema.mirror (schema : TypeSchema) (table : HandleTable) (size : Nat) : Mirror where
  inst := schema.instantiate
  table := table
  buffer := .ofSize size
  written := []

namespace Mirror

/-- Makes a call. One that is refused changes nothing. -/
def perform (mirror : Mirror) (call : StagingCall) : Mirror :=
  match call with
  | .on path made =>
    match mirror.inst.updateAt (made.apply mirror.table) path with
    | .ok (inst, table) =>
      { mirror with
        inst, table, written := mirror.written ++ (call.range? mirror.inst.schema).toList }
    | .error _ => mirror
  | .synchronize =>
    match mirror.inst.synchronize mirror.buffer with
    | .ok (_, inst, buffer) => { mirror with inst, buffer }
    | .error _ => mirror

def run (mirror : Mirror) (calls : List StagingCall) : Mirror := calls.foldl perform mirror

/-! ## What calls keep -/

/-- Bytes that were written stand in the buffer as in the image, unless they changed since; bytes that
were never written are zero, in the buffer and in the values. -/
structure Valid (schema : TypeSchema) (size : Nat) (mirror : Mirror) : Prop where
  typed : mirror.inst.Typed
  flagged : mirror.inst.Flagged
  schema_eq : mirror.inst.schema = schema
  size_eq : mirror.buffer.bytes.size = size
  changed : ∀ cell ∈ mirror.inst.cells 0, cell.dirty = true → cell.range ∈ mirror.written
  zero : ∀ cell ∈ mirror.inst.cells 0, cell.range ∉ mirror.written →
    ∀ held, cell.content = .value held → ∀ i, held.std140Byte i = 0
  located : ∀ cell ∈ mirror.inst.cells 0, ∀ location ∈ cell.location, location < UInt32.size
  shown : ∀ image, mirror.inst.image? = some image → ∀ i, Covers mirror.written i →
    mirror.inst.Pending i ∨ mirror.buffer.bytes[i]? = image[i]?
  rest : ∀ i < size, ¬ Covers mirror.written i → mirror.buffer.bytes[i]? = some 0

variable {schema : TypeSchema} {size : Nat} {mirror : Mirror}

theorem valid_new (hr : schema.Regular) (table : HandleTable)
    (hl : ∀ cell ∈ schema.instantiate.cells 0, ∀ location ∈ cell.location, location < UInt32.size) :
    (schema.mirror table size).Valid schema size where
  typed := typed_instantiate hr
  flagged := hr.startsFresh.flagged
  schema_eq := schema.schema_instantiate
  size_eq := by simp [TypeSchema.mirror, StagingBuffer.ofSize, Image.filled]
  changed cell hm hd := by
    rw [(hr.startsFresh.fresh 0 cell hm).clean] at hd
    cases hd
  zero cell hm _ := (hr.startsFresh.fresh 0 cell hm).zero
  located := hl
  shown _ _ i hc := absurd hc (covers_nil i)
  rest i hi _ := by simp [TypeSchema.mirror, StagingBuffer.ofSize, Image.filled, hi]

/-- An accepted call: everything that it writes is dirty afterwards, and all other cells are as
before. -/
theorem Valid.follow (h : mirror.Valid schema size) (hr : schema.Regular) {inst : StructInstance}
    {table : HandleTable} {range? : Option ByteRange} (ht : inst.Typed) (hf : inst.Flagged)
    (hs : inst.schema = schema) (hc : CellsFollow range? (mirror.inst.cells 0) (inst.cells 0)) :
    Valid schema size { mirror with inst, table, written := mirror.written ++ range?.toList } where
  typed := ht
  flagged := hf
  schema_eq := hs
  size_eq := h.size_eq
  changed cell hm hd := by
    obtain ⟨before, hb, hfollows⟩ := exists_of_mem_right hc.each hm
    rcases hfollows.contents with ⟨-, hsame⟩ | ⟨-, hrange⟩
    · rw [hfollows.range]
      exact List.mem_append_left _ (h.changed before hb (hsame ▸ hd))
    · exact List.mem_append_right _ (by simp [hrange])
  zero cell hm hn := by
    obtain ⟨before, hb, hfollows⟩ := exists_of_mem_right hc.each hm
    rw [List.mem_append, not_or] at hn
    rcases hfollows.contents with ⟨hsame, -⟩ | ⟨-, hrange⟩
    · rw [hsame]
      exact h.zero before hb (hfollows.range ▸ hn.1)
    · exact absurd (by simp [hrange]) hn.2
  located cell hm := by
    obtain ⟨before, hb, hfollows⟩ := exists_of_mem_right hc.each hm
    rcases hfollows.location with hsame | hnew
    · rw [hsame]
      exact h.located before hb
    · exact hnew
  shown image' hi' i hcov := by
    have hregular : mirror.inst.schema.Regular := h.schema_eq.symm ▸ hr
    obtain ⟨image, hi, hshows⟩ := shows_image? h.typed hregular
    obtain ⟨found, hfound, hshows'⟩ := shows_image? ht (hs.symm ▸ hr)
    obtain rfl := Option.some.inj (hi'.symm.trans hfound)
    by_cases hp : inst.Pending i
    · exact .inl hp
    · right
      have hbefore : Covers mirror.written i := by
        rcases covers_append.1 hcov with hcov | ⟨range, hm, hholds⟩
        · exact hcov
        · obtain ⟨cell, hcell, hd, rfl⟩ := hc.marked range (by simpa using hm)
          exact absurd ⟨cell, hcell, hd, hholds⟩ hp
      have hkept : ∀ before after : Cell, before.Follows range? after → after.dirty = false →
          after.content = before.content ∧ before.dirty = false := by
        intro before after hfollows hclean
        rcases hfollows.contents with ⟨hcontent, hdirty⟩ | ⟨hdirty, -⟩
        · exact ⟨hcontent, hdirty ▸ hclean⟩
        · rw [hdirty] at hclean
          cases hclean
      have hclean : ∀ cell ∈ inst.cells 0, cell.range.Holds i → cell.dirty = false := fun cell hm hh =>
        Bool.eq_false_iff.2 fun hd => hp ⟨cell, hm, hd, hh⟩
      have hsame : image'[i]? = image[i]? := by
        refine hshows.getElem?_eq hshows' h.flagged hf (by rw [hs, h.schema_eq]) ?_
        refine List.forall₂_iff_get.2 ⟨hc.each.length_eq, fun k hk hk' => ?_⟩
        have hfollows := hc.each.get hk hk'
        exact ⟨hfollows.range, fun hh =>
          (hkept _ _ hfollows (hclean _ (List.get_mem _ _) hh)).1⟩
      rcases h.shown image hi i hbefore with ⟨before, hb, hd, hh⟩ | hshown
      · obtain ⟨after, ha, hfollows⟩ := exists_of_mem_left hc.each hb
        have hafter := hclean after ha (hfollows.range ▸ hh)
        rw [(hkept before after hfollows hafter).2] at hd
        cases hd
      · rw [hsame]
        exact hshown
  rest i hi hn := h.rest i hi fun hcov => hn (covers_append.2 (.inl hcov))

/-- A synchronization copies what changed. -/
theorem Valid.upload (h : mirror.Valid schema size) (hr : schema.Regular) {image : Image}
    (hi : mirror.inst.image? = some image) (hshows : mirror.inst.Shows image)
    {next : StructInstance} {after : StagingBuffer}
    (hu : mirror.inst.Uploaded image mirror.buffer next after) :
    Valid schema size { mirror with inst := next, buffer := after } where
  typed := hu.typed
  flagged := hu.flagged
  schema_eq := hu.schema.trans h.schema_eq
  size_eq := hu.copies.size.trans h.size_eq
  changed cell hm hd := by
    dsimp only at hm
    rw [hu.cells] at hm
    obtain ⟨before, -, rfl⟩ := List.mem_map.1 hm
    cases hd
  zero cell hm hn := by
    dsimp only at hm
    rw [hu.cells] at hm
    obtain ⟨before, hb, rfl⟩ := List.mem_map.1 hm
    exact h.zero before hb hn
  located cell hm := by
    dsimp only at hm
    rw [hu.cells] at hm
    obtain ⟨before, hb, rfl⟩ := List.mem_map.1 hm
    exact h.located before hb
  shown image' hi' i hcov := by
    right
    dsimp only at hi' hcov ⊢
    rw [hu.getElem?_eq h.flagged (h.schema_eq.symm ▸ hr) hshows hi' i]
    by_cases hp : mirror.inst.Pending i
    · exact hu.copies.inside i hp
    · rw [hu.copies.outside i hp]
      exact (h.shown image hi i hcov).resolve_left hp
  rest i hlt hn := by
    dsimp only at hn ⊢
    rw [hu.copies.outside i, h.rest i hlt hn]
    rintro ⟨cell, hm, hd, hh⟩
    exact hn ⟨cell.range, h.changed cell hm hd, hh⟩

theorem Valid.perform (h : mirror.Valid schema size) (hr : schema.Regular) (hs : schema.size ≤ size)
    {call : StagingCall} (hf : call.Fits schema) : (mirror.perform call).Valid schema size := by
  have hregular : mirror.inst.schema.Regular := h.schema_eq.symm ▸ hr
  cases call with
  | on path made =>
    unfold Mirror.perform
    dsimp only
    split
    · rename_i inst table hu
      obtain ⟨ht, hschema⟩ := StructInstance.typed_updateAt
        (fun _ _ _ ht hc => (InstanceCall.changes hc).typed ht) h.typed hu
      have hmade : ∀ before next (answer : HandleTable), before.Typed → before.Flagged →
          made.Fits before.schema → made.apply mirror.table before = .ok (next, answer) →
          next.Flagged ∧ ∀ base, CellsFollow (made.range? base before.schema) (before.cells base)
            (next.cells base) := fun _ _ _ ht hf hp hc => InstanceCall.follows ht hf hp hc
      obtain ⟨hflagged, offset, inner, hn, hcells⟩ :=
        StructInstance.follows_updateAt hmade h.typed h.flagged (h.schema_eq ▸ hf) hu
      have hrange : (StagingCall.on path made).range? mirror.inst.schema =
          made.range? (0 + offset) inner := by
        simp [StagingCall.range?, hn]
      rw [hrange]
      exact h.follow hr ht hflagged (hschema.trans h.schema_eq) (hcells 0)
    · exact h
  | synchronize =>
    obtain ⟨image, hi, hshows⟩ := shows_image? h.typed hregular
    obtain ⟨uploaded, next, after, hsync, hu⟩ := StructInstance.synchronize_uploads h.typed h.flagged
      hregular mirror.buffer (by rw [h.schema_eq, h.size_eq]; exact hs) hi hshows
    unfold Mirror.perform
    rw [hsync]
    exact h.upload hr hi hshows hu

theorem Valid.run (h : mirror.Valid schema size) (hr : schema.Regular) (hs : schema.size ≤ size)
    {calls : List StagingCall} (hf : ∀ call ∈ calls, call.Fits schema) :
    (mirror.run calls).Valid schema size := by
  unfold Mirror.run
  induction calls generalizing mirror with
  | nil => exact h
  | cons call rest ih =>
    obtain ⟨hfirst, hrest⟩ := List.forall_mem_cons.1 hf
    exact ih (h.perform hr hs hfirst) hrest

/-! ## After a synchronization -/

/-- The instance is clean, and the buffer shows all that was written and nothing else. Without
handles, that is the whole image. -/
structure InStep (mirror : Mirror) (image : Image) : Prop where
  clean : mirror.inst.isDirty = false
  image_eq : mirror.inst.image? = some image
  written : ∀ i, Covers mirror.written i → mirror.buffer.bytes[i]? = image[i]?
  rest : ∀ i < mirror.buffer.bytes.size, ¬ Covers mirror.written i →
    mirror.buffer.bytes[i]? = some 0
  values : mirror.inst.schema.handleCount = 0 → ∀ i < mirror.inst.schema.size,
    mirror.buffer.bytes[i]? = image[i]?

theorem Valid.inStep (h : mirror.Valid schema size) (hs : schema.size ≤ size)
    (hc : mirror.inst.isDirty = false) {image : Image} (hi : mirror.inst.image? = some image)
    (hshows : mirror.inst.Shows image) : mirror.InStep image := by
  have hpending : ∀ i, ¬ mirror.inst.Pending i := by
    rintro i ⟨cell, hm, hd, -⟩
    rw [mirror.inst.isDirty_eq 0 h.flagged h.typed, List.any_eq_false] at hc
    exact hc cell hm hd
  have hwritten : ∀ i, Covers mirror.written i → mirror.buffer.bytes[i]? = image[i]? :=
    fun i hcov => (h.shown image hi i hcov).resolve_left (hpending i)
  refine ⟨hc, hi, hwritten, fun i hlt => h.rest i (h.size_eq ▸ hlt), fun hzero i hlt => ?_⟩
  by_cases hcov : Covers mirror.written i
  · exact hwritten i hcov
  · have hbuffer := h.rest i (Nat.lt_of_lt_of_le (h.schema_eq ▸ hlt) hs) hcov
    rw [hbuffer]
    -- a byte that was never written belongs to no cell, or to the zero of one
    by_cases hany : ∃ cell ∈ mirror.inst.cells 0, cell.range.Holds i
    · obtain ⟨cell, hm, hh⟩ := hany
      obtain ⟨held, hv⟩ := mirror.inst.value_cells 0 h.typed hzero cell hm
      have hnew : cell.range ∉ mirror.written := fun hw => hcov ⟨cell.range, hw, hh⟩
      rw [hshows.getElem?_cell h.flagged hm hh, hv]
      exact congrArg some (h.zero cell hm hnew held hv _).symm
    · exact (hshows.getElem?_rest h.flagged hlt fun cell hm hh => hany ⟨cell, hm, hh⟩).symm

end Mirror

/-- **Mirror.** Take a new instance of a schema that was built from laid out aggregates, a buffer of
zero bytes that is large enough, and any calls. If the instance is synchronized then, the buffer shows
what was written. All changes lie inside the type, and their locations have 32 bits. With a smaller
buffer, changes are refused and stay; an instance without changes does not look at the buffer. -/
theorem mirror_in_step {scope : SchemaScope} {layouts : List StructLayout} {layout : StructLayout}
    {kept after : SchemaTable} {schema : TypeSchema} {sizes : String → Nat}
    (hb : Built scope layouts kept) (h : layout.toSchema scope kept = .ok (schema, after))
    (hl : ∀ other ∈ layout :: layouts, other.LaidOut)
    (hs : ∀ other ∈ layout :: layouts, other.DeterminedBy StructLayout.size sizes)
    (hlocated : ∀ cell ∈ schema.instantiate.cells 0, ∀ location ∈ cell.location,
      location < UInt32.size) {size : Nat} (hsize : schema.size ≤ size) (table : HandleTable)
    {calls : List StagingCall} (hf : ∀ call ∈ calls, call.Fits schema) :
    ∃ mirror uploaded inst buffer image, (schema.mirror table size).run calls = mirror ∧
      mirror.inst.synchronize mirror.buffer = .ok (uploaded, inst, buffer) ∧
      inst.schema = schema ∧ image.size = schema.size ∧ buffer.bytes.size = size ∧
      Mirror.InStep { mirror with inst, buffer } image ∧
      (∀ change ∈ mirror.inst.dirtyFields, change.offset + change.size ≤ schema.size ∧
        ∀ location ∈ change.location, location < UInt32.size) ∧
      ∀ small : StagingBuffer, small.bytes.size < schema.size →
        mirror.inst.synchronize small =
          if mirror.inst.isDirty then
            .error (.bufferTooSmall schema.name schema.size small.bytes.size)
          else .ok (false, mirror.inst, small) := by
  obtain ⟨hr, -⟩ := regular_of_toSchema hb h hl hs
  have hvalid := (Mirror.valid_new hr table hlocated).run hr hsize hf
  generalize (schema.mirror table size).run calls = mirror at hvalid
  have hregular : mirror.inst.schema.Regular := hvalid.schema_eq.symm ▸ hr
  obtain ⟨image, hi, hshows⟩ := shows_image? hvalid.typed hregular
  obtain ⟨uploaded, inst, buffer, hsync, hu⟩ := StructInstance.synchronize_uploads hvalid.typed
    hvalid.flagged hregular mirror.buffer
    (by rw [hvalid.schema_eq, hvalid.size_eq]; exact hsize) hi hshows
  have hnext := hvalid.upload hr hi hshows hu
  have hschema : inst.schema = schema := hu.schema.trans hvalid.schema_eq
  obtain ⟨image', hi', hshows'⟩ := shows_image? hu.typed (hschema.symm ▸ hr)
  refine ⟨mirror, uploaded, inst, buffer, image', rfl, hsync, hschema,
    hshows'.size.trans (congrArg _ hschema), hnext.size_eq,
    hnext.inStep hsize (StructInstance.synchronize_clean hsync) hi' hshows', ?_, ?_⟩
  · intro change hm
    have hplace := List.mem_map_of_mem (f := DirtyField.place) hm
    unfold StructInstance.dirtyFields at hplace
    rw [mirror.inst.place_dirtyFrom "" 0 hvalid.flagged hvalid.typed] at hplace
    obtain ⟨cell, hc, he⟩ := List.mem_map.1 hplace
    obtain ⟨hrange, hlocation⟩ := Prod.mk.inj he
    obtain ⟨-, hstop⟩ := hvalid.typed.cell_inside hvalid.flagged hregular cell (List.mem_filter.1 hc).1
    refine ⟨?_, ?_⟩
    · rw [hrange, hvalid.schema_eq] at hstop
      exact hstop
    · rw [← hlocation]
      exact hvalid.located cell (List.mem_filter.1 hc).1
  · intro small hsmall
    rw [← hvalid.schema_eq] at hsmall ⊢
    exact StructInstance.synchronize_small hsmall

/-! ## Calls on a room -/

/-- The number 1. -/
def oneValue : UniformValue := ⟨.float, .scalar, [0x3f800000]⟩

/-- Once the room is attached, only its levels can be written; the lamps have no locations. -/
def roomCalls : List StagingCall :=
  [.on [] (.set "turn" none turnValue), .synchronize, .on [] (.locate "levels" 7), .on [] .attach,
    .on [] (.set "levels" (some 2) oneValue), .on [⟨"lamps", some 1⟩] (.set "range" none oneValue)]

theorem mirror_in_step_room :
    ∃ layout schema after mirror uploaded inst buffer image,
      roomDeclaration.layOut "room" lampTable = .ok layout ∧ layout.LaidOut ∧
      layout.DeterminedBy StructLayout.size roomSizes ∧
      layout.toSchema roomScope [] = .ok (schema, after) ∧
      (∀ cell ∈ schema.instantiate.cells 0, ∀ location ∈ cell.location, location < UInt32.size) ∧
      schema.size ≤ 160 ∧ (∀ call ∈ roomCalls, call.Fits schema) ∧
      (schema.mirror [] 160).run roomCalls = mirror ∧
      mirror.inst.synchronize mirror.buffer = .ok (uploaded, inst, buffer) ∧
      Mirror.InStep { mirror with inst, buffer } image := by
  have hmade : (roomDeclaration.layOut "room" lampTable).toOption.any (fun layout =>
      layout.size == roomSizes "room" && (layout.toSchema roomScope []).toOption.any fun made =>
        decide (made.1.size ≤ 160) && (made.1.field? "levels").all (·.length ≤ 3) &&
          (made.1.instantiate.cells 0).all fun cell =>
            cell.location.all (· < UInt32.size)) = true := by
    decide +kernel
  obtain ⟨layout, hl, hmade⟩ := exists_ok_of_any hmade
  obtain ⟨hsize, hmade⟩ := Bool.and_eq_true_iff.1 hmade
  obtain ⟨⟨schema, after⟩, hs, hmade⟩ := exists_ok_of_any hmade
  obtain ⟨hmade, hlocated⟩ := Bool.and_eq_true_iff.1 hmade
  obtain ⟨hbuffer, hlevels⟩ := Bool.and_eq_true_iff.1 hmade
  have hbuffer := of_decide_eq_true hbuffer
  have hlaid : layout.LaidOut := .intro lampTable_laidOut hl
  have hlamp : (lampDeclaration.layOut "lamp" []).toOption.all (·.size == roomSizes "lamp") := by
    decide +kernel
  have hdetermined : layout.DeterminedBy StructLayout.size roomSizes :=
    determinedBy_room (fun below hb => beq_iff_eq.1 (by rwa [hb] at hlamp)) hl (beq_iff_eq.1 hsize)
  have hlocated : ∀ cell ∈ schema.instantiate.cells 0, ∀ location ∈ cell.location,
      location < UInt32.size := by
    intro cell hm location hmem
    have hall := List.all_eq_true.1 hlocated cell hm
    rw [Option.mem_def.1 hmem] at hall
    exact of_decide_eq_true hall
  have hfits : ∀ call ∈ roomCalls, call.Fits schema := by
    have hlocate : (StagingCall.on [] (.locate "levels" 7)).Fits schema := by
      rintro offset inner hn field hf element he
      obtain ⟨-, rfl⟩ := Prod.mk.inj (Option.some.inj hn)
      rw [hf] at hlevels
      have hlength : field.length ≤ 3 := of_decide_eq_true hlevels
      exact Nat.lt_trans (by omega : 7 + element < 10) (by decide)
    simp only [roomCalls, List.forall_mem_cons]
    exact ⟨fun _ _ _ => trivial, trivial, hlocate, fun _ _ _ => trivial, fun _ _ _ => trivial,
      fun _ _ _ => trivial, by simp⟩
  obtain ⟨mirror, uploaded, inst, buffer, image, hrun, hsync, -, -, -, hstep, -⟩ :=
    mirror_in_step .none hs (by simpa using hlaid) (by simpa using hdetermined) hlocated hbuffer []
      hfits
  exact ⟨layout, schema, after, mirror, uploaded, inst, buffer, image, hl, hlaid, hdetermined, hs,
    hlocated, hbuffer, hfits, hrun, hsync, hstep⟩

/-- A new room has nothing to upload, so it accepts a buffer of four bytes. -/
theorem small_buffer_accepted :
    ∃ layout schema after, roomDeclaration.layOut "room" lampTable = .ok layout ∧
      layout.toSchema roomScope [] = .ok (schema, after) ∧
      (StagingBuffer.ofSize 4).bytes.size < schema.size ∧
      schema.instantiate.synchronize (.ofSize 4) =
        .ok (false, schema.instantiate, .ofSize 4) := by
  have hmade : (roomDeclaration.layOut "room" lampTable).toOption.any (fun layout =>
      (layout.toSchema roomScope []).toOption.any fun made =>
        decide ((StagingBuffer.ofSize 4).bytes.size < made.1.size) &&
          !made.1.instantiate.isDirty) = true := by
    decide +kernel
  obtain ⟨layout, hl, hmade⟩ := exists_ok_of_any hmade
  obtain ⟨⟨schema, after⟩, hs, hmade⟩ := exists_ok_of_any hmade
  obtain ⟨hsmall, hclean⟩ := Bool.and_eq_true_iff.1 hmade
  have hsmall := of_decide_eq_true hsmall
  refine ⟨layout, schema, after, hl, hs, hsmall, ?_⟩
  have hclean : schema.instantiate.isDirty = false := by simpa using hclean
  rw [StructInstance.synchronize_small (by rw [schema.schema_instantiate]; exact hsmall), hclean]
  rfl

end UniformLayout
