import UniformLayout.Instance.Packing
import UniformLayout.Proofs.Instance.Typed
import UniformLayout.Proofs.Value

/-!
# The image of an instance, byte by byte

The leaves of an instance are the elements of all fields that hold no instances, on every level, with
their absolute places. `Shows` says of an image that each leaf's bytes stand in the leaf's place and
that all other bytes are zero.

* `TypeSchema.Regular.writable`: writing a typed instance of a regular schema to a place that is zero.
* `shows_image?`: the image of an instance shows it.
* `agrees_of_shows`: values can be read off the image, bit for bit.
-/

namespace UniformLayout

open Image

/-! ## Leaves -/

/-- What an element of a field holds, if it is no instance: a value, or a handle that is bound to a
texture unit. -/
inductive LeafContent where
  | value (value : UniformValue)
  | handle (unit : Option Nat)

/-- An element in its absolute place. -/
structure InstanceLeaf where
  start : Nat
  content : LeafContent

def LeafContent.size : LeafContent → Nat
  | .value held => held.baseType.size
  | .handle _ => 4

/-- Byte `i` of the element: of the encoding of a value, or of the unit of a handle, which is 0 where
there is none. -/
def LeafContent.byte : LeafContent → Nat → UInt8
  | .value held => held.std140Byte
  | .handle unit => byteAt (unit.getD 0)

def InstanceLeaf.stretch (leaf : InstanceLeaf) : Stretch where
  start := leaf.start
  size := leaf.content.size
  byte := leaf.content.byte

/-- What elements that start at `base` and lie `stride` places apart contribute. -/
def eachAt {α β : Type} (place : Nat → α → List β) (stride : Nat) : (base : Nat) → List α → List β
  | _, [] => []
  | base, first :: rest => place base first ++ eachAt place stride (base + stride) rest

/-- The units of consecutive handles. -/
def unitsFrom (unit : Option Nat) (count : Nat) : List (Option Nat) :=
  (List.range count).map fun i => unit.map (· + i)

mutual

/-- The leaves of an instance that starts at `base`. -/
def StructInstance.leaves (base : Nat) : StructInstance → List InstanceLeaf
  | ⟨schema, fields, _⟩ => leavesOfStates base schema.fields fields

def leavesOfStates (base : Nat) : List FieldSchema → List FieldState → List InstanceLeaf
  | schema :: schemas, state :: states =>
    state.leaves (base + schema.offset) schema.stride ++ leavesOfStates base schemas states
  | _, _ => []

/-- The leaves of a field that starts at `base`. -/
def FieldState.leaves (base stride : Nat) : FieldState → List InstanceLeaf
  | ⟨.values list, _, _, _⟩ =>
    eachAt (fun start value => [⟨start, .value value⟩]) stride base list
  | ⟨.handles list, _, _, unit⟩ =>
    eachAt (fun start unit => [⟨start, .handle unit⟩]) stride base (unitsFrom unit list.length)
  | ⟨.children list, _, _, _⟩ => leavesOfChildren base stride list

def leavesOfChildren (base stride : Nat) : List StructInstance → List InstanceLeaf
  | [] => []
  | child :: rest => child.leaves base ++ leavesOfChildren (base + stride) stride rest

end

theorem StructInstance.leaves_eq (inst : StructInstance) (base : Nat) :
    inst.leaves base = leavesOfStates base inst.schema.fields inst.fields := by
  cases inst
  rw [StructInstance.leaves]

theorem leavesOfChildren_eq (base stride : Nat) (list : List StructInstance) :
    leavesOfChildren base stride list =
      eachAt (fun start child => StructInstance.leaves start child) stride base list := by
  induction list generalizing base with
  | nil => rw [leavesOfChildren, eachAt]
  | cons child rest ih => rw [leavesOfChildren, eachAt, ih]

/-! ## Elements one behind the other -/

/-- Writes elements that start at `base` and lie `stride` bytes apart. -/
def writeEach? {α : Type} (write : Nat → α → Image → Option Image) (stride : Nat) :
    (base : Nat) → List α → Image → Option Image
  | _, [], image => some image
  | base, first :: rest, image => do
    writeEach? write stride (base + stride) rest (← write base first image)

theorem writeValues?_eq (base stride : Nat) (list : List UniformValue) (image : Image) :
    writeValues? base stride list image =
      writeEach? (fun start value => value.writeTo? start) stride base list image := by
  induction list generalizing base image with
  | nil => rfl
  | cons value rest ih =>
    rw [writeValues?, writeEach?]
    exact congrArg _ (funext fun _ => ih _ _)

theorem writeUnits?_eq (base stride : Nat) (unit : Option Nat) (count : Nat) (image : Image) :
    writeUnits? base stride unit count image =
      writeEach? (fun start unit image => image.store? start (littleEndian 4 (unit.getD 0))) stride
        base (unitsFrom unit count) image := by
  induction count generalizing base unit image with
  | zero => rfl
  | succ count ih =>
    have hunits : unitsFrom unit (count + 1) = unit :: unitsFrom (unit.map (· + 1)) count := by
      unfold unitsFrom
      rw [List.range_succ_eq_map, List.map_cons, List.map_map]
      refine congrArg₂ _ ?_ (List.map_congr_left fun i _ => ?_)
      · cases unit with
        | none => rfl
        | some first => rfl
      · cases unit with
        | none => rfl
        | some first =>
          change some (first + (i + 1)) = some (first + 1 + i)
          rw [Nat.add_right_comm, Nat.add_assoc]
    rw [hunits, writeUnits?, writeEach?]
    exact congrArg _ (funext fun _ => ih _ _ _)

theorem writeChildrenAt?_eq (base stride : Nat) (list : List StructInstance) (image : Image) :
    writeChildrenAt? base stride list image =
      writeEach? (fun start child image => do
        if start > image.size then none
        child.writeAt? start image) stride base list image := by
  induction list generalizing base image with
  | nil => rw [writeChildrenAt?, writeEach?]
  | cons child rest ih =>
    rw [writeChildrenAt?, writeEach?]
    split
    · rfl
    · exact congrArg _ (funext fun _ => ih _ _)

/-- Elements that do not overlap are written one after the other, if each of them can be written. -/
theorem writeEach?_writes {α : Type} {write : Nat → α → Image → Option Image}
    {leaves : Nat → α → List InstanceLeaf} {stride size high : Nat} {list : List α}
    (hw : ∀ a ∈ list, ∀ base image, image.ZeroBetween base (base + size) → ∃ after,
      write base a image = some after ∧
        Writes ((leaves base a).map InstanceLeaf.stretch) base (base + size) image after)
    {base : Nat} (hfit : ∀ i < list.length, base + i * stride + size ≤ high)
    (hstride : 1 < list.length → size ≤ stride) {image : Image}
    (hz : image.ZeroBetween base high) :
    ∃ after, writeEach? write stride base list image = some after ∧
      Writes ((eachAt leaves stride base list).map InstanceLeaf.stretch) base high image after := by
  induction list generalizing base image with
  | nil => exact ⟨image, rfl, Writes.nil image base high⟩
  | cons first rest ih =>
    have hfirst := hfit 0 (Nat.zero_lt_succ _)
    rw [Nat.zero_mul, Nat.add_zero] at hfirst
    obtain ⟨mid, hmid, hwrites⟩ := hw first List.mem_cons_self base image
      (hz.mono (Nat.le_refl _) hfirst)
    rw [writeEach?, hmid, eachAt, List.map_append]
    cases rest with
    | nil =>
      refine ⟨mid, rfl, ?_⟩
      rw [eachAt, List.map_nil, List.append_nil]
      exact hwrites.widen (Nat.le_refl _) hfirst
    | cons next others =>
      have hle := hstride (by simp)
      have hbehind : ∀ i < (next :: others).length, base + stride + i * stride + size ≤ high := by
        intro i hi
        have := hfit (i + 1) (Nat.succ_lt_succ hi)
        rw [Nat.succ_mul] at this
        omega
      obtain ⟨after, hafter, hrest⟩ := ih (fun a hm => hw a (List.mem_cons_of_mem _ hm)) hbehind
        (fun _ => hle) (hwrites.zeroBetween (hz.mono (Nat.le_add_right base stride) (Nat.le_refl _))
          (Nat.add_le_add_left hle base))
      exact ⟨after, hafter, hwrites.append hrest (Nat.add_le_add_left hle base)
        (Nat.le_add_right _ _) hfirst⟩

/-! ## Writing an instance -/

theorem childrenTyped_iff {schema : TypeSchema} {list : List StructInstance} :
    ChildrenTyped schema list ↔ ∀ child ∈ list, child.schema = schema ∧ child.Typed := by
  induction list with
  | nil => simp [ChildrenTyped]
  | cons child rest ih => rw [ChildrenTyped, ih, List.forall_mem_cons, and_assoc]

/-- Every typed instance of the schema can be written to a place that is zero. -/
def TypeSchema.Writable (schema : TypeSchema) : Prop :=
  ∀ inst : StructInstance, inst.Typed → inst.schema = schema → ∀ (base : Nat) (image : Image),
    image.ZeroBetween base (base + schema.size) → ∃ after, inst.writeAt? base image = some after ∧
      Writes ((inst.leaves base).map InstanceLeaf.stretch) base (base + schema.size) image after

theorem FieldSchema.Regular.writes {field : FieldSchema} (h : field.Regular)
    (hn : ∀ inner, field.kind = .aggregate inner → inner.Writable) {state : FieldState}
    (ht : state.Typed field) {base : Nat} {image : Image}
    (hz : image.ZeroBetween base (base + field.size)) :
    ∃ after, state.writeAt? base field.stride image = some after ∧
      Writes ((state.leaves base field.stride).map InstanceLeaf.stretch) base (base + field.size)
        image after := by
  have hfit := h.elements_inside base
  obtain ⟨contents, dirty, location, unit⟩ := state
  cases contents with
  | values list =>
    rw [FieldState.Typed] at ht
    obtain ⟨hl, type, hk, hall⟩ := ht
    have hsize := field.elementSize_of_value hk
    rw [FieldState.writeAt?, FieldState.leaves, writeValues?_eq]
    refine writeEach?_writes (fun value hm start image hz => ?_) (hl ▸ hfit)
      (fun hlt => h.elementSize_le_stride (hl ▸ hlt)) hz
    obtain ⟨hb, hw⟩ := hall value hm
    rw [hsize, ← hb] at hz ⊢
    have hrows : ∀ kind columns rows, value.baseType = .matrix kind columns rows →
        rows ∈ [2, 3, 4] := fun kind columns rows he =>
      h.rows kind columns rows (by rw [hk, ← hb, he])
    exact UniformValue.writeTo?_writes hw hrows hz
  | handles list =>
    rw [FieldState.Typed] at ht
    obtain ⟨hl, handle, hk⟩ := ht
    have hsize := field.elementSize_of_handle hk
    have hcount : (unitsFrom unit list.length).length = field.length := by
      unfold unitsFrom
      rw [List.length_map, List.length_range, hl]
    rw [FieldState.writeAt?, FieldState.leaves, writeUnits?_eq]
    refine writeEach?_writes (fun unit _ start image hz => ?_) (hcount ▸ hfit)
      (fun hlt => h.elementSize_le_stride (hcount ▸ hlt)) hz
    rw [hsize] at hz ⊢
    exact store?_littleEndian_writes (unit.getD 0) hz.reaches
  | children list =>
    rw [FieldState.Typed] at ht
    obtain ⟨hl, inner, hk, hchildren⟩ := ht
    have hsize := field.elementSize_of_aggregate hk
    rw [FieldState.writeAt?, FieldState.leaves, writeChildrenAt?_eq, leavesOfChildren_eq]
    refine writeEach?_writes (fun child hm start image hz => ?_) (hl ▸ hfit)
      (fun hlt => h.elementSize_le_stride (hl ▸ hlt)) hz
    obtain ⟨hs, hc⟩ := childrenTyped_iff.1 hchildren child hm
    have hreach := hz.reaches
    have hguard : ¬ start > image.size := by omega
    rw [if_neg hguard]
    rw [hsize] at hz ⊢
    exact hn inner hk child hc hs start image hz

/-- Fields that stand in order are written one after the other. -/
theorem writeFieldsAt?_writes {schemas : List FieldSchema} {states : List FieldState}
    (ht : StatesTyped schemas states) (hr : ∀ field ∈ schemas, field.Regular)
    (hn : ∀ field ∈ schemas, ∀ inner, field.kind = .aggregate inner → inner.Writable)
    (ho : schemas.Pairwise fun before after => before.finish ≤ after.offset) {base low high : Nat}
    (hb : ∀ field ∈ schemas, low ≤ base + field.offset ∧ base + field.finish ≤ high)
    {image : Image} (hz : image.ZeroBetween low high) :
    ∃ after, writeFieldsAt? base schemas states image = some after ∧
      Writes ((leavesOfStates base schemas states).map InstanceLeaf.stretch) low high image
        after := by
  induction schemas generalizing states low image with
  | nil =>
    cases states with
    | nil =>
      refine ⟨image, ?_, ?_⟩
      · simp [writeFieldsAt?]
      · simpa [leavesOfStates] using Writes.nil image low high
    | cons state states => simp [StatesTyped] at ht
  | cons field rest ih =>
    cases states with
    | nil => simp [StatesTyped] at ht
    | cons state states =>
      rw [StatesTyped] at ht
      obtain ⟨hfirst, hrest⟩ := List.forall_mem_cons.1 hb
      obtain ⟨hnext, horder⟩ := List.pairwise_cons.1 ho
      unfold FieldSchema.finish at hfirst hnext
      obtain ⟨mid, hmid, hwrites⟩ := (hr field List.mem_cons_self).writes
        (hn field List.mem_cons_self) ht.1 (hz.mono hfirst.1 (by omega))
      have hbehind : ∀ other ∈ rest, base + field.offset + field.size ≤ base + other.offset ∧
          base + other.finish ≤ high := by
        intro other hm
        have := hnext other hm
        exact ⟨by omega, (hrest other hm).2⟩
      obtain ⟨after, hafter, hothers⟩ := ih ht.2 (fun other hm => hr other (List.mem_cons_of_mem _ hm))
        (fun other hm => hn other (List.mem_cons_of_mem _ hm)) horder hbehind
        (hwrites.zeroBetween (hz.mono (by omega) (Nat.le_refl _)) (Nat.le_refl _))
      refine ⟨after, ?_, ?_⟩
      · rw [writeFieldsAt?, hmid]
        exact hafter
      · rw [leavesOfStates, List.map_append]
        exact (hwrites.append hothers (Nat.le_refl _) (by omega) (by omega)).widen hfirst.1
          (Nat.le_refl _)

/-- **Writing.** Typed instances of regular schemas are written leaf by leaf, wherever there is room
for them. The induction is on the nesting of the schema. -/
theorem TypeSchema.Regular.writable {schema : TypeSchema} (h : schema.Regular) :
    schema.Writable := by
  induction h with
  | @intro schema _ hfield hinside horder _ ih =>
    rintro ⟨own, fields, attached⟩ ht rfl base image hz
    rw [StructInstance.Typed] at ht
    rw [StructInstance.writeAt?, StructInstance.leaves]
    refine writeFieldsAt?_writes ht hfield ih horder (fun field hm => ?_) hz
    have := hinside field hm
    dsimp only at this ⊢
    omega

/-! ## The image -/

/-- The image is as long as the type, each value's encoding and each handle's unit stands in its
place, and all other bytes are zero. -/
structure StructInstance.Shows (inst : StructInstance) (image : Image) : Prop where
  size : image.size = inst.schema.size
  value : ∀ start value, ⟨start, .value value⟩ ∈ inst.leaves 0 → ∀ i < value.baseType.size,
    image[start + i]? = some (value.std140Byte i)
  handle : ∀ start unit, ⟨start, .handle unit⟩ ∈ inst.leaves 0 → ∀ i < 4,
    image[start + i]? = some (byteAt (unit.getD 0) i)
  rest : ∀ i < image.size, (∀ leaf ∈ inst.leaves 0,
    i < leaf.start ∨ leaf.start + leaf.content.size ≤ i) → image[i]? = some 0

/-- An element of an instance that an image shows has its bytes there. -/
theorem StructInstance.Shows.inside {inst : StructInstance} {image : Image} (h : inst.Shows image)
    {leaf : InstanceLeaf} (hm : leaf ∈ inst.leaves 0) {i : Nat} (hi : i < leaf.content.size) :
    image[leaf.start + i]? = some (leaf.content.byte i) := by
  obtain ⟨start, content⟩ := leaf
  cases content with
  | value held => exact h.value start held hm i hi
  | handle unit => exact h.handle start unit hm i hi

theorem shows_image? {inst : StructInstance} (h : inst.Typed) (hr : inst.schema.Regular) :
    ∃ image, inst.image? = some image ∧ inst.Shows image := by
  obtain ⟨image, hi, hwrites⟩ := hr.writable inst h rfl 0 (filled inst.schema.size 0)
    ((Nat.zero_add inst.schema.size).symm ▸ zeroBetween_filled inst.schema.size)
  have hinside : ∀ leaf ∈ inst.leaves 0, ∀ i < leaf.content.size,
      image[leaf.start + i]? = some (leaf.content.byte i) := by
    intro leaf hm i hlt
    exact hwrites.inside _ (List.mem_map_of_mem hm) i hlt
  have hsize : image.size = inst.schema.size := by
    rw [hwrites.size]
    simp [filled]
  refine ⟨image, hi, hsize, fun start value hm i hlt => hinside _ hm i hlt,
    fun start unit hm i hlt => hinside _ hm i hlt, fun i hlt hout => ?_⟩
  rw [hwrites.outside i ?_, (zeroBetween_filled inst.schema.size).zero i (Nat.zero_le i) (hsize ▸ hlt)]
  intro stretch hm
  obtain ⟨leaf, hleaf, rfl⟩ := List.mem_map.1 hm
  exact hout leaf hleaf

/-! ## Two instances of one schema -/

/-- Two leaves stand at one place and hold handles, or values of one type. -/
inductive InstanceLeaf.Alike : InstanceLeaf → InstanceLeaf → Prop
  | value {start : Nat} {value other : UniformValue} (h : value.isWellFormed)
      (h' : other.isWellFormed) (baseType : other.baseType = value.baseType)
      (rows : ∀ kind columns rows, value.baseType = .matrix kind columns rows → rows ∈ [2, 3, 4]) :
      Alike ⟨start, .value value⟩ ⟨start, .value other⟩
  | handle {start : Nat} {unit other : Option Nat} : Alike ⟨start, .handle unit⟩ ⟨start, .handle other⟩

/-- Two leaves stand at one place and hold handles, or values that agree bit for bit. -/
inductive InstanceLeaf.Agrees : InstanceLeaf → InstanceLeaf → Prop
  | value {start : Nat} {value other : UniformValue} (h : value.SameBits other) :
      Agrees ⟨start, .value value⟩ ⟨start, .value other⟩
  | handle {start : Nat} {unit other : Option Nat} :
      Agrees ⟨start, .handle unit⟩ ⟨start, .handle other⟩

theorem forall₂_eachAt {α β γ : Type} {R : β → γ → Prop} {place : Nat → α → List β}
    {place' : Nat → α → List γ} {list others : List α} (hl : others.length = list.length)
    (h : ∀ a ∈ list, ∀ b ∈ others, ∀ base, List.Forall₂ R (place base a) (place' base b))
    (stride base : Nat) :
    List.Forall₂ R (eachAt place stride base list) (eachAt place' stride base others) := by
  induction list generalizing others base with
  | nil =>
    obtain rfl := List.length_eq_zero_iff.1 hl
    exact .nil
  | cons a rest ih =>
    cases others with
    | nil => cases hl
    | cons b others =>
      rw [eachAt, eachAt]
      refine List.rel_append (h a List.mem_cons_self b List.mem_cons_self base) ?_
      exact ih (Nat.succ.inj hl) (fun x hx y hy =>
        h x (List.mem_cons_of_mem _ hx) y (List.mem_cons_of_mem _ hy)) _

/-- Typed instances of the schema have their leaves at the same places. -/
def TypeSchema.Uniform (schema : TypeSchema) : Prop :=
  ∀ inst other : StructInstance, inst.Typed → other.Typed → inst.schema = schema →
    other.schema = schema → ∀ base, List.Forall₂ InstanceLeaf.Alike (inst.leaves base)
      (other.leaves base)

theorem FieldSchema.Regular.alike {field : FieldSchema} (h : field.Regular)
    (hn : ∀ inner, field.kind = .aggregate inner → inner.Uniform) {state other : FieldState}
    (ht : state.Typed field) (ho : other.Typed field) (base : Nat) :
    List.Forall₂ InstanceLeaf.Alike (state.leaves base field.stride)
      (other.leaves base field.stride) := by
  obtain ⟨contents, dirty, location, unit⟩ := state
  obtain ⟨contents', dirty', location', unit'⟩ := other
  cases contents with
  | values list =>
    rw [FieldState.Typed] at ht
    obtain ⟨hl, type, hk, hall⟩ := ht
    obtain ⟨list', rfl, hl', hall'⟩ := ho.of_value hk
    rw [FieldState.leaves, FieldState.leaves]
    refine forall₂_eachAt (hl'.trans hl.symm) (fun value hm next hm' start => ?_) _ _
    obtain ⟨hb, hw⟩ := hall value hm
    obtain ⟨hb', hw'⟩ := hall' next hm'
    refine .cons (.value hw hw' (hb'.trans hb.symm) fun kind columns rows he => ?_) .nil
    exact h.rows kind columns rows (by rw [hk, ← hb, he])
  | handles list =>
    rw [FieldState.Typed] at ht
    obtain ⟨hl, handle, hk⟩ := ht
    obtain ⟨list', rfl, hl'⟩ := ho.of_handle hk
    rw [FieldState.leaves, FieldState.leaves]
    refine forall₂_eachAt ?_ (fun _ _ _ _ start => .cons .handle .nil) _ _
    unfold unitsFrom
    rw [List.length_map, List.length_map, List.length_range, List.length_range, hl, hl']
  | children list =>
    rw [FieldState.Typed] at ht
    obtain ⟨hl, inner, hk, hchildren⟩ := ht
    obtain ⟨list', rfl, hl', hchildren'⟩ := ho.of_aggregate hk
    rw [FieldState.leaves, FieldState.leaves, leavesOfChildren_eq, leavesOfChildren_eq]
    refine forall₂_eachAt (hl'.trans hl.symm) (fun child hm next hm' start => ?_) _ _
    obtain ⟨hs, hc⟩ := childrenTyped_iff.1 hchildren child hm
    obtain ⟨hs', hc'⟩ := childrenTyped_iff.1 hchildren' next hm'
    exact hn inner hk child next hc hc' hs hs' start

theorem alike_leavesOfStates {schemas : List FieldSchema} {states others : List FieldState}
    (ht : StatesTyped schemas states) (ho : StatesTyped schemas others)
    (hr : ∀ field ∈ schemas, field.Regular)
    (hn : ∀ field ∈ schemas, ∀ inner, field.kind = .aggregate inner → inner.Uniform)
    (base : Nat) : List.Forall₂ InstanceLeaf.Alike (leavesOfStates base schemas states)
      (leavesOfStates base schemas others) := by
  induction schemas generalizing states others with
  | nil => simp [leavesOfStates]
  | cons field rest ih =>
    cases states with
    | nil => simp [StatesTyped] at ht
    | cons state states =>
      cases others with
      | nil => simp [StatesTyped] at ho
      | cons other others =>
        rw [StatesTyped] at ht ho
        rw [leavesOfStates, leavesOfStates]
        refine List.rel_append ((hr field List.mem_cons_self).alike (hn field List.mem_cons_self)
          ht.1 ho.1 _) ?_
        exact ih ht.2 ho.2 (fun other hm => hr other (List.mem_cons_of_mem _ hm))
          fun other hm => hn other (List.mem_cons_of_mem _ hm)

theorem TypeSchema.Regular.uniform {schema : TypeSchema} (h : schema.Regular) : schema.Uniform := by
  induction h with
  | @intro schema _ hfield _ _ _ ih =>
    intro inst other ht ho hs hs' base
    have ht := StructInstance.typed_iff.1 ht
    have ho := StructInstance.typed_iff.1 ho
    rw [StructInstance.leaves_eq, StructInstance.leaves_eq]
    rw [hs] at ht ⊢
    rw [hs'] at ho ⊢
    exact alike_leavesOfStates ht ho hfield ih base

/-- An image that shows two instances of one schema has the bits of both. -/
theorem agrees_of_shows {inst other : StructInstance} (h : inst.Typed) (ho : other.Typed)
    (hr : inst.schema.Regular) (hs : other.schema = inst.schema) {image : Image}
    (hi : inst.Shows image) (hi' : other.Shows image) :
    List.Forall₂ InstanceLeaf.Agrees (inst.leaves 0) (other.leaves 0) := by
  have halike := hr.uniform inst other h ho rfl hs 0
  have hleft := hi.value
  have hright := hi'.value
  generalize inst.leaves 0 = leaves at *
  generalize other.leaves 0 = leaves' at *
  induction halike with
  | nil => exact .nil
  | cons hab _ ih =>
    refine .cons ?_ (ih (fun start value hm => hleft start value (List.mem_cons_of_mem _ hm))
      fun start value hm => hright start value (List.mem_cons_of_mem _ hm))
    cases hab with
    | handle => exact .handle
    | value hw hw' hb hrows =>
      refine .value (UniformValue.sameBits_of_std140Byte_eq hw hw' hb hrows fun i hlt => ?_)
      have hl := hleft _ _ List.mem_cons_self i hlt
      have hr := hright _ _ List.mem_cons_self i (hb.symm ▸ hlt)
      exact Option.some.inj (hr.symm.trans hl)

end UniformLayout
