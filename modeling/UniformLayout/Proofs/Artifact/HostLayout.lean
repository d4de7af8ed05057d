import UniformLayout.Artifact.Data
import UniformLayout.Table

/-!
# How the host lays out structs

The members of a struct lie in the order of their declaration, each at the next multiple of its
alignment, and the struct ends at a multiple of the largest alignment (`layStruct?`). A generated
source may not leave a gap to these rules: gaps would hold bytes that nothing has set. A struct without
gaps is `Packed`.

* `TypeSchema.hostStruct?`: the plain-data struct of a schema under these rules.
* `placeMembers?_cons`: a member that comes at a multiple of its alignment leaves no gap.
* `BaseType.extent?_hostType`: the host type of a base type has the size of the base type.
-/

namespace UniformLayout

/-- What a type takes up. -/
structure Extent where
  size : Nat
  alignment : Nat
  deriving DecidableEq, Repr

/-- 64-bit numbers are aligned to 8 bytes, and all others to 4. -/
def ScalarKind.hostExtent : ScalarKind → Extent
  | .double => ⟨8, 8⟩
  | .bool | .int | .uint | .float => ⟨4, 4⟩

/-- The extent of a type, where named types have the given ones. -/
def HostType.extent? (known : Table String Extent) : HostType → Option Extent
  | .byte => some ⟨1, 1⟩
  | .component kind => some kind.hostExtent
  | .array element length => (element.extent? known).map fun e => ⟨length * e.size, e.alignment⟩
  | .named name => known.lookup name

/-- A member in its place. -/
structure HostPlace where
  name : String
  offset : Nat
  size : Nat
  deriving DecidableEq, Repr

/-- A struct that has been laid out. -/
structure HostStruct where
  places : List HostPlace
  size : Nat
  alignment : Nat
  deriving DecidableEq, Repr

namespace HostStruct

def extent (struct : HostStruct) : Extent := ⟨struct.size, struct.alignment⟩

def offsetOf? (struct : HostStruct) (name : String) : Option Nat :=
  (struct.places.find? (·.name == name)).map HostPlace.offset

end HostStruct

/-- The places cover all bytes between two offsets, one directly behind the other. -/
def Contiguous : (cursor : Nat) → List HostPlace → (finish : Nat) → Prop
  | cursor, [], finish => cursor = finish
  | cursor, place :: rest, finish =>
    place.offset = cursor ∧ Contiguous (cursor + place.size) rest finish

/-- No byte belongs to no member. -/
def HostStruct.Packed (struct : HostStruct) : Prop := Contiguous 0 struct.places struct.size

/-- Places members from an offset on: their places, where they end, and the largest alignment. -/
def placeMembers? (known : Table String Extent) :
    (cursor : Nat) → List DataMember → Option (List HostPlace × Extent)
  | cursor, [] => some ([], ⟨cursor, 1⟩)
  | cursor, member :: rest => do
    let extent ← member.type.extent? known
    let offset := roundUp cursor extent.alignment
    let (places, whole) ← placeMembers? known (offset + extent.size) rest
    return (⟨member.name, offset, extent.size⟩ :: places,
      ⟨whole.size, max extent.alignment whole.alignment⟩)

/-- Lays out a struct. -/
def layStruct? (known : Table String Extent) (members : List DataMember) : Option HostStruct :=
  (placeMembers? known 0 members).map fun (places, whole) =>
    ⟨places, roundUp whole.size whole.alignment, whole.alignment⟩

/-- The structs for padded elements, by name. -/
def elementTable? (known : Table String Extent) : List FieldPlan → Option (Table String Extent)
  | [] => some []
  | plan :: rest => do
    let others ← elementTable? known rest
    match plan.element with
    | none => return others
    | some name =>
      let struct ← layStruct? known plan.elementMembers
      return (name, struct.extent) :: others

mutual

/-- The plain-data struct of a schema. Its members may be of the structs for padded elements in the
same source, and of the plain-data structs of the nested schemas. -/
def TypeSchema.hostStruct? : TypeSchema → Option HostStruct
  | ⟨identity, _, size, _, fields⟩ => do
    let children ← childTable? fields
    let plans := planFrom identity.generatedName {} 0 fields
    let elements ← elementTable? children plans
    layStruct? (elements ++ children) (dataMembersFrom size 0 0 plans)

/-- The plain-data structs of the schemas nested in fields, by name. -/
def childTable? : List FieldSchema → Option (Table String Extent)
  | [] => some []
  | ⟨_, _, kind, _, _, _, _, _⟩ :: rest => do
    let first ← kind.childEntry?
    let others ← childTable? rest
    return first ++ others

def FieldKind.childEntry? : FieldKind → Option (Table String Extent)
  | .aggregate schema => do
    let struct ← schema.hostStruct?
    return [(dataName schema.name, struct.extent)]
  | _ => some []

end

theorem TypeSchema.hostStruct?_eq (schema : TypeSchema) :
    schema.hostStruct? = (childTable? schema.fields).bind fun children =>
      (elementTable? children schema.plans).bind fun elements =>
        layStruct? (elements ++ children) (schema.dataMembers schema.plans) := by
  cases schema
  rw [hostStruct?]
  rfl

/-- The struct for a padded element of a schema. -/
def TypeSchema.elementStruct? (schema : TypeSchema) (plan : FieldPlan) : Option HostStruct := do
  layStruct? (← childTable? schema.fields) plan.elementMembers

/-! ## Members without gaps -/

variable {known : Table String Extent}

theorem placeMembers?_cons {cursor : Nat} {member : DataMember} {rest : List DataMember}
    {size alignment finish others : Nat} {places : List HostPlace}
    (h : member.type.extent? known = some ⟨size, alignment⟩) (hd : alignment ∣ cursor)
    (hrest : placeMembers? known (cursor + size) rest = some (places, ⟨finish, others⟩)) :
    placeMembers? known cursor (member :: rest) =
      some (⟨member.name, cursor, size⟩ :: places, ⟨finish, max alignment others⟩) := by
  rw [placeMembers?, h, Option.bind_eq_bind, Option.bind_some, roundUp_eq_self_of_dvd hd]
  dsimp only
  rw [hrest]
  rfl

theorem extent?_bytes (bytes : Nat) :
    (HostType.array .byte bytes).extent? known = some ⟨bytes, 1⟩ := by
  rw [HostType.extent?, HostType.extent?, Option.map_some, Nat.mul_one]

/-- A padding member fills the place up to the next member. -/
theorem placeMembers?_pad {cursor target n finish others : Nat} {rest : List DataMember}
    {places : List HostPlace} (hle : cursor ≤ target) (ho : 1 ≤ others)
    (hrest : placeMembers? known target rest = some (places, ⟨finish, others⟩)) :
    placeMembers? known cursor (padMember n (target - cursor) :: rest) =
      some (⟨(padMember n (target - cursor)).name, cursor, target - cursor⟩ :: places,
        ⟨finish, others⟩) := by
  have htarget : cursor + (target - cursor) = target := by omega
  have hplaced : placeMembers? known cursor (padMember n (target - cursor) :: rest) = some _ :=
    placeMembers?_cons (extent?_bytes (target - cursor)) (Nat.one_dvd cursor) (htarget.symm ▸ hrest)
  rwa [Nat.max_eq_right ho] at hplaced

theorem map_name_placeMembers? {cursor : Nat} {members : List DataMember} {places : List HostPlace}
    {whole : Extent} (h : placeMembers? known cursor members = some (places, whole)) :
    places.map HostPlace.name = members.map DataMember.name := by
  induction members generalizing cursor places whole with
  | nil =>
    obtain ⟨rfl, -⟩ := Prod.mk.inj (Option.some.inj h)
    rfl
  | cons member rest ih =>
    rw [placeMembers?] at h
    obtain ⟨extent, -, h⟩ := Option.bind_eq_some_iff.1 h
    obtain ⟨⟨others, end_⟩, ho, h⟩ := Option.bind_eq_some_iff.1 h
    obtain ⟨rfl, -⟩ := Prod.mk.inj (Option.some.inj h)
    rw [List.map_cons, List.map_cons, ih ho]

theorem HostStruct.offsetOf?_of_mem {struct : HostStruct}
    (hn : (struct.places.map HostPlace.name).Nodup) {name : String} {offset size : Nat}
    (hm : ⟨name, offset, size⟩ ∈ struct.places) : struct.offsetOf? name = some offset := by
  unfold offsetOf?
  generalize struct.places = places at hn hm
  induction places with
  | nil => cases hm
  | cons first rest ih =>
    obtain ⟨hnew, hrest⟩ := List.nodup_cons.1 hn
    rw [List.find?_cons]
    split
    · rename_i he
      rcases List.mem_cons.1 hm with rfl | hm
      · rfl
      · exact absurd (List.mem_map_of_mem hm) (beq_iff_eq.1 he ▸ hnew)
    · rename_i hne
      rcases List.mem_cons.1 hm with rfl | hm
      · exact absurd (beq_self_eq_true _) (hne ▸ Bool.false_ne_true)
      · exact ih hrest hm

/-! ## Base types -/

/-- The alignment of the components. -/
def BaseType.hostAlignment : BaseType → Nat
  | .scalar kind | .vector kind _ | .matrix kind _ _ => kind.hostExtent.alignment
  | .handle _ => 4

theorem ScalarKind.hostExtent_eq (kind : ScalarKind) : kind.hostExtent = ⟨kind.size, kind.size⟩ := by
  cases kind <;> rfl

theorem ScalarKind.size_dvd (kind : ScalarKind) : kind.size ∣ minAlignment := by
  cases kind <;> decide

theorem BaseType.hostAlignment_mem (type : BaseType) : type.hostAlignment ∈ [1, 4, 8] := by
  have hkind : ∀ kind : ScalarKind, kind.hostExtent.alignment ∈ [1, 4, 8] := by
    intro kind
    cases kind <;> decide
  cases type with
  | scalar kind => exact hkind kind
  | vector kind lanes => exact hkind kind
  | matrix kind columns rows => exact hkind kind
  | handle kind => exact List.mem_cons_of_mem _ List.mem_cons_self

theorem BaseType.hostAlignment_dvd (type : BaseType) : type.hostAlignment ∣ type.alignment := by
  cases type with
  | scalar kind =>
    have hsame : (BaseType.scalar kind).hostAlignment = (BaseType.scalar kind).alignment := by
      rw [hostAlignment, kind.hostExtent_eq, alignment]
    exact hsame ▸ Nat.dvd_refl _
  | vector kind lanes =>
    rw [hostAlignment, kind.hostExtent_eq, alignment, vectorAlignment]
    split
    · exact Nat.dvd_mul_left _ _
    · exact Nat.dvd_mul_left _ _
  | matrix kind columns rows =>
    rw [hostAlignment, kind.hostExtent_eq, alignment, matrixStride]
    exact Nat.dvd_trans kind.size_dvd (roundUp_dvd _ (by decide))
  | handle kind => exact Nat.dvd_refl 4

/-- The host type takes up what the base type does: the columns of a matrix are widened. -/
theorem BaseType.extent?_hostType (type : BaseType) :
    type.hostType.extent? known = some ⟨type.size, type.hostAlignment⟩ := by
  cases type with
  | scalar kind => rw [hostType, HostType.extent?, hostAlignment, kind.hostExtent_eq, size]
  | vector kind lanes =>
    rw [hostType, HostType.extent?, HostType.extent?, hostAlignment, kind.hostExtent_eq, size]
    rfl
  | matrix kind columns rows =>
    have hcolumn : kind.size ∣ matrixStride kind rows :=
      Nat.dvd_trans kind.size_dvd (roundUp_dvd _ (by decide))
    rw [hostType, HostType.extent?, HostType.extent?, HostType.extent?, hostAlignment,
      kind.hostExtent_eq, size]
    simp only [Option.map_some, Nat.div_mul_cancel hcolumn]
  | handle kind => rfl

end UniformLayout
