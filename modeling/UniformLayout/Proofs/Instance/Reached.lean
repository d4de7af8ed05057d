import UniformLayout.Proofs.Instance.Image

/-!
# Images of the instances that calls lead to

Instances of a schema that was built from laid out aggregates stay typed under all calls, so their
images show them. The schema builder takes two aggregates with one content hash for the same, so they
need to have one size. `blend.glsl` has two of different sizes, and there the image loses a value.

Main statements: `image_of_reaches` and `image_loses_value`.
-/

namespace UniformLayout

/-- **Images.** Whatever calls an instance has seen, it has an image of the size of the schema, and
the image shows the instance. Instances with one image agree in all values. -/
theorem image_of_reaches {scope : SchemaScope} {layouts : List StructLayout} {layout : StructLayout}
    {kept after : SchemaTable} {schema : TypeSchema} {sizes : String → Nat}
    (hb : Built scope layouts kept) (h : layout.toSchema scope kept = .ok (schema, after))
    (hl : ∀ other ∈ layout :: layouts, other.LaidOut)
    (hs : ∀ other ∈ layout :: layouts, other.DeterminedBy StructLayout.size sizes)
    {inst : StructInstance} (hr : schema.Reaches inst) :
    inst.Typed ∧ inst.schema = schema ∧
      ∃ image, inst.image? = some image ∧ image.size = schema.size ∧ inst.Shows image ∧
        ∀ other, schema.Reaches other → other.image? = some image →
          List.Forall₂ InstanceLeaf.Agrees (inst.leaves 0) (other.leaves 0) := by
  obtain ⟨hregular, -⟩ := regular_of_toSchema hb h hl hs
  obtain ⟨htyped, hschema⟩ := hr.typed hregular
  obtain ⟨image, hi, hshows⟩ := shows_image? htyped (hschema ▸ hregular)
  refine ⟨htyped, hschema, image, hi, hshows.size.trans (congrArg _ hschema), hshows, ?_⟩
  intro other ho hsame
  obtain ⟨htyped', hschema'⟩ := ho.typed hregular
  obtain ⟨image', hi', hshows'⟩ := shows_image? htyped' (hschema' ▸ hregular)
  obtain rfl := Option.some.inj (hi'.symm.trans hsame)
  exact agrees_of_shows htyped htyped' (hschema ▸ hregular) (hschema'.trans hschema.symm) hshows
    hshows'

/-- Sets a field that is no array. -/
def StructInstance.setField (name : String) (value : UniformValue) (inst : StructInstance) :
    Except AccessError (StructInstance × Unit) :=
  (inst.set name none value).map (·, ())

theorem StructInstance.changes_setField {name : String} {value : UniformValue}
    {before next : StructInstance} {answer : Unit}
    (h : before.setField name value = .ok (next, answer)) : before.Changes next := by
  unfold setField at h
  cases hs : before.set name none value with
  | error e =>
    rw [hs] at h
    cases h
  | ok after =>
    rw [hs] at h
    cases h
    exact .set hs

/-! ## A room with lamps -/

def roomSizes (hash : String) : Nat := if hash = "lamp" then 16 else 144

/-- The numbers from 1 to 9, column after column. -/
def turnValue : UniformValue where
  kind := .float
  shape := .square 3
  components := [0x3f800000, 0x40000000, 0x40400000, 0x40800000, 0x40a00000, 0x40c00000, 0x40e00000,
    0x41000000, 0x41100000]

theorem image_of_reaches_room :
    ∃ layout schema after inst, roomDeclaration.layOut "room" lampTable = .ok layout ∧
      layout.LaidOut ∧ layout.DeterminedBy StructLayout.size roomSizes ∧
      layout.toSchema roomScope [] = .ok (schema, after) ∧
      schema.instantiate.updateAt (StructInstance.setField "turn" turnValue) [] = .ok (inst, ()) ∧
      ∃ image, inst.image? = some image ∧ inst.Shows image := by
  have hmade : (roomDeclaration.layOut "room" lampTable).toOption.any (fun layout =>
      layout.size == roomSizes "room" && (layout.toSchema roomScope []).toOption.any fun made =>
        (made.1.instantiate.updateAt (StructInstance.setField "turn" turnValue) []).toOption.any
          fun _ => true) = true := by
    decide +kernel
  obtain ⟨layout, hl, hmade⟩ := exists_ok_of_any hmade
  obtain ⟨hsize, hmade⟩ := Bool.and_eq_true_iff.1 hmade
  obtain ⟨⟨schema, after⟩, hs, hturn⟩ := exists_ok_of_any hmade
  obtain ⟨⟨inst, ⟨⟩⟩, hinst, -⟩ := exists_ok_of_any hturn
  have hlaid : layout.LaidOut := .intro lampTable_laidOut hl
  have hlamp : (lampDeclaration.layOut "lamp" []).toOption.all (·.size == roomSizes "lamp") := by
    decide +kernel
  have hdetermined : layout.DeterminedBy StructLayout.size roomSizes :=
    determinedBy_room (fun below hb => beq_iff_eq.1 (by rwa [hb] at hlamp)) hl (beq_iff_eq.1 hsize)
  have hreached : schema.Reaches inst :=
    .call .new (fun _ _ _ => StructInstance.changes_setField) hinst
  obtain ⟨-, -, image, hi, -, hshows, -⟩ := image_of_reaches .none hs (by simpa using hlaid)
    (by simpa using hdetermined) hreached
  exact ⟨layout, schema, after, inst, hl, hlaid, hdetermined, hs, hinst, image, hi, hshows⟩

/-! ## A value that is written twice over -/

/-- Four times the number 1. -/
def onesValue : UniformValue := ⟨.float, .vector 4, List.replicate 4 0x3f800000⟩

/-- Some byte of an element is not in the image. -/
def StructInstance.losesByte (inst : StructInstance) (image : Image) : Bool :=
  (inst.leaves 0).any fun leaf => (List.range leaf.content.size).any fun i =>
    image[leaf.start + i]? != some (leaf.content.byte i)

theorem StructInstance.Shows.losesByte {inst : StructInstance} {image : Image}
    (h : inst.Shows image) : inst.losesByte image = false := by
  unfold StructInstance.losesByte
  rw [List.any_eq_false]
  intro leaf hm
  rw [Bool.not_eq_true, List.any_eq_false]
  intro i hi
  rw [h.inside hm (List.mem_range.1 hi)]
  simp

/-- The field `tail` of the scene overwrites the end of `narrow`. -/
theorem image_loses_value :
    ∃ schema inst image, blendScene?.map (·.schema) = some schema ∧ schema.Reaches inst ∧
      inst.image? = some image ∧ ¬ inst.Shows image := by
  have hchecked : (blendSchema.instantiate.updateAt (StructInstance.setField "b" onesValue)
      [⟨"narrow", none⟩, ⟨"y", none⟩]).toOption.any (fun made =>
        made.1.image?.any made.1.losesByte) = true := by decide +kernel
  obtain ⟨⟨inst, ⟨⟩⟩, hinst, himage⟩ := exists_ok_of_any hchecked
  obtain ⟨image, hi, hloses⟩ := (Option.any_eq_true _ _).1 himage
  have hreached : blendSchema.Reaches inst :=
    .call .new (fun _ _ _ => StructInstance.changes_setField) hinst
  refine ⟨blendSchema, inst, image, schema_blendScene?, hreached, hi, fun hshows => ?_⟩
  rw [hshows.losesByte] at hloses
  cases hloses

end UniformLayout
