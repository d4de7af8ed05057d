import UniformLayout.Proofs.Layout.Placement

/-!
# The std140 layout is the exact one, where it fits

`TypeDeclaration.layOut` works with checked 32-bit numbers, `TypeDeclaration.exactLayout` with
numbers without a bound. `layOut_refinesExact` says that the first gives what the second gives
whenever all its numbers fit, that it names the first field that does not fit otherwise, and that
what it gives is well placed: aligned, in order, inside its own size and without overlap on every
level of nesting.
-/

namespace UniformLayout

/-- What users of a layout may rely on. -/
structure StructLayout.WellPlaced (layout : StructLayout) : Prop where
  valid : layout.validate = .ok ()
  power : layout.alignment.isPowerOfTwo
  least : 16 ≤ layout.alignment
  field_aligned : ∀ field ∈ layout.fields, field.alignment ∣ field.offset
  element_aligned : ∀ field ∈ layout.fields, ∀ index < field.length,
    field.alignment ∣ field.elementOffset index
  fields_apart : layout.fields.Pairwise fun before after => before.finish ≤ after.offset
  elements_apart : ∀ field ∈ layout.fields, ∀ i j, i < j → j < field.length →
    field.elementOffset i + field.elementSize ≤ field.elementOffset j
  elements_inside : ∀ field ∈ layout.fields, ∀ index < field.length,
    field.offset ≤ field.elementOffset index ∧
      field.elementOffset index + field.elementSize ≤ field.finish
  fields_inside : ∀ field ∈ layout.fields, field.finish ≤ layout.size
  leaves : ∀ base, layout.alignment ∣ base →
    LeavesWithin (layout.leaves base) base (base + layout.size)

/-- How the layout of a declaration relates to the exact one. -/
structure TypeDeclaration.RefinesExact (decl : TypeDeclaration) (contentHash : String)
    (nested : LayoutTable) : Prop where
  /-- The layout succeeds exactly when every number fits in 32 bits. -/
  succeeds_iff : (∃ layout, decl.layOut contentHash nested = .ok layout) ↔
    (decl.exactLayout contentHash nested).Addressable
  /-- What it returns has the exact numbers. -/
  eq_exact : ∀ layout, decl.layOut contentHash nested = .ok layout →
    layout = decl.exactLayout contentHash nested
  well_placed : ∀ layout, decl.layOut contentHash nested = .ok layout → layout.WellPlaced
  /-- Otherwise the field that does not fit is reported. -/
  overflow : ¬ (decl.exactLayout contentHash nested).Addressable →
    ∃ name, (decl.exactLayout contentHash nested).OverflowsAt name ∧
      decl.layOut contentHash nested = .error (.layoutOverflow decl.name name)

theorem fits_of_alignment_mem {alignment : Nat} (h : alignment ∈ [4, 8, 16, 32]) :
    Fits alignment := by
  simp only [List.mem_cons, List.not_mem_nil, or_false] at h
  rcases h with rfl | rfl | rfl | rfl <;> decide

/-- Alignments are small, so that only the other numbers can fail to fit. -/
theorem StructLayout.Regular.addressable_iff {layout : StructLayout} (h : layout.Regular) :
    layout.Addressable ↔ (∀ field ∈ layout.fields, field.Addressable) ∧ Fits layout.size := by
  constructor
  · intro ha
    exact ⟨ha.fields, ha.size⟩
  · rintro ⟨hf, hs⟩
    exact ⟨hf, fun field hm => fits_of_alignment_mem (h.field field hm).alignment_mem,
      fits_of_alignment_mem h.alignment_mem, hs⟩

theorem StructLayout.inOrder_of_pairwise {fields : List FieldLayout}
    (h : fields.Pairwise fun before after => before.finish ≤ after.offset) : InOrder fields := by
  induction fields with
  | nil => trivial
  | cons field rest ih =>
    obtain ⟨hfirst, hrest⟩ := List.pairwise_cons.1 h
    cases rest with
    | nil => trivial
    | cons next others => exact ⟨hfirst next List.mem_cons_self, ih hrest⟩

theorem StructLayout.LaidOut.wellPlaced {layout : StructLayout} (h : layout.LaidOut) :
    layout.WellPlaced := by
  have hr := h.regular
  refine ⟨?_, ?_, ?_, ?_, ?_, hr.in_order, ?_, ?_, hr.inside, fun base hb => h.leavesWithin hb⟩
  · rw [StructLayout.validate_eq_ok_iff]
    exact ⟨h.alignment_ne_zero, Nat.mod_eq_zero_of_dvd hr.size_dvd, hr.inside,
      StructLayout.inOrder_of_pairwise hr.in_order⟩
  · rcases hr.alignment_eq with ha | ha
    · exact ⟨4, ha⟩
    · exact ⟨5, ha⟩
  · rcases hr.alignment_eq with ha | ha
    · omega
    · omega
  · intro field hm
    exact (hr.field field hm).offset_dvd
  · intro field hm index _
    exact (hr.field field hm).element_dvd index
  · intro field hm i j hij hj
    exact (hr.field field hm).element_apart hij hj
  · intro field hm index hi
    exact (hr.field field hm).element_inside hi

/-- **Refinement.** For layouts of nested aggregates that were themselves made by `layOut`. -/
theorem layOut_refinesExact (decl : TypeDeclaration) (contentHash : String)
    (nested : LayoutTable) (hn : nested.LaidOut) (hc : nested.Covers decl.fields) :
    decl.RefinesExact contentHash nested := by
  have hregular := exactLayout_regular decl contentHash
    fun name below hl => (hn name below hl).regular.alignment_mem
  refine ⟨⟨?_, ?_⟩, ?_, ?_, ?_⟩
  · rintro ⟨layout, h⟩
    obtain ⟨-, rfl, hf, hs⟩ := eq_exactLayout hn h
    exact hregular.addressable_iff.2 ⟨hf, hs⟩
  · intro ha
    exact ⟨_, layOut_of_fits hn hc ha.fields ha.size⟩
  · intro layout h
    exact (eq_exactLayout hn h).2.1
  · intro layout h
    exact (StructLayout.LaidOut.intro hn h).wellPlaced
  · intro ha
    rcases fits_or_overflowsAt decl contentHash nested with hfits | ⟨name, hname⟩
    · exact absurd (hregular.addressable_iff.2 hfits) ha
    · exact ⟨name, hname, layOut_of_overflowsAt hn hc hname⟩

/-! ## A scene with too many weights -/

/-- A struct of 16 bytes. -/
def lampDeclaration : TypeDeclaration where
  name := "Lamp"
  kind := .struct
  fields := [{ typeName := "vec3", name := "position" }, { typeName := "float", name := "range" }]

/-- The table that holds the layout of `lampDeclaration` alone. -/
def lampTable : LayoutTable :=
  match lampDeclaration.layOut "lamp" [] with
  | .ok layout => [("Lamp", layout)]
  | .error _ => []

/-- The stride of 16 bytes puts the end of `weights` at 2^32 bytes and more. -/
def crowdedDeclaration : TypeDeclaration where
  name := "Crowded"
  kind := .struct
  fields := [{ typeName := "Lamp", name := "lamps", arrayLength := some 3 },
    { typeName := "float", name := "weights", arrayLength := some 268435456 }]

theorem lampTable_laidOut : lampTable.LaidOut := by
  intro name below hl
  unfold lampTable at hl
  split at hl
  · rename_i layout made
    rw [List.lookup_cons] at hl
    split at hl
    · cases hl
      exact .intro (fun _ _ h => by cases h) made
    · cases hl
  · cases hl

theorem lampTable_covers : lampTable.Covers crowdedDeclaration.fields := by
  unfold LayoutTable.Covers
  decide +kernel

theorem layOut_refinesExact_crowded :
    lampTable.LaidOut ∧ lampTable.Covers crowdedDeclaration.fields ∧
      crowdedDeclaration.RefinesExact "crowded" lampTable ∧
      crowdedDeclaration.layOut "crowded" lampTable =
        .error (.layoutOverflow "Crowded" "weights") :=
  ⟨lampTable_laidOut, lampTable_covers,
    layOut_refinesExact _ _ _ lampTable_laidOut lampTable_covers, rfl⟩

end UniformLayout
