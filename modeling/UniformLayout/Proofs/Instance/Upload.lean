import UniformLayout.Proofs.Instance.Ranges
import UniformLayout.Proofs.Instance.Writes
import UniformLayout.Staging

/-!
# What an upload copies

An upload into a buffer that is large enough copies every changed byte of the image and leaves the
rest of the buffer as it was, because the ranges of the changes cover the changed bytes and no others.
The image itself depends on the contents of the cells only.

* `StagingBuffer.foldlM_copyRange?`: copying ranges, overlapping or not.
* `StructInstance.synchronize_uploads`: one synchronization.
* `StructInstance.Shows.getElem?_eq`: bytes of the images of two instances.
-/

namespace UniformLayout

open ByteRange

/-! ## Copying -/

/-- The covered bytes are those of the source, and the others are as before. -/
structure StagingBuffer.Copies (source : Image) (covered : Nat → Prop)
    (before after : StagingBuffer) : Prop where
  size : after.bytes.size = before.bytes.size
  inside : ∀ i, covered i → after.bytes[i]? = source[i]?
  outside : ∀ i, ¬ covered i → after.bytes[i]? = before.bytes[i]?

namespace StagingBuffer

variable {source : Image} {buffer : StagingBuffer}

theorem copyRange?_copies {range : ByteRange} (hr : range.Inside source.size)
    (hs : source.size ≤ buffer.bytes.size) :
    ∃ after, copyRange? source buffer range = some after ∧
      Copies source range.Holds buffer after := by
  obtain ⟨hle, hstop⟩ := hr
  have hlength : (source.extract range.start range.stop).toList.length =
      range.stop - range.start := by
    rw [Array.length_toList, Array.size_extract]
    omega
  have hfits : range.start + (source.extract range.start range.stop).toList.length ≤
      buffer.bytes.size := by
    omega
  obtain ⟨bytes, hb, hwrites⟩ := Image.store?_writes (Nat.le_refl _) hfits
  have hstretch := hwrites.inside _ (List.mem_singleton_self _)
  unfold Stretch.ofBytes at hstretch
  dsimp only at hstretch
  refine ⟨{ buffer with bytes, copied := buffer.copied + (range.stop - range.start) }, ?_,
    hwrites.size, fun i hi => ?_, fun i hi => ?_⟩
  · unfold copyRange?
    rw [if_neg (Nat.not_lt.2 hstop)]
    simp only [Option.pure_def, Option.bind_eq_bind, Option.bind_some, hb]
  · obtain ⟨hstart, hi⟩ := hi
    have hbyte := hstretch (i - range.start) (by omega)
    have hplace : range.start + (i - range.start) = i := by omega
    rw [hplace] at hbyte
    have hget : source[i]? = some source[i] := Array.getElem?_eq_getElem (Nat.lt_of_lt_of_le hi hstop)
    rw [hbyte, hget, List.getD_eq_getElem?_getD, Array.getElem?_toList, Array.getElem?_extract,
      if_pos (by omega), hplace, hget]
    rfl
  · refine hwrites.outside i fun stretch hm => ?_
    obtain rfl := List.mem_singleton.1 hm
    unfold Stretch.finish Stretch.ofBytes Holds at *
    dsimp only at *
    omega

/-- Ranges are copied one after the other. It does not matter whether they overlap: they are copied
from one source. -/
theorem foldlM_copyRange? {ranges : List ByteRange}
    (hr : ∀ range ∈ ranges, range.Inside source.size) (hs : source.size ≤ buffer.bytes.size) :
    ∃ after, ranges.foldlM (copyRange? source) buffer = some after ∧
      Copies source (Covers ranges) buffer after := by
  induction ranges generalizing buffer with
  | nil => exact ⟨buffer, rfl, rfl, fun i hi => absurd hi (covers_nil i), fun _ _ => rfl⟩
  | cons range rest ih =>
    obtain ⟨hfirst, hrest⟩ := List.forall_mem_cons.1 hr
    obtain ⟨mid, hmid, hcopies⟩ := copyRange?_copies hfirst hs
    obtain ⟨after, hafter, hothers⟩ := ih hrest (hcopies.size ▸ hs)
    refine ⟨after, ?_, hothers.size.trans hcopies.size, fun i hi => ?_, fun i hi => ?_⟩
    · rw [List.foldlM_cons, hmid]
      exact hafter
    · by_cases hc : Covers rest i
      · exact hothers.inside i hc
      · rw [hothers.outside i hc]
        exact hcopies.inside i ((covers_cons.1 hi).resolve_right hc)
    · rw [covers_cons, not_or] at hi
      rw [hothers.outside i hi.2, hcopies.outside i hi.1]

end StagingBuffer

/-! ## Cells and images -/

namespace StructInstance

variable {inst other : StructInstance} {image image' : Image}

/-- The byte belongs to a cell that has changed. -/
def Pending (inst : StructInstance) (i : Nat) : Prop :=
  ∃ cell ∈ inst.cells 0, cell.dirty = true ∧ cell.range.Holds i

theorem Typed.cell_inside (h : inst.Typed) (hf : inst.Flagged) (hr : inst.schema.Regular) :
    ∀ cell ∈ inst.cells 0, cell.range.Inside inst.schema.size := by
  intro cell hm
  obtain ⟨after, -, hwrites⟩ := hr.writable inst h rfl 0 (Image.filled inst.schema.size 0)
    ((Nat.zero_add inst.schema.size).symm ▸ Image.zeroBetween_filled inst.schema.size)
  have hleaf : cell.leaf ∈ inst.leaves 0 := by
    rw [← map_leaf_cells 0 inst hf]
    exact List.mem_map_of_mem hm
  have hwithin := (hwrites.within _ (List.mem_map_of_mem hleaf)).2
  rw [Nat.zero_add] at hwithin
  exact ⟨Nat.le_add_right _ _, hwithin⟩

/-- Each byte of an image is that of a cell, or zero where there is none. -/
theorem Shows.getElem?_cell (h : inst.Shows image) (hf : inst.Flagged) {cell : Cell}
    (hm : cell ∈ inst.cells 0) {i : Nat} (hi : cell.range.Holds i) :
    image[i]? = some (cell.content.byte (i - cell.start)) := by
  unfold Cell.range Holds at hi
  dsimp only at hi
  have hbyte := h.getElem?_of_cell hf hm (i := i - cell.start) (by omega)
  rw [← hbyte]
  congr 1
  omega

theorem Shows.getElem?_rest (h : inst.Shows image) (hf : inst.Flagged) {i : Nat}
    (hi : i < inst.schema.size) (hout : ∀ cell ∈ inst.cells 0, ¬ cell.range.Holds i) :
    image[i]? = some 0 := by
  refine h.rest i (h.size ▸ hi) fun leaf hm => ?_
  rw [← map_leaf_cells 0 inst hf] at hm
  obtain ⟨cell, hc, rfl⟩ := List.mem_map.1 hm
  have := hout cell hc
  unfold Cell.range Holds at this
  unfold Cell.leaf
  dsimp only at this ⊢
  omega

/-- Two images agree in a byte when the cells that hold it have the same contents. -/
theorem Shows.getElem?_eq (h : inst.Shows image) (h' : other.Shows image') (hf : inst.Flagged)
    (hf' : other.Flagged) (hs : other.schema.size = inst.schema.size) {i : Nat}
    (hc : List.Forall₂ (fun before after : Cell => after.range = before.range ∧
      (after.range.Holds i → after.content = before.content)) (inst.cells 0) (other.cells 0)) :
    image'[i]? = image[i]? := by
  by_cases hi : i < inst.schema.size
  · by_cases hany : ∃ cell ∈ inst.cells 0, cell.range.Holds i
    · obtain ⟨cell, hm, hholds⟩ := hany
      obtain ⟨next, hn, hrange, hsame⟩ := exists_of_mem_left hc hm
      rw [h.getElem?_cell hf hm hholds, h'.getElem?_cell hf' hn (hrange ▸ hholds),
        hsame (hrange ▸ hholds), show next.start = cell.start from congrArg ByteRange.start hrange]
    · have hout : ∀ cell ∈ other.cells 0, ¬ cell.range.Holds i := by
        intro next hn hholds
        obtain ⟨cell, hm, hrange, -⟩ := exists_of_mem_right hc hn
        exact hany ⟨cell, hm, hrange ▸ hholds⟩
      rw [h.getElem?_rest hf hi fun cell hm hholds => hany ⟨cell, hm, hholds⟩,
        h'.getElem?_rest hf' (hs ▸ hi) hout]
  · have hsize := h.size
    have hsize' := h'.size
    rw [Array.getElem?_eq_none (by omega), Array.getElem?_eq_none (by omega)]

/-! ## Synchronizing -/

theorem map_range_dirtyFields (h : inst.Typed) (hf : inst.Flagged) :
    inst.dirtyFields.map DirtyField.range =
      ((inst.cells 0).filter Cell.dirty).map Cell.range := by
  have hplaces := congrArg (List.map Prod.fst) (inst.place_dirtyFrom "" 0 hf h)
  rw [List.map_map, List.map_map] at hplaces
  exact hplaces

theorem covers_ranges_dirtyFields (h : inst.Typed) (hf : inst.Flagged) (i : Nat) :
    Covers inst.dirtyFields.ranges i ↔ inst.Pending i := by
  rw [DirtySet.covers_ranges, map_range_dirtyFields h hf]
  unfold Covers Pending
  simp only [List.mem_map, List.mem_filter]
  constructor
  · rintro ⟨range, ⟨cell, ⟨hm, hd⟩, rfl⟩, hi⟩
    exact ⟨cell, hm, hd, hi⟩
  · rintro ⟨cell, hm, hd, hi⟩
    exact ⟨cell.range, ⟨cell, ⟨hm, hd⟩, rfl⟩, hi⟩

theorem inside_dirtyFields (h : inst.Typed) (hf : inst.Flagged) (hr : inst.schema.Regular) :
    ∀ change ∈ inst.dirtyFields, change.range.Inside inst.schema.size := by
  intro change hm
  have hrange := List.mem_map_of_mem (f := DirtyField.range) hm
  rw [map_range_dirtyFields h hf] at hrange
  obtain ⟨cell, hc, he⟩ := List.mem_map.1 hrange
  rw [← he]
  exact h.cell_inside hf hr cell (List.mem_filter.1 hc).1

/-- A clean instance that has copied its changed bytes. -/
structure Uploaded (inst : StructInstance) (image : Image) (buffer : StagingBuffer)
    (next : StructInstance) (after : StagingBuffer) : Prop where
  typed : next.Typed
  flagged : next.Flagged
  schema : next.schema = inst.schema
  cells : next.cells 0 = (inst.cells 0).map Cell.clean
  copies : StagingBuffer.Copies image inst.Pending buffer after

/-- Uploading leaves the image as it is. -/
theorem Uploaded.getElem?_eq {buffer after : StagingBuffer} {next : StructInstance}
    (hu : inst.Uploaded image buffer next after) (hf : inst.Flagged) (hr : inst.schema.Regular)
    (hshows : inst.Shows image) (hi : next.image? = some image') (i : Nat) : image'[i]? = image[i]? := by
  obtain ⟨found, hfound, hshows'⟩ := shows_image? hu.typed (hu.schema.symm ▸ hr)
  obtain rfl := Option.some.inj (hi.symm.trans hfound)
  refine hshows.getElem?_eq hshows' hf hu.flagged (by rw [hu.schema]) ?_
  rw [hu.cells, List.forall₂_map_right_iff]
  exact List.forall₂_same.2 fun _ _ => ⟨rfl, fun _ => rfl⟩

/-- **Synchronizing.** With a buffer that is large enough, the changed bytes are copied and the
instance is clean. -/
theorem synchronize_uploads (h : inst.Typed) (hf : inst.Flagged) (hr : inst.schema.Regular)
    (buffer : StagingBuffer) (hs : inst.schema.size ≤ buffer.bytes.size)
    (hi : inst.image? = some image) (hshows : inst.Shows image) :
    ∃ uploaded next after, inst.synchronize buffer = .ok (uploaded, next, after) ∧
      inst.Uploaded image buffer next after := by
  have hdirty := inst.isDirty_eq 0 hf h
  unfold synchronize
  cases hd : inst.isDirty with
  | false =>
    rw [hd] at hdirty
    have hclean : ∀ cell ∈ inst.cells 0, cell.dirty = false := by
      simpa using List.any_eq_false.1 hdirty.symm
    refine ⟨false, inst, buffer, rfl, h, hf, rfl, ?_, rfl, fun i hp => ?_, fun _ _ => rfl⟩
    · refine (List.map_id _).symm.trans (List.map_congr_left fun cell hm => ?_)
      unfold Cell.clean
      rw [← hclean cell hm]
      rfl
    · obtain ⟨cell, hm, hc, -⟩ := hp
      rw [hclean cell hm] at hc
      cases hc
  | true =>
    have hinside : ∀ range ∈ inst.dirtyFields.ranges, range.Inside image.size := by
      rw [hshows.size]
      exact DirtySet.inside_ranges (inside_dirtyFields h hf hr)
    obtain ⟨after, hafter, hcopies⟩ := StagingBuffer.foldlM_copyRange? hinside (hshows.size ▸ hs)
    refine ⟨true, inst.setClean, { after with uploads := after.uploads + 1 }, ?_,
      inst.typed_setClean.2 h, inst.flagged_setClean hf, inst.schema_setClean, inst.cells_setClean 0,
      hcopies.size, fun i hp => ?_, fun i hp => ?_⟩
    · unfold StagingBuffer.upload
      simp only [hi, Option.bind_some, hafter, Nat.not_lt.2 hs, if_false]
      rfl
    · exact hcopies.inside i ((covers_ranges_dirtyFields h hf i).2 hp)
    · exact hcopies.outside i fun hc => hp ((covers_ranges_dirtyFields h hf i).1 hc)

/-- A buffer that is too small refuses changes, and an instance without changes does not look at
the buffer. -/
theorem synchronize_small {buffer : StagingBuffer} (hs : buffer.bytes.size < inst.schema.size) :
    inst.synchronize buffer =
      if inst.isDirty then
        .error (.bufferTooSmall inst.schema.name inst.schema.size buffer.bytes.size)
      else .ok (false, inst, buffer) := by
  unfold synchronize
  cases inst.isDirty with
  | false => rfl
  | true =>
    unfold StagingBuffer.upload
    simp only [gt_iff_lt, hs, if_true]
    rfl

end StructInstance

end UniformLayout
