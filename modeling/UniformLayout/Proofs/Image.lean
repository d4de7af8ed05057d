import UniformLayout.Image

/-!
# Stretches of an image

What a sequence of writes does to an image is said by the stretches that it fills: inside them stand
their bytes, and everything outside them is as it was (`Image.Writes`). Writes into neighbouring parts
of an image can be put together.

* `Writes.append`: one sequence of writes behind the other.
* `store?_writes`: writing some bytes at an offset.
* `foldlM_store?_writes`: writing several pieces that stand in order.
* `store?_littleEndian_writes`: writing the first bytes of a number.
-/

namespace UniformLayout

/-- Bytes in their place. -/
structure Stretch where
  start : Nat
  size : Nat
  byte : Nat → UInt8

def Stretch.finish (stretch : Stretch) : Nat := stretch.start + stretch.size

/-- Some bytes from an offset on. -/
def Stretch.ofBytes (start : Nat) (bytes : List UInt8) : Stretch where
  start
  size := bytes.length
  byte i := bytes.getD i 0

namespace Image

/-- The stretches lie between two places and have been filled; everything else is as before. -/
structure Writes (stretches : List Stretch) (low high : Nat) (before after : Image) : Prop where
  size : after.size = before.size
  within : ∀ stretch ∈ stretches, low ≤ stretch.start ∧ stretch.finish ≤ high
  inside : ∀ stretch ∈ stretches, ∀ i < stretch.size,
    after[stretch.start + i]? = some (stretch.byte i)
  outside : ∀ i : Nat, (∀ stretch ∈ stretches, i < stretch.start ∨ stretch.finish ≤ i) →
    after[i]? = before[i]?

/-- The image reaches to `high`, and from `low` up to there it is zero. -/
structure ZeroBetween (image : Image) (low high : Nat) : Prop where
  reaches : high ≤ image.size
  zero : ∀ i, low ≤ i → i < high → image[i]? = some 0

theorem zeroBetween_filled (size : Nat) : (filled size 0).ZeroBetween 0 size := by
  refine ⟨by simp [filled], fun i _ hi => ?_⟩
  simp [filled, hi]

theorem ZeroBetween.mono {image : Image} {low high low' high' : Nat}
    (h : image.ZeroBetween low high) (hl : low ≤ low') (hh : high' ≤ high) :
    image.ZeroBetween low' high' :=
  ⟨Nat.le_trans hh h.reaches, fun i hi hi' => h.zero i (by omega) (by omega)⟩

namespace Writes

variable {stretches others : List Stretch} {before mid after : Image} {low high low' high' : Nat}

theorem nil (image : Image) (low high : Nat) : Writes [] low high image image :=
  ⟨rfl, by simp, by simp, fun _ _ => rfl⟩

theorem widen (h : Writes stretches low high before after) (hl : low' ≤ low) (hh : high ≤ high') :
    Writes stretches low' high' before after := by
  refine ⟨h.size, fun stretch hm => ?_, h.inside, h.outside⟩
  have := h.within stretch hm
  omega

/-- Outside its bounds, nothing is written. -/
theorem beyond (h : Writes stretches low high before after) {i : Nat} (hi : i < low ∨ high ≤ i) :
    after[i]? = before[i]? := by
  apply h.outside
  intro stretch hm
  have := h.within stretch hm
  omega

/-- What is written first stays when the rest is written behind it. -/
theorem append (h : Writes stretches low high before mid) (k : Writes others low' high' mid after)
    (hle : high ≤ low') (hl : low ≤ low') (hh : high ≤ high') :
    Writes (stretches ++ others) low high' before after := by
  refine ⟨k.size.trans h.size, ?_, ?_, ?_⟩
  · intro stretch hm
    rcases List.mem_append.1 hm with hm | hm
    · have := h.within stretch hm
      omega
    · have := k.within stretch hm
      omega
  · intro stretch hm i hi
    rcases List.mem_append.1 hm with hm | hm
    · have hbound := (h.within stretch hm).2
      unfold Stretch.finish at hbound
      rw [k.beyond (by omega)]
      exact h.inside stretch hm i hi
    · exact k.inside stretch hm i hi
  · intro i hi
    rw [k.outside i fun stretch hm => hi stretch (List.mem_append_right _ hm)]
    exact h.outside i fun stretch hm => hi stretch (List.mem_append_left _ hm)

/-- What lies behind the writes stays zero. -/
theorem zeroBetween (h : Writes stretches low high before after) {low' high' : Nat}
    (hz : before.ZeroBetween low' high') (hle : high ≤ low') : after.ZeroBetween low' high' := by
  refine ⟨h.size ▸ hz.reaches, fun i hi hi' => ?_⟩
  rw [h.beyond (by omega)]
  exact hz.zero i hi hi'

end Writes

/-! ## Storing bytes -/

theorem getElem?_storeFrom_inside (image : Image) (offset : Nat) (bytes : List UInt8) {i : Nat}
    (hi : i < bytes.length) (hf : offset + bytes.length ≤ image.size) :
    (image.storeFrom offset bytes)[offset + i]? = some (bytes.getD i 0) := by
  induction bytes generalizing image offset i with
  | nil => cases hi
  | cons byte rest ih =>
    rw [List.length_cons] at hi hf
    rw [storeFrom]
    cases i with
    | zero =>
      rw [getElem?_storeFrom_outside _ _ _ (by omega)]
      exact Array.getElem?_setIfInBounds_self_of_lt (by omega)
    | succ i =>
      have hnext := ih (image.setIfInBounds offset byte) (offset + 1) (by omega : i < rest.length)
        (by rw [Array.size_setIfInBounds]; omega)
      rw [show offset + (i + 1) = offset + 1 + i by omega, hnext]
      rfl

/-- Bytes that the image holds are written, and nothing else. -/
theorem store?_writes {image : Image} {offset high : Nat} {bytes : List UInt8}
    (hb : offset + bytes.length ≤ high) (hh : high ≤ image.size) :
    ∃ after, image.store? offset bytes = some after ∧
      Writes [Stretch.ofBytes offset bytes] offset high image after := by
  have hf : offset + bytes.length ≤ image.size := Nat.le_trans hb hh
  refine ⟨image.storeFrom offset bytes, if_pos hf, size_storeFrom _ _ _, ?_, ?_, ?_⟩
  · intro stretch hm
    obtain rfl := List.mem_singleton.1 hm
    exact ⟨Nat.le_refl _, hb⟩
  · intro stretch hm i hi
    obtain rfl := List.mem_singleton.1 hm
    exact getElem?_storeFrom_inside image offset bytes hi hf
  · intro i hi
    exact getElem?_storeFrom_outside image offset bytes (hi _ (List.mem_singleton_self _))

/-- Pieces that stand in order are written one after the other. -/
theorem foldlM_store?_writes {pieces : List (Nat × List UInt8)} {start low high : Nat}
    {image : Image} (hh : high ≤ image.size)
    (hp : ∀ piece ∈ pieces, low ≤ start + piece.1 ∧ start + piece.1 + piece.2.length ≤ high)
    (ho : pieces.Pairwise fun piece next => piece.1 + piece.2.length ≤ next.1) :
    ∃ after, pieces.foldlM (fun image piece => store? image (start + piece.1) piece.2) image =
        some after ∧
      Writes (pieces.map fun piece => Stretch.ofBytes (start + piece.1) piece.2) low high image
        after := by
  induction pieces generalizing image low with
  | nil => exact ⟨image, rfl, Writes.nil image low high⟩
  | cons piece rest ih =>
    obtain ⟨hfirst, hrest⟩ := List.forall_mem_cons.1 hp
    obtain ⟨hnext, horder⟩ := List.pairwise_cons.1 ho
    obtain ⟨mid, hmid, hwrite⟩ :=
      store?_writes (Nat.le_refl (start + piece.1 + piece.2.length)) (Nat.le_trans hfirst.2 hh)
    have hbehind : ∀ other ∈ rest, start + piece.1 + piece.2.length ≤ start + other.1 ∧
        start + other.1 + other.2.length ≤ high := by
      intro other hm
      have := hnext other hm
      have := hrest other hm
      omega
    obtain ⟨after, hafter, hwrites⟩ := ih (hwrite.size ▸ hh) hbehind horder
    refine ⟨after, ?_, ?_⟩
    · rw [List.foldlM_cons, hmid]
      exact hafter
    · exact ((hwrite.append hwrites (Nat.le_refl _) (by omega) hfirst.2).widen hfirst.1
        (Nat.le_refl _))

/-! ## The bytes of a number -/

/-- Byte `i` of a number, counted from the least significant one. -/
def byteAt (value i : Nat) : UInt8 := UInt8.ofNat (value >>> (8 * i))

theorem getElem?_littleEndian {count value i : Nat} (h : i < count) :
    (littleEndian count value)[i]? = some (byteAt value i) := by
  unfold littleEndian byteAt
  rw [List.getElem?_map, List.getElem?_range h]
  rfl

theorem testBit_byteAt (value : Nat) {i j : Nat} (hj : j < 8) :
    (byteAt value i).toNat.testBit j = value.testBit (8 * i + j) := by
  unfold byteAt
  rw [UInt8.toNat_ofNat', Nat.testBit_mod_two_pow, Nat.testBit_shiftRight, decide_eq_true hj,
    Bool.true_and]

/-- The first bytes of a number are written. -/
theorem store?_littleEndian_writes (value : Nat) {image : Image} {offset count : Nat}
    (h : offset + count ≤ image.size) :
    ∃ after, image.store? offset (littleEndian count value) = some after ∧
      Writes [⟨offset, count, byteAt value⟩] offset (offset + count) image after := by
  have hl : (littleEndian count value).length = count := length_littleEndian count value
  have hb : offset + (littleEndian count value).length ≤ offset + count :=
    Nat.add_le_add_left (Nat.le_of_eq hl) offset
  obtain ⟨after, hafter, hwrites⟩ := store?_writes hb h
  refine ⟨after, hafter, hwrites.size, ?_, ?_, ?_⟩
  · intro stretch hm
    obtain rfl := List.mem_singleton.1 hm
    exact ⟨Nat.le_refl _, Nat.le_refl _⟩
  · intro stretch hm i hi
    obtain rfl := List.mem_singleton.1 hm
    have hi : i < count := hi
    refine (hwrites.inside _ (List.mem_singleton_self _) i (Nat.lt_of_lt_of_eq hi hl.symm)).trans ?_
    dsimp only [Stretch.ofBytes]
    rw [List.getD_eq_getElem?_getD, getElem?_littleEndian hi]
    rfl
  · intro i hi
    apply hwrites.outside
    intro stretch hm
    obtain rfl := List.mem_singleton.1 hm
    have := hi _ (List.mem_singleton_self _)
    unfold Stretch.finish Stretch.ofBytes at *
    rw [hl]
    exact this

/-- Numbers with the same first bytes agree in all bits of these. -/
theorem testBit_eq_of_byteAt_eq {count value other : Nat}
    (h : ∀ i < count, byteAt value i = byteAt other i) {bit : Nat} (hb : bit < 8 * count) :
    value.testBit bit = other.testBit bit := by
  have hj : bit % 8 < 8 := Nat.mod_lt _ (by decide)
  have hbyte := h (bit / 8) (by omega)
  have hvalue := testBit_byteAt value (i := bit / 8) hj
  have hother := testBit_byteAt other (i := bit / 8) hj
  rw [Nat.div_add_mod] at hvalue hother
  rw [← hvalue, hbyte, hother]

end Image

end UniformLayout
