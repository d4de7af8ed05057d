/-!
# Byte images

The contents of a buffer are an array of bytes. `Image.store?` writes some bytes at an offset and
gives nothing when they do not fit.

Main statements: `Image.size_store?` and `Image.getElem?_store?_outside`.
-/

namespace UniformLayout

abbrev Image := Array UInt8

namespace Image

/-- An image of `size` bytes of one value. -/
def filled (size : Nat) (byte : UInt8) : Image := Array.replicate size byte

/-- Writes the bytes from `offset` on, as far as the image reaches. -/
def storeFrom (image : Image) (offset : Nat) : List UInt8 → Image
  | [] => image
  | byte :: rest => storeFrom (image.setIfInBounds offset byte) (offset + 1) rest

/-- Writes the bytes from `offset` on, if the image holds them all. -/
def store? (image : Image) (offset : Nat) (bytes : List UInt8) : Option Image :=
  if offset + bytes.length ≤ image.size then some (image.storeFrom offset bytes) else none

/-- The bytes of a number, the least significant first. -/
def littleEndian (count value : Nat) : List UInt8 :=
  (List.range count).map fun i => UInt8.ofNat (value >>> (8 * i))

@[simp] theorem length_littleEndian (count value : Nat) :
    (littleEndian count value).length = count := by
  simp [littleEndian]

@[simp] theorem size_storeFrom (image : Image) (offset : Nat) (bytes : List UInt8) :
    (image.storeFrom offset bytes).size = image.size := by
  induction bytes generalizing image offset with
  | nil => rfl
  | cons byte rest ih => simp [storeFrom, ih]

/-- Writing does not change how long an image is. -/
theorem size_store? {image after : Image} {offset : Nat} {bytes : List UInt8}
    (h : image.store? offset bytes = some after) : after.size = image.size := by
  simp only [store?] at h
  split at h
  · simp only [Option.some.injEq] at h
    simp [← h]
  · simp at h

theorem getElem?_storeFrom_outside (image : Image) (offset : Nat) (bytes : List UInt8) {i : Nat}
    (h : i < offset ∨ offset + bytes.length ≤ i) :
    (image.storeFrom offset bytes)[i]? = image[i]? := by
  induction bytes generalizing image offset with
  | nil => rfl
  | cons byte rest ih =>
    simp only [List.length_cons] at h
    rw [storeFrom, ih _ _ (by omega)]
    exact Array.getElem?_setIfInBounds_ne (by omega)

/-- Bytes outside the written stretch stay as they are. -/
theorem getElem?_store?_outside {image after : Image} {offset : Nat} {bytes : List UInt8} {i : Nat}
    (h : image.store? offset bytes = some after) (hi : i < offset ∨ offset + bytes.length ≤ i) :
    after[i]? = image[i]? := by
  simp only [store?] at h
  split at h
  · simp only [Option.some.injEq] at h
    rw [← h]
    exact getElem?_storeFrom_outside image offset bytes hi
  · simp at h

end Image

end UniformLayout
