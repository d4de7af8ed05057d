import UniformLayout.Instance.DirtySet
import UniformLayout.Instance.Packing

/-!
# Staging buffers

A staging buffer is a host-visible copy of a uniform buffer. Synchronizing an instance with one
copies the byte ranges that changed and leaves the instance clean; an instance without changes is
not uploaded, and a failed upload changes nothing.

Main statement: `StructInstance.synchronize_clean`.
-/

namespace UniformLayout

/-- A copy of a uniform buffer, with the number of uploads into it and of the bytes they copied. -/
structure StagingBuffer where
  bytes : Image
  uploads : Nat := 0
  copied : Nat := 0
  deriving DecidableEq, Repr, Inhabited

/-- An upload that is refused. `outOfBounds` would mean that a schema places a field outside its own
type. -/
inductive UploadError where
  | bufferTooSmall (typeName : String) (size held : Nat)
  | outOfBounds
  deriving DecidableEq, Repr

def UploadError.message : UploadError → String
  | .bufferTooSmall typeName size held =>
    s!"{typeName} needs {size} bytes, staging buffer holds {held}"
  | .outOfBounds => "field out of bounds"

namespace StagingBuffer

/-- A buffer of `size` zero bytes. -/
def ofSize (size : Nat) : StagingBuffer := { bytes := Image.filled size 0 }

/-- Copies one range of an image to the same place in the buffer. -/
def copyRange? (source : Image) (buffer : StagingBuffer) (range : ByteRange) :
    Option StagingBuffer := do
  if range.stop > source.size then none
  let piece := (source.extract range.start range.stop).toList
  return { buffer with
    bytes := ← buffer.bytes.store? range.start piece
    copied := buffer.copied + (range.stop - range.start) }

/-- Copies the changed ranges of an instance into the buffer. -/
def upload (buffer : StagingBuffer) (inst : StructInstance) (changes : DirtySet) :
    Except UploadError StagingBuffer :=
  let size := inst.schema.size
  if size > buffer.bytes.size then
    .error (.bufferTooSmall inst.schema.name size buffer.bytes.size)
  else
    let after? := inst.image?.bind fun image => changes.ranges.foldlM (copyRange? image) buffer
    match after? with
    | some after => .ok { after with uploads := after.uploads + 1 }
    | none => .error .outOfBounds

end StagingBuffer

namespace StructInstance

/-- Uploads the instance if it has changed, and marks it clean. Says whether there was an upload. -/
def synchronize (inst : StructInstance) (buffer : StagingBuffer) :
    Except UploadError (Bool × StructInstance × StagingBuffer) := do
  if !inst.isDirty then return (false, inst, buffer)
  let after ← buffer.upload inst inst.dirtyFields
  return (true, inst.setClean, after)

/-- Synchronizing leaves nothing to upload. -/
theorem synchronize_clean {inst after : StructInstance} {buffer final : StagingBuffer}
    {uploaded : Bool} (h : inst.synchronize buffer = .ok (uploaded, after, final)) :
    after.isDirty = false := by
  unfold synchronize at h
  by_cases hd : inst.isDirty
  · simp only [hd, Bool.not_true, Bool.false_eq_true, if_false, bind, Except.bind, pure,
      Except.pure] at h
    split at h
    · simp at h
    · simp only [Except.ok.injEq, Prod.mk.injEq] at h
      rw [← h.2.1]
      exact isDirty_setClean inst
  · simp only [hd, Bool.not_false, if_true, pure, Except.pure, Except.ok.injEq,
      Prod.mk.injEq] at h
    rw [← h.2.1]
    simpa using hd

end StructInstance

end UniformLayout
