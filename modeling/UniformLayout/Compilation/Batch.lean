import UniformLayout.Compilation
import UniformLayout.Files

/-!
# Compiling many units

Units that are compiled together share the registry and the artifacts, and each has binding slots of
its own. A unit that fails because a type is unknown may only wait for another unit to generate that
type: such units are compiled again, in passes, as long as a pass completes one of them.

Main statements: `Batch.retry_balance` and `Batch.unitOfFile_eq_error_iff`.
-/

namespace UniformLayout

/-- A unit of a batch with its latest result. -/
structure BatchEntry where
  unit : SourceUnit
  result : Except CompileError CompiledUnit

namespace BatchEntry

def isDone (entry : BatchEntry) : Bool :=
  match entry.result with
  | .ok _ => true
  | .error _ => false

def isWaiting (entry : BatchEntry) : Bool :=
  match entry.result with
  | .error (.unknownType ..) => true
  | _ => false

def failure? (entry : BatchEntry) : Option Notice :=
  match entry.result with
  | .ok _ => none
  | .error e => some (.unitFailed entry.unit.key e)

theorem isDone_of_isWaiting {entry : BatchEntry} (h : entry.isWaiting) : entry.isDone = false := by
  obtain ⟨_, _ | _⟩ := entry
  · rfl
  · simp [isWaiting] at h

theorem isWaiting_of_isDone {entry : BatchEntry} (h : entry.isDone) : entry.isWaiting = false := by
  cases hw : entry.isWaiting
  · rfl
  · simp [isDone_of_isWaiting hw] at h

end BatchEntry

/-- What compiling a batch changes, and the notices so far. -/
structure Batch (τ : Type) where
  registry : Registry
  artifacts : τ
  notices : List Notice := []

namespace Batch

variable {τ : Type}

/-- Compiles one unit with binding slots of its own. -/
def compileUnit (settings : Settings) (sink : ArtifactSink τ) (unit : SourceUnit)
    (batch : Batch τ) : BatchEntry × Batch τ :=
  let pool : BindingPool := { max := settings.bindings.maxBindingPoints }
  let (outcome, work) :=
    compile settings BindingPool.allocator sink unit ⟨batch.registry, pool, batch.artifacts⟩
  (⟨unit, outcome.result⟩, ⟨work.registry, work.artifacts, batch.notices ++ outcome.notices⟩)

def compileEach (settings : Settings) (sink : ArtifactSink τ) :
    List SourceUnit → Batch τ → List BatchEntry × Batch τ
  | [], batch => ([], batch)
  | unit :: rest, batch =>
    let (entry, batch) := compileUnit settings sink unit batch
    let (entries, batch) := compileEach settings sink rest batch
    (entry :: entries, batch)

def retry (settings : Settings) (sink : ArtifactSink τ) :
    List BatchEntry → Batch τ → List BatchEntry × Batch τ
  | [], batch => ([], batch)
  | entry :: rest, batch =>
    let (entry, batch) :=
      if entry.isWaiting then compileUnit settings sink entry.unit batch else (entry, batch)
    let (entries, batch) := retry settings sink rest batch
    (entry :: entries, batch)

def waiting (entries : List BatchEntry) : Nat := entries.countP BatchEntry.isWaiting

def completed (entries : List BatchEntry) : Nat := entries.countP BatchEntry.isDone

/-- A pass completes units only out of those that waited. -/
theorem retry_balance (settings : Settings) (sink : ArtifactSink τ) (entries : List BatchEntry)
    (batch : Batch τ) :
    waiting (retry settings sink entries batch).1 +
        completed (retry settings sink entries batch).1 ≤
      waiting entries + completed entries := by
  induction entries generalizing batch with
  | nil => exact Nat.le_refl _
  | cons entry rest ih =>
    simp only [retry]
    generalize hnext : (if entry.isWaiting then compileUnit settings sink entry.unit batch
      else (entry, batch)) = next
    obtain ⟨after, batch'⟩ := next
    have hrest := ih batch'
    simp only [waiting, completed, List.countP_cons] at hrest ⊢
    have hone : (if after.isWaiting then 1 else 0) + (if after.isDone then 1 else 0) ≤
        (if entry.isWaiting then 1 else 0) + (if entry.isDone then 1 else 0) := by
      by_cases hw : entry.isWaiting
      · rw [if_pos hw]
        by_cases hd : after.isDone
        · rw [if_neg (by simp [BatchEntry.isWaiting_of_isDone hd]), if_pos hd]
          omega
        · rw [if_neg hd]
          split <;> omega
      · rw [if_neg hw] at hnext
        simp only [Prod.mk.injEq] at hnext
        exact Nat.le_of_eq (by rw [hnext.1])
    omega

def settle (settings : Settings) (sink : ArtifactSink τ) (entries : List BatchEntry)
    (batch : Batch τ) : List BatchEntry × Batch τ :=
  if waiting entries = 0 then (entries, batch)
  else
    match h : retry settings sink entries batch with
    | (after, changed) =>
      if hlt : completed entries < completed after then
        have : waiting after < waiting entries := by
          have := retry_balance settings sink entries batch
          simp only [h] at this
          omega
        settle settings sink after changed
      else (after, changed)
  termination_by waiting entries

/-- Compiles units together. Every unit that fails in the end is reported. -/
def compileAll (settings : Settings) (sink : ArtifactSink τ) (units : List SourceUnit)
    (registry : Registry) (artifacts : τ) : List BatchEntry × Batch τ :=
  let (entries, batch) := compileEach settings sink units { registry, artifacts }
  let (entries, batch) := settle settings sink entries batch
  (entries, { batch with notices := batch.notices ++ entries.filterMap BatchEntry.failure? })

/-! ## Files -/

/-- The unit of a file. Its key is the path, with slashes only. -/
def unitOfFile (tree : FileTree) (path : String) : Except StorageError SourceUnit :=
  match tree.read? path with
  | some text => .ok { key := path.map fun c => if c == '\\' then '/' else c, text }
  | none => .error (.readSource path)

theorem unitOfFile_eq_error_iff {tree : FileTree} {path : String} {error : StorageError} :
    unitOfFile tree path = .error error ↔ tree.read? path = none ∧ error = .readSource path := by
  cases h : tree.read? path with
  | none => simp [unitOfFile, h, eq_comm]
  | some text => simp [unitOfFile, h]

/-- Compiles files together. Nothing is compiled unless all can be read. -/
def compilePaths (settings : Settings) (sink : ArtifactSink τ) (tree : FileTree)
    (paths : List String) (registry : Registry) (artifacts : τ) :
    Except StorageError (List BatchEntry × Batch τ) := do
  let units ← paths.mapM (unitOfFile tree)
  return compileAll settings sink units registry artifacts

end Batch

end UniformLayout
