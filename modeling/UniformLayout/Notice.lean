import UniformLayout.Error

/-!
# Notices

What the library reports beside its results. A `SourceWarning` is part of the result of reading a
source and is also reported; every other `Notice` is only reported. `Logged` is a computation that
collects notices in order and may fail; the notices raised before a failure are kept.

Main statements: `Logged.bind_ok` and `Logged.bind_error`.
-/

namespace UniformLayout

/-- A finding in a source that does not stop its compilation. -/
inductive SourceWarning where
  | anonymousBlock (source : SourceLocation)
  | unsupportedPacking (block : String) (packing : Packing) (source : SourceLocation)
  | instanceArrayIgnored (block : String) (source : SourceLocation)
  deriving DecidableEq, Repr

def SourceWarning.message : SourceWarning → String
  | .anonymousBlock source =>
    s!"{source.display}: uniform block has no name and no instance name, skipped"
  | .unsupportedPacking block packing source =>
    s!"{source.display}: block `{block}` requests {packing.name} packing, laid out as std140"
  | .instanceArrayIgnored block source =>
    s!"{source.display}: instance array of block `{block}` is treated as a single instance"

/-- How serious a notice is. -/
inductive Severity where
  | warning
  | error
  deriving DecidableEq, Repr

/-- Something worth reporting to the user. -/
inductive Notice where
  | source (warning : SourceWarning)
  | memberLayoutIgnored (file declaration : String)
  | sharedUniformsIgnored (key : String)
  | identicalCopyIgnored (key name : String) (copy : SourceLocation)
  | unknownLevel (level : String)
  | configIgnored (path : String) (error : StorageError)
  | cacheIgnored (error : StorageError)
  | unitFailed (key : String) (error : CompileError)
  deriving DecidableEq, Repr

namespace Notice

/-- A unit that fails is an error; all else is a warning. -/
def severity : Notice → Severity
  | unitFailed .. => .error
  | _ => .warning

def message : Notice → String
  | source warning => warning.message
  | memberLayoutIgnored file declaration =>
    s!"{file}: member layout qualifier in `{declaration}` ignored, std140 offsets are used"
  | sharedUniformsIgnored key =>
    s!"{key}: shared type file declares uniforms, only structs are used"
  | identicalCopyIgnored key name copy =>
    s!"{key}: `{name}` declared again at {copy.display}, identical copy ignored"
  | unknownLevel level => s!"Unknown log level '{level}', defaulting to info"
  | configIgnored path error => s!"Failed to load {path}: {error.message}. Using defaults."
  | cacheIgnored error => s!"Ignoring registry cache: {error.message}"
  | unitFailed key error =>
    s!"Failed to compile {key} [" ++ String.intercalate ", " error.typeNames ++
      s!"]: {error.message}"

end Notice

/-- The notices of a computation, in order, and its result. -/
structure Logged (ε α : Type) where
  notices : List Notice
  result : Except ε α

namespace Logged

variable {ε α β : Type}

protected def pure (a : α) : Logged ε α := ⟨[], .ok a⟩

/-- Goes on with the value, if there is one, and keeps the notices of both parts. -/
protected def bind (x : Logged ε α) (f : α → Logged ε β) : Logged ε β :=
  match x.result with
  | .ok a => ⟨x.notices ++ (f a).notices, (f a).result⟩
  | .error e => ⟨x.notices, .error e⟩

instance : Monad (Logged ε) where
  pure := Logged.pure
  bind := Logged.bind

instance : MonadExceptOf ε (Logged ε) where
  throw e := ⟨[], .error e⟩
  tryCatch x handle :=
    match x.result with
    | .ok _ => x
    | .error e => ⟨x.notices ++ (handle e).notices, (handle e).result⟩

instance : MonadLift (Except ε) (Logged ε) where
  monadLift x := ⟨[], x⟩

def note (n : Notice) : Logged ε Unit := ⟨[n], .ok ()⟩

@[simp] theorem pure_eq (a : α) : (pure a : Logged ε α) = ⟨[], .ok a⟩ := rfl

@[simp] theorem throw_eq (e : ε) : (throw e : Logged ε α) = ⟨[], .error e⟩ := rfl

@[simp] theorem bind_ok (notices : List Notice) (a : α) (f : α → Logged ε β) :
    (⟨notices, .ok a⟩ : Logged ε α) >>= f = ⟨notices ++ (f a).notices, (f a).result⟩ := rfl

@[simp] theorem bind_error (notices : List Notice) (e : ε) (f : α → Logged ε β) :
    (⟨notices, .error e⟩ : Logged ε α) >>= f = ⟨notices, .error e⟩ := rfl

theorem result_bind_of_ok {x : Logged ε α} {f : α → Logged ε β} {a : α} (h : x.result = .ok a) :
    (x >>= f).result = (f a).result := by
  obtain ⟨notices, result⟩ := x
  cases h
  rfl

theorem result_bind_eq_ok_iff {x : Logged ε α} {f : α → Logged ε β} {b : β} :
    (x >>= f).result = .ok b ↔ ∃ a, x.result = .ok a ∧ (f a).result = .ok b := by
  obtain ⟨notices, e | a⟩ := x
  · constructor
    · intro h
      cases h
    · rintro ⟨a, ha, -⟩
      cases ha
  · constructor
    · intro h
      exact ⟨a, rfl, h⟩
    · rintro ⟨other, ha, hb⟩
      obtain rfl := Except.ok.inj ha
      exact hb

instance : LawfulMonad (Logged ε) :=
  LawfulMonad.mk' (Logged ε)
    (fun x => by
      obtain ⟨notices, _ | a⟩ := x
      · rfl
      · exact congrArg (Logged.mk · (.ok a)) (List.append_nil notices))
    (fun _ _ => rfl)
    (fun x f g => by
      obtain ⟨notices, _ | a⟩ := x
      · rfl
      · rcases h : f a with ⟨more, _ | b⟩ <;> simp [h, List.append_assoc])

end Logged

end UniformLayout
