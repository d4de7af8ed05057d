import UniformLayout.Registry.Basic

/-!
# Generating host types

A record's host type is written once. Whoever wants to write it claims the record first; the claim
is granted to one only, and is either completed with the layout of the written type or given up.

Main statement: `Registry.begin_twice`.
-/

namespace UniformLayout.Registry

/-- Claims the right to write the host type of an id. It is refused when the type is unknown,
written, or claimed. -/
def beginGeneration (registry : Registry) (id : String) : Bool × Registry :=
  match registry.byId.lookup id with
  | none => (false, registry)
  | some index =>
    if (registry.records[index]?).any (·.state == .pending) then
      (true, registry.setRecord index ({ · with state := .inProgress }))
    else (false, registry)

/-- Notes that the host type of an id has been written, and its layout. -/
def completeGeneration (registry : Registry) (id : String) (descriptor : LayoutDescriptor) :
    Registry :=
  match registry.byId.lookup id with
  | none => registry
  | some index =>
    registry.setRecord index
      ({ · with state := .generated, descriptor := some descriptor })

def abandonGeneration (registry : Registry) (id : String) : Registry :=
  match registry.byId.lookup id with
  | none => registry
  | some index =>
    registry.setRecord index fun record =>
      if record.state = .inProgress then { record with state := .pending } else record

/-- A claim is granted only once. -/
theorem begin_twice (registry : Registry) (id : String)
    (h : (registry.beginGeneration id).1 = true) :
    ((registry.beginGeneration id).2.beginGeneration id).1 = false := by
  unfold beginGeneration at h ⊢
  cases hi : registry.byId.lookup id with
  | none => simp [hi] at h
  | some index =>
    by_cases hp : (registry.records[index]?).any (·.state == .pending)
    · cases hr : registry.records[index]? with
      | none => simp [hr] at hp
      | some record =>
        have hs : record.state = .pending := by simpa [hr] using hp
        simp [hs, setRecord, hi, hr]
    · simp [hi, hp] at h

end UniformLayout.Registry
