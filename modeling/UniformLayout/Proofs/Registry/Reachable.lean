import UniformLayout.Proofs.Registry.Operations

/-!
# Reachable registries

A registry starts empty and changes by one `Operation` after the other. `wellFormed_perform` says
that each of them keeps the registry well-formed, and `Reachable.wellFormed` that every reachable
registry is.

Main statement: `reachable_consistent`.
-/

namespace UniformLayout.Registry

/-- What can be done to a registry. -/
inductive Operation where
  | register (decl : TypeDeclaration) (hash : String)
  | rollBack (picks : List Registration)
  | restore (kept : Snapshot)
  | beginGeneration (id : String)
  | completeGeneration (id : String) (descriptor : LayoutDescriptor)
  | abandonGeneration (id : String)

/-- The registry after an operation. -/
def perform (registry : Registry) : Operation → Registry
  | .register decl hash => (registry.register decl hash).2
  | .rollBack picks => registry.rollBack picks
  | .restore kept => registry.restore kept
  | .beginGeneration id => (registry.beginGeneration id).2
  | .completeGeneration id descriptor => registry.completeGeneration id descriptor
  | .abandonGeneration id => registry.abandonGeneration id

/-- The registrations that an operation answers with. -/
def answers (registry : Registry) : Operation → List Registration
  | .register decl hash => [(registry.register decl hash).1]
  | _ => []

/-- An operation is possible after the registrations of the past: a hash that is new finds an id
that is not in use, and only what was registered is rolled back. -/
def Permits (registry : Registry) (past : List Registration) : Operation → Prop
  | .register _ hash => registry.byHash.lookup hash = none → registry.HasFreeId hash
  | .rollBack picks => ∀ pick ∈ picks, pick ∈ past
  | _ => True

/-- The registries that operations lead to from an empty one, with all registrations on the way. -/
inductive Reachable (suffixLength : Nat) : List Registration → Registry → Prop
  | empty : Reachable suffixLength [] { suffixLength }
  | step {past : List Registration} {registry : Registry} (operation : Operation) :
      Reachable suffixLength past registry → registry.Permits past operation →
        Reachable suffixLength (past ++ registry.answers operation) (registry.perform operation)

/-- One operation keeps the registry well-formed. -/
theorem wellFormed_perform {registry : Registry} (h : registry.WellFormed)
    {past : List Registration} {operation : Operation} (hp : registry.Permits past operation) :
    (registry.perform operation).WellFormed := by
  cases operation with
  | register decl hash => exact wellFormed_register h decl hp
  | rollBack picks => exact wellFormed_rollBack h picks
  | restore kept => exact wellFormed_restore h kept
  | beginGeneration id => exact wellFormed_beginGeneration h id
  | completeGeneration id descriptor => exact wellFormed_completeGeneration h id descriptor
  | abandonGeneration id => exact wellFormed_abandonGeneration h id

theorem Reachable.wellFormed {suffixLength : Nat} {past : List Registration} {registry : Registry}
    (h : Reachable suffixLength past registry) : registry.WellFormed := by
  induction h with
  | empty => exact wellFormed_empty suffixLength
  | step operation _ hp ih => exact wellFormed_perform ih hp

/-- In every reachable registry the indices describe the records, the three keys are unique, and a
rollback of registrations of the past leaves everything that has been begun in place. -/
theorem reachable_consistent {suffixLength : Nat} {past : List Registration} {registry : Registry}
    (h : Reachable suffixLength past registry) :
    registry.Consistent ∧
      registry.hashes.Nodup ∧ registry.ids.Nodup ∧ registry.names.Nodup ∧
      ∀ picks : List Registration, (∀ pick ∈ picks, pick ∈ past) →
        (registry.rollBack picks).begun = registry.begun := by
  have hc := h.wellFormed.consistent
  refine ⟨hc, hc.byHash.nodup, hc.byId.nodup, hc.byGeneratedName.nodup, ?_⟩
  intro picks _
  exact begun_rollBack registry picks

/-- A declaration without fields. -/
def emptyStruct (name file : String) : TypeDeclaration where
  name
  kind := .struct
  fields := []
  source := { file }

/-- The first registration of a session. -/
def firstRegistration : Registration × Registry :=
  ({ : Registry }).register (emptyStruct "Lamp" "lamp.glsl") "cafe"

/-- A kept type that repeats a hash, and one that repeats an alias. -/
def editedSnapshot : Snapshot :=
  [⟨⟨"cafe", "id", "Lamp"⟩, []⟩, ⟨⟨"beef", "ib", "Lamp_1"⟩, [⟨"Lamp", "a"⟩, ⟨"Lamp", "a"⟩]⟩]

/-- A session that registers a type, rolls it back twice, and restores an edited snapshot. -/
theorem reachable_consistent_session :
    Reachable 4 [firstRegistration.1]
        ((firstRegistration.2.rollBack [firstRegistration.1, firstRegistration.1]).restore
          editedSnapshot) ∧
      ((firstRegistration.2.rollBack [firstRegistration.1, firstRegistration.1]).restore
          editedSnapshot).Consistent := by
  have hfirst : Reachable 4 [firstRegistration.1] firstRegistration.2 :=
    Reachable.empty.step (.register (emptyStruct "Lamp" "lamp.glsl") "cafe")
      fun _ => ⟨0, by decide, rfl⟩
  have hback := hfirst.step (.rollBack [firstRegistration.1, firstRegistration.1])
    (by simp [Permits])
  have hrestored := hback.step (.restore editedSnapshot) trivial
  exact ⟨hrestored, (reachable_consistent hrestored).1⟩

end UniformLayout.Registry
