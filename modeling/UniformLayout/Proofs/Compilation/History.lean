import UniformLayout.Proofs.Compilation.Emitted
import UniformLayout.Proofs.Registry.Persistence

/-!
# Sessions that are kept

In a session units are compiled, and types are registered and rolled back by hand. What the registry
then keeps for the next session is everything but the order in which a name was declared: that is
now the order of the records.

* `wellFormed_compile`: a call of `compile` keeps the registry well-formed.

Main statement: `History.reopened_iff`. In the registry `crossed` the two orders differ.
-/

namespace UniformLayout

variable {σ τ : Type}

/-! ## Compiling keeps the indices in order -/

theorem wellFormed_emitType (scope : EmissionScope τ) (planned : PlannedType)
    (state : EmissionState τ) (h : state.registry.WellFormed) :
    (emitType scope planned state).2.registry.WellFormed := by
  unfold emitType
  split
  · exact h
  · dsimp only
    split
    · exact h
    · split
      · exact h
      · refine wellFormed_generate ?_ _ _ _
        exact h

theorem wellFormed_emitAll (scope : EmissionScope τ) (types : List PlannedType)
    (state : EmissionState τ) (h : state.registry.WellFormed) :
    (emitAll scope types state).2.registry.WellFormed := by
  induction types generalizing state with
  | nil => exact h
  | cons planned rest ih =>
    have hone := wellFormed_emitType scope planned state h
    rw [emitAll]
    generalize emitType scope planned state = emitted at hone ⊢
    obtain ⟨_ | _, after⟩ := emitted
    · exact hone
    · exact ih after hone

theorem wellFormed_emit {registry : Registry} (h : registry.WellFormed) {plan : Plan}
    (ids : registry.FindsIds
      (plan.types.map fun planned => (planned.declaration, planned.contentHash)))
    (key : String) (scope : EmissionScope τ) (artifacts : τ) :
    (plan.emit key scope registry artifacts).2.1.WellFormed := by
  have hregistered := (Registry.registerAll_spec h ids).wellFormed
  unfold Plan.emit
  generalize registry.registerAll
    (plan.types.map fun planned => (planned.declaration, planned.contentHash)) = registered
      at hregistered ⊢
  obtain ⟨registrations, after⟩ := registered
  have hemitted := wellFormed_emitAll scope plan.types { registry := after, artifacts } hregistered
  dsimp only
  generalize emitAll scope plan.types { registry := after, artifacts } = emitted at hemitted ⊢
  obtain ⟨_ | _, state⟩ := emitted
  · exact Registry.wellFormed_rollBack hemitted _
  · exact hemitted

theorem wellFormed_compile {settings : Settings} (allocator : SlotAllocator σ)
    (sink : ArtifactSink τ) {unit : SourceUnit} {work : Workspace σ τ}
    (h : work.registry.WellFormed) (ids : unit.FindsIds work.registry) :
    (compile settings allocator sink unit work).2.registry.WellFormed := by
  unfold compile
  rcases hp : unit.plan work.registry with ⟨notices, _ | plan⟩
  · exact h
  · dsimp only
    generalize assignSlots settings.bindings.maxTextureUnits allocator plan.types work.slots =
      assigned
    obtain ⟨_ | given, slots⟩ := assigned
    · exact h
    · exact wellFormed_emit h (ids plan (by rw [hp])) _ _ _

/-! ## Histories -/

/-- The registries of a session, with the registrations that were made by hand: a fresh one, and
those to which single operations and calls of `compile` lead, whatever the result. -/
inductive History (settings : Settings) : List Registration → Registry → Prop
  | fresh : History settings [] { suffixLength := settings.registry.suffixLength }
  | perform {past : List Registration} {registry : Registry} (operation : Registry.Operation)
      (h : History settings past registry) (permits : registry.Permits past operation) :
      History settings (past ++ registry.answers operation) (registry.perform operation)
  | compile {σ τ : Type} {past : List Registration} (allocator : SlotAllocator σ)
      (sink : ArtifactSink τ) (unit : SourceUnit) (work : Workspace σ τ)
      (h : History settings past work.registry) (ids : unit.FindsIds work.registry) :
      History settings past (UniformLayout.compile settings allocator sink unit work).2.registry

theorem History.wellFormed {settings : Settings} {past : List Registration} {registry : Registry}
    (h : History settings past registry) : registry.WellFormed := by
  induction h with
  | fresh => exact Registry.wellFormed_empty _
  | perform operation _ permits ih => exact Registry.wellFormed_perform ih permits
  | compile allocator sink unit work _ ids ih => exact wellFormed_compile allocator sink ih ids

/-- **What is kept.** A new registry with the snapshot of any session has the same types with the
same aliases, and declares every name in the same sources for the same records. A name leads to the
same identity as before, in general or in a source, if and only if the declaration that it led to is
of the earliest record among those it could have led to. -/
theorem History.reopened_iff {settings : Settings} {past : List Registration} {registry : Registry}
    (h : History settings past registry) (suffixLength : Nat) :
    (registry.reopened suffixLength).snapshot = registry.snapshot ∧
      (∀ name entry, entry ∈ (registry.reopened suffixLength).declarationsOf name ↔
        entry ∈ registry.declarationsOf name) ∧
      (∀ name, (registry.reopened suffixLength).resolveDeclared? name =
          registry.resolveDeclared? name ↔
        Registry.LowestFirst (registry.declarationsOf name)) ∧
      ∀ name source, (registry.reopened suffixLength).resolveDeclaredIn? name source =
          registry.resolveDeclaredIn? name source ↔
        Registry.LowestFirst (registry.audible name source) := by
  have hc := h.wellFormed.consistent
  exact ⟨Registry.snapshot_reopened hc suffixLength,
    fun _ _ => Registry.mem_declarationsOf_reopened hc suffixLength,
    Registry.resolveDeclared_reopened_iff hc suffixLength,
    Registry.resolveDeclaredIn_reopened_iff hc suffixLength⟩

/-- A unit with one struct. -/
def fogUnit : SourceUnit where
  key := "fog.glsl"
  text := "struct Fog \x7b float density; \x7d;"

/-- The unit has been compiled, and its type is registered under another hash. -/
def fogTwice : Registry :=
  ((compile {} BindingPool.allocator memorySink.limited fogUnit narrowWork).2.registry.register
    (Registry.emptyStruct "Fog" "haze.glsl") "cafe").2

/-- The name leads to the type of the unit, also in the next session. -/
theorem reopened_iff_fogTwice :
    (∃ past, History {} past fogTwice) ∧
      (fogTwice.reopened 4).resolveDeclared? "Fog" = fogTwice.resolveDeclared? "Fog" ∧
      (fogTwice.reopened 4).resolveDeclaredIn? "Fog" "haze.glsl" =
        fogTwice.resolveDeclaredIn? "Fog" "haze.glsl" := by
  obtain ⟨hids, hfree, hlowest, hlowestIn⟩ : fogUnit.findsFirstIds narrowWork.registry = true ∧
      (compile {} BindingPool.allocator memorySink.limited fogUnit narrowWork).2.registry.byId.lookup
        (Registry.candidateId "cafe" 0) = none ∧
      Registry.LowestFirst (fogTwice.declarationsOf "Fog") ∧
      Registry.LowestFirst (fogTwice.audible "Fog" "haze.glsl") := by
    decide +kernel
  obtain ⟨past, h⟩ : ∃ past, History {} past fogTwice := by
    rw [fogTwice]
    exact ⟨_, .perform (.register (Registry.emptyStruct "Fog" "haze.glsl") "cafe")
      (.compile BindingPool.allocator memorySink.limited fogUnit narrowWork .fresh
        (findsIds_of_plan hids))
      fun _ => ⟨0, by decide, hfree⟩⟩
  obtain ⟨-, -, hany, hin⟩ := h.reopened_iff 4
  exact ⟨⟨_, h⟩, (hany "Fog").2 hlowest, (hin "Fog" "haze.glsl").2 hlowestIn⟩

/-! ## A name whose later record was declared first -/

/-- The second type is registered under a name, and then the first one under the same name. -/
def crossedOperations : List Registry.Operation :=
  [.register (Registry.emptyStruct "Lamp" "lamp.glsl") "cafe",
    .register (Registry.emptyStruct "Fog" "fog.glsl") "beef",
    .register (Registry.emptyStruct "Fog" "haze.glsl") "cafe"]

def crossed : Registry :=
  crossedOperations.foldl Registry.perform { suffixLength := 4 }

/-- In the next session the name leads to the other type. -/
theorem first_declaration_lost :
    (∃ past, History {} past crossed) ∧
      (crossed.reopened 4).resolveDeclared? "Fog" ≠ crossed.resolveDeclared? "Fog" ∧
      (crossed.reopened 4).resolveDeclaredIn? "Fog" "mist.glsl" ≠
        crossed.resolveDeclaredIn? "Fog" "mist.glsl" := by
  have hfresh : History {} [] { suffixLength := 4 } := .fresh
  have hlamp := hfresh.perform (.register (Registry.emptyStruct "Lamp" "lamp.glsl") "cafe")
    fun _ => ⟨0, by decide, rfl⟩
  have hfog := hlamp.perform (.register (Registry.emptyStruct "Fog" "fog.glsl") "beef")
    fun _ => ⟨0, by decide, by decide +kernel⟩
  have hhaze := hfog.perform (.register (Registry.emptyStruct "Fog" "haze.glsl") "cafe")
    fun hn => absurd hn (by decide +kernel)
  refine ⟨⟨_, hhaze⟩, ?_⟩
  decide +kernel

end UniformLayout
