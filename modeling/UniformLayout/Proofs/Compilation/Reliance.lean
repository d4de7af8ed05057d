import UniformLayout.Proofs.Compilation.Trust
import Mathlib.Data.Fintype.Basic

/-!
# Relying on other units

What the trust of the units in each other comes to in the end, when all of them have finished. The
condition on a run is `Parallel.Heeds` at each of its steps.

* `Parallel.kept_run`: the invariant along a run.
* `Parallel.heeds_of_sound`: where no unit fails, the trust is well placed.

Main statement: `Parallel.listed_generated`. In the counterexample `trusted_type_missing` a claim is
given up after another unit has listed the type.
-/

namespace UniformLayout

variable {ι τ : Type}

namespace Phase

def isFinished : Phase → Bool
  | .finished _ => true
  | _ => false

/-- What a unit that has gone well returns. -/
def compiled? : Phase → Option CompiledUnit
  | .finished (.ok unit) => some unit
  | _ => none

/-- The unit fails, or has failed. -/
def fails : Phase → Bool
  | .givingUp _ _ => true
  | .rollingBack _ => true
  | .finished (.error _) => true
  | _ => false

theorem eq_finished_of_compiled {phase : Phase} {unit : CompiledUnit}
    (h : unit ∈ phase.compiled?) : phase = .finished (.ok unit) := by
  cases phase with
  | finished result =>
    cases result with
    | error e => cases h
    | ok other => rw [Option.some.inj h]
  | _ => cases h

theorem held_of_finished {phase : Phase} (h : phase.isFinished = true) : phase.held? = none := by
  cases phase with
  | finished result => rfl
  | _ => cases h

end Phase

/-- All that has been begun is written. -/
structure Common.AtRest (common : Common (τ × List WriteRequest)) : Prop where
  wellFormed : common.registry.WellFormed
  begun : ∀ identity state descriptor?,
    (identity, state, descriptor?) ∈ common.registry.begun →
      state = .generated ∧ Accepted common.artifacts.2 identity.generatedName ∧
        ∃ descriptor, descriptor? = some descriptor ∧ descriptor.identity = identity

/-- A registry in which nothing has been begun. -/
theorem Common.AtRest.of_begun {common : Common (τ × List WriteRequest)}
    (hw : common.registry.WellFormed) (hb : common.registry.begun = []) : common.AtRest := by
  refine ⟨hw, fun identity state descriptor? hm => ?_⟩
  rw [hb] at hm
  cases hm

theorem Common.AtRest.isGenerated {common : Common (τ × List WriteRequest)} (h : common.AtRest)
    {identity : TypeIdentity} (hb : common.registry.IsBegun identity) :
    common.registry.isGenerated identity.contentHash = true ∧
      Accepted common.artifacts.2 identity.generatedName := by
  obtain ⟨state, descriptor?, hm⟩ := hb
  obtain ⟨rfl, haccepted, -⟩ := h.begun identity state descriptor? hm
  obtain ⟨index, record, hr, hcore, -⟩ := Registry.mem_begun_iff.1 hm
  obtain ⟨rfl, hrest⟩ := Prod.mk.inj hcore
  refine ⟨?_, haccepted⟩
  rw [Registry.isGenerated, h.wellFormed.consistent.ofHash_of_getElem? hr, Option.any_some,
    (Prod.mk.inj hrest).1]
  rfl

namespace Parallel

variable {trusts : ι → TypeIdentity → Prop}

theorem kept_start {common : Common (τ × List WriteRequest)} (h : common.AtRest) :
    ({ common } : Parallel ι _).Kept trusts := by
  refine ⟨h.wellFormed, fun identity state descriptor? hm =>
    Or.inl (h.begun identity state descriptor? hm), fun i j first hf => ?_, fun i => ?_⟩
  · cases hf
  · refine .of_idle rfl rfl (fun emitted he => ?_) (fun planned hm => ?_) fun unit he => ?_
    · cases he
    · cases hm
    · cases he

/-- Nothing is left in anybody's hands. -/
theorem Kept.atRest {system : Parallel ι (τ × List WriteRequest)} (h : system.Kept trusts)
    (hend : ∀ i, (system.workers i).phase.isFinished = true) : system.common.AtRest := by
  refine ⟨h.wellFormed, fun identity state descriptor? hm => ?_⟩
  refine (h.begun identity state descriptor? hm).resolve_right ?_
  rintro ⟨-, i, emitted, hheld, -⟩
  rw [Phase.held_of_finished (hend i)] at hheld
  cases hheld

/-! ## Runs -/

variable [DecidableEq ι]

section

variable (settings : Settings) (sink : ArtifactSink τ) (units : ι → SourceUnit)

/-- A condition holds before each step of a run. -/
def Along (holds : Parallel ι τ → ι → Prop) (system : Parallel ι τ) : List ι → Prop
  | [] => True
  | i :: rest => holds system i ∧ Along holds (system.advance settings sink units i) rest

instance Along.decidable {holds : Parallel ι τ → ι → Prop}
    [∀ system i, Decidable (holds system i)] (system : Parallel ι τ) :
    (schedule : List ι) → Decidable (system.Along settings sink units holds schedule)
  | [] => inferInstanceAs (Decidable True)
  | i :: rest =>
    @instDecidableAnd _ _ _ (Along.decidable (system.advance settings sink units i) rest)

theorem Along.mono {holds follows : Parallel ι τ → ι → Prop}
    (h : ∀ system i, holds system i → follows system i) {system : Parallel ι τ}
    {schedule : List ι} (ha : system.Along settings sink units holds schedule) :
    system.Along settings sink units follows schedule := by
  induction schedule generalizing system with
  | nil => trivial
  | cons i rest ih => exact ⟨h system i ha.1, ih ha.2⟩

end

variable {settings : Settings} {inner : ArtifactSink τ} {units : ι → SourceUnit}

theorem kept_run {system : Parallel ι (τ × List WriteRequest)} {schedule : List ι}
    (h : system.Kept trusts)
    (hid : system.Along settings inner.noting units FindsId schedule)
    (hh : system.Along settings inner.noting units (Heeds trusts) schedule) :
    (system.run settings inner.noting units schedule).Kept trusts := by
  induction schedule generalizing system with
  | nil => exact h
  | cons i rest ih => exact ih (kept_advance h hid.1 hh.1) hid.2 hh.2

/-! ## Where no unit fails -/

section

variable {sink : ArtifactSink τ} {system : Parallel ι τ}

theorem fails_advance {j : ι} (h : (system.workers j).phase.fails = true) (i : ι) :
    ((system.advance settings sink units i).workers j).phase.fails = true := by
  unfold advance
  by_cases hj : j = i
  · subst hj
    rw [put_workers_self]
    unfold Worker.step
    cases hs : (system.workers j).phase with
    | givingUp emitted error => rfl
    | rollingBack error => rfl
    | finished result => rwa [hs] at h ⊢
    | _ =>
      rw [hs] at h
      cases h
  · rw [put_workers_of_ne hj]
    exact h

/-- A unit that fails does not recover. -/
theorem fails_run {j : ι} (h : (system.workers j).phase.fails = true) (schedule : List ι) :
    ((system.run settings sink units schedule).workers j).phase.fails = true := by
  induction schedule generalizing system with
  | nil => exact h
  | cons i rest ih => exact ih (fails_advance h i)

end

variable {system : Parallel ι (τ × List WriteRequest)} {i : ι}

/-- What a unit asks the claim for is there. -/
structure Found (system : Parallel ι (τ × List WriteRequest)) : Prop where
  wellFormed : system.common.registry.WellFormed
  there : ∀ i, ∀ emitted ∈ (system.workers i).phase.asked?,
    emitted.identity ∈ system.common.registry.identities

theorem Found.put (h : system.Found) (i : ι) {worker : Worker}
    {common : Common (τ × List WriteRequest)} (hw : common.registry.WellFormed)
    (hi : system.common.registry.identities ⊆ common.registry.identities)
    (ha : ∀ emitted ∈ worker.phase.asked?, emitted.identity ∈ common.registry.identities) :
    (system.put i (worker, common)).Found := by
  refine ⟨hw, fun j emitted he => ?_⟩
  by_cases hj : j = i
  · subst hj
    rw [put_workers_self] at he
    exact ha emitted he
  · rw [put_workers_of_ne hj] at he
    exact hi (h.there j emitted he)

/-- A unit goes on without the wish for a claim, and the registry loses nothing. -/
theorem Found.quiet (h : system.Found) (i : ι) {worker : Worker}
    {common : Common (τ × List WriteRequest)} (hw : common.registry.WellFormed)
    (hi : system.common.registry.identities ⊆ common.registry.identities)
    (ha : worker.phase.asked? = none) : (system.put i (worker, common)).Found := by
  refine h.put i hw hi fun emitted he => ?_
  rw [ha] at he
  cases he

theorem asked_makePlan (worker : Worker) (unit : SourceUnit) (registry : Registry) :
    (worker.makePlan settings unit registry).phase.asked? = none := by
  unfold Worker.makePlan
  split
  · rfl
  · split
    · rfl
    · rfl

theorem asked_look {limit : Nat} {planned : PlannedType} {rest : List PlannedType}
    {worker : Worker} {registry : Registry} {emitted : EmittedType}
    (he : emitted ∈ (worker.look limit planned rest registry).phase.asked?) :
    emitted.identity ∈ registry.identities := by
  unfold Worker.look at he
  cases hi : registry.identityOfHash? planned.contentHash with
  | none =>
    rw [hi] at he
    cases he
  | some identity =>
    rw [hi] at he
    dsimp only at he
    split at he
    · cases he
    · split at he
      · cases he
      · rw [← Option.some.inj he]
        exact Registry.mem_identities_of_hash hi

theorem found_advance (h : system.Found) (hid : system.FindsId i)
    (hf : (system.workers i).phase.fails = false) :
    (system.advance settings inner.noting units i).Found := by
  have hwf := h.wellFormed
  unfold advance Worker.step
  unfold FindsId at hid
  cases hs : (system.workers i).phase with
  | planning => exact h.quiet i hwf (.refl _) (asked_makePlan _ _ _)
  | registering rest =>
    cases rest with
    | nil => exact h.quiet i hwf (.refl _) rfl
    | cons planned rest =>
      rw [hs] at hid
      have hfree := hid planned rfl
      have hkept : system.common.registry.identities ⊆ (system.common.registry.register
          planned.declaration planned.contentHash).2.identities := by
        rw [Registry.identities_register hwf planned.declaration hfree]
        exact List.subset_append_left _ _
      exact h.quiet i (Registry.wellFormed_register hwf planned.declaration hfree) hkept rfl
  | looking rest =>
    cases rest with
    | nil => exact h.quiet i hwf (.refl _) rfl
    | cons planned rest => exact h.put i hwf (.refl _) fun emitted he => asked_look he
  | claiming emitted rest =>
    dsimp only
    cases hg : system.common.registry.beginGeneration emitted.identity.persistentId with
    | mk granted registry =>
      cases granted with
      | false =>
        rw [Worker.claim_of_refused hg]
        exact h.quiet i hwf (.refl _) rfl
      | true =>
        have hw := Registry.wellFormed_beginGeneration hwf emitted.identity.persistentId
        have hi := Registry.identities_beginGeneration system.common.registry
          emitted.identity.persistentId
        rw [hg] at hw hi
        rw [Worker.claim_of_granted hg]
        refine h.quiet i hw (fun other hm => ?_) rfl
        rwa [← hi] at hm
  | writing emitted rest =>
    dsimp only
    unfold Worker.write
    split
    · exact h.quiet i hwf (.refl _) rfl
    · exact h.quiet i hwf (.refl _) rfl
  | noting emitted rest =>
    refine h.quiet i (Registry.wellFormed_completeGeneration hwf _ _) (fun other hm => ?_) rfl
    rwa [← Registry.identities_completeGeneration system.common.registry] at hm
  | finished result =>
    refine h.quiet i hwf (.refl _) ?_
    rw [hs]
    rfl
  | givingUp emitted error =>
    rw [hs] at hf
    cases hf
  | rollingBack error =>
    rw [hs] at hf
    cases hf

omit [DecidableEq ι] in
theorem Found.heeds (h : system.Found) (trusts : ι → TypeIdentity → Prop)
    (hf : (system.workers i).phase.fails = false) : system.Heeds trusts i := by
  refine ⟨fun emitted he identity hi => ?_, fun emitted he _ => h.there i emitted he,
    fun emitted he => ?_⟩
  · exact h.wellFormed.consistent.identity_eq hi (h.there i emitted he)
  · cases hs : (system.workers i).phase with
    | givingUp emitted error =>
      rw [hs] at hf
      cases hf
    | _ =>
      rw [hs] at he
      cases he

/-- The trust is well placed in a run in which no unit fails. -/
theorem heeds_of_sound {schedule : List ι} (h : system.Found) (trusts : ι → TypeIdentity → Prop)
    (hid : system.Along settings inner.noting units FindsId schedule)
    (hf : ∀ i, ((system.run settings inner.noting units schedule).workers i).phase.fails = false) :
    system.Along settings inner.noting units (Heeds trusts) schedule := by
  induction schedule generalizing system with
  | nil => trivial
  | cons i rest ih =>
    -- a unit that fails here would still have failed at the end
    have hsound : (system.workers i).phase.fails = false := by
      by_contra hne
      have hlast : ((system.run settings inner.noting units (i :: rest)).workers i).phase.fails =
          true :=
        fails_run (eq_true_of_ne_false hne) _
      rw [hf i] at hlast
      cases hlast
    exact ⟨h.heeds trusts hsound, ih (found_advance h hid.1 hsound) hid.2 hf⟩

/-! ## What has been listed -/

/-- Several units have been compiled side by side, in any interleaving and with any answers of the
sink, and all of them have finished. Where the trust of a unit in others is well placed for a type
that it returns, the type is generated and its source has been accepted. The trust of all units is
well placed for all types if no unit has failed. -/
theorem listed_generated {common : Common (τ × List WriteRequest)} (h : common.AtRest)
    {schedule : List ι}
    (hid : ({ common } : Parallel ι _).Along settings inner.noting units FindsId schedule)
    (hend : ∀ i, ((({ common } : Parallel ι _).run settings inner.noting units
      schedule).workers i).phase.isFinished = true) :
    let start : Parallel ι (τ × List WriteRequest) := { common }
    let last := start.run settings inner.noting units schedule
    (∀ trusts, start.Along settings inner.noting units (Heeds trusts) schedule →
      ∀ i, ∀ compiled ∈ (last.workers i).phase.compiled?, ∀ emitted ∈ compiled.types,
        trusts i emitted.identity →
          last.common.registry.isGenerated emitted.identity.contentHash = true ∧
            Accepted last.common.artifacts.2 emitted.identity.generatedName) ∧
      ((∀ i, (last.workers i).phase.compiled?.isSome) →
        ∀ trusts, start.Along settings inner.noting units (Heeds trusts) schedule) := by
  refine ⟨fun trusts hh i compiled hc emitted he ht => ?_, fun hok trusts => ?_⟩
  · have hkept := kept_run (kept_start h) hid hh
    have hfits := hkept.fits i
    rw [hfits.result compiled (Phase.eq_finished_of_compiled hc)] at he
    exact (hkept.atRest hend).isGenerated (hfits.listed emitted he ht)
  · refine heeds_of_sound ⟨h.wellFormed, fun i emitted he => ?_⟩ trusts hid fun i => ?_
    · cases he
    · obtain ⟨compiled, hc⟩ := Option.isSome_iff_exists.1 (hok i)
      rw [Phase.eq_finished_of_compiled hc]
      rfl

end Parallel

/-! ## Two units and one struct -/

namespace Parallel

instance Heeds.decidable [DecidableEq ι] [Fintype ι] {trusts : ι → TypeIdentity → Prop}
    [∀ i identity, Decidable (trusts i identity)] (system : Parallel ι (τ × List WriteRequest))
    (i : ι) : Decidable (system.Heeds trusts i) :=
  decidable_of_iff
    ((∀ emitted ∈ (system.workers i).phase.asked?,
        ∀ identity ∈ system.common.registry.identities,
          identity.persistentId = emitted.identity.persistentId → identity = emitted.identity) ∧
      (∀ emitted ∈ (system.workers i).phase.asked?, trusts i emitted.identity →
        emitted.identity ∈ system.common.registry.identities) ∧
      ∀ emitted ∈ (system.workers i).phase.yielded?, ∀ j, j ≠ i →
        trusts j emitted.identity → ∀ other ∈ (system.workers j).listed,
          other.identity ≠ emitted.identity)
    ⟨fun h => ⟨h.1, h.2.1, h.2.2⟩, fun h => ⟨h.named, h.there, h.unlisted⟩⟩

/-- The first id that is tried for the hash that the unit registers is free, or the hash is
known. -/
def findsFirstId (system : Parallel ι (τ × List WriteRequest)) (i : ι) : Bool :=
  (system.workers i).phase.registered?.all fun planned =>
    (system.common.registry.byHash.lookup planned.contentHash).isSome ||
      (system.common.registry.byId.lookup (Registry.candidateId planned.contentHash 0)).isNone

theorem findsId_of_findsFirstId {system : Parallel ι (τ × List WriteRequest)} {i : ι}
    (h : system.findsFirstId i = true) : system.FindsId i := by
  intro planned hp hnew
  have hfree := Option.all_eq_true _ _ |>.1 h planned hp
  rw [hnew] at hfree
  exact ⟨0, by decide, Option.isNone_iff_eq_none.1 hfree⟩

end Parallel

/-- A unit with a struct and a block that uses it, and one that has the struct alone. -/
def lampUnits : Fin 2 → SourceUnit
  | 0 => lightsUnit
  | 1 => { key := "lamp.frag", text := "struct Lamp \x7b float range; \x7d;" }

/-- Both units before their first step, and a sink that has room for some sources. -/
def lampStart (room : Nat) : Parallel (Fin 2) ((Artifacts × Nat) × List WriteRequest) where
  common := ⟨{ suffixLength := 4 }, ([], room), []⟩

/-- The second unit comes while the first one has the claim on the struct, and finishes when the
first one has failed. -/
def lampSchedule : List (Fin 2) :=
  List.replicate 6 0 ++ List.replicate 5 1 ++ List.replicate 7 0 ++ [1]

/-- There is room for the struct and not for the block. The unit that has left the struct to the
other one returns it, and it is there. -/
theorem listed_generated_ownBlock :
    (lampStart 1).common.AtRest ∧
      (lampStart 1).Along {} memorySink.limited.noting lampUnits Parallel.FindsId lampSchedule ∧
      (lampStart 1).Along {} memorySink.limited.noting lampUnits
        (Parallel.Heeds fun _ _ => True) lampSchedule ∧
      let last := (lampStart 1).run {} memorySink.limited.noting lampUnits lampSchedule
      (∀ i, (last.workers i).phase.isFinished = true) ∧
        ∃ compiled ∈ (last.workers 1).phase.compiled?,
          compiled.types.map (·.declaredName) = ["Lamp"] ∧ compiled.generated = [] ∧
          ∀ emitted ∈ compiled.types,
            last.common.registry.isGenerated emitted.identity.contentHash = true ∧
              Accepted last.common.artifacts.2 emitted.identity.generatedName := by
  have hrest : (lampStart 1).common.AtRest := .of_begun (Registry.wellFormed_empty 4) rfl
  obtain ⟨hsteps, hend, hreturned⟩ : (lampStart 1).Along {} memorySink.limited.noting lampUnits
        (fun system i => system.findsFirstId i = true ∧ system.Heeds (fun _ _ => True) i)
        lampSchedule ∧
      let last := (lampStart 1).run {} memorySink.limited.noting lampUnits lampSchedule
      (∀ i, (last.workers i).phase.isFinished = true) ∧
        (last.workers 1).phase.compiled?.map (fun compiled =>
          (compiled.types.map (·.declaredName), compiled.generated)) = some (["Lamp"], []) := by
    decide +kernel
  have hid := hsteps.mono {} memorySink.limited.noting lampUnits fun _ _ h =>
    Parallel.findsId_of_findsFirstId h.1
  have hheeds := hsteps.mono {} memorySink.limited.noting lampUnits fun _ _ => And.right
  obtain ⟨compiled, hc, hboth⟩ := Option.map_eq_some_iff.1 hreturned
  obtain ⟨htypes, hgenerated⟩ := Prod.mk.inj hboth
  refine ⟨hrest, hid, hheeds, hend, compiled, hc, htypes, hgenerated, fun emitted he => ?_⟩
  exact (Parallel.listed_generated hrest hid hend).1 _ hheeds 1 compiled hc emitted he trivial

/-- The second unit has finished when the sink refuses the struct. -/
def hastySchedule : List (Fin 2) :=
  List.replicate 6 0 ++ List.replicate 6 1 ++ List.replicate 3 0

/-- The unit that has left the struct to the other one returns it, and it is not there. -/
theorem trusted_type_missing :
    (lampStart 0).common.AtRest ∧
      (lampStart 0).Along {} memorySink.limited.noting lampUnits Parallel.FindsId hastySchedule ∧
      let last := (lampStart 0).run {} memorySink.limited.noting lampUnits hastySchedule
      (∀ i, (last.workers i).phase.isFinished = true) ∧
        ∃ compiled ∈ (last.workers 1).phase.compiled?, ∃ emitted ∈ compiled.types,
          last.common.registry.isGenerated emitted.identity.contentHash = false ∧
            ¬ Accepted last.common.artifacts.2 emitted.identity.generatedName := by
  obtain ⟨hsteps, hend, hmissing⟩ : (lampStart 0).Along {} memorySink.limited.noting lampUnits
        (fun system i => system.findsFirstId i = true) hastySchedule ∧
      let last := (lampStart 0).run {} memorySink.limited.noting lampUnits hastySchedule
      (∀ i, (last.workers i).phase.isFinished = true) ∧
        (last.workers 1).phase.compiled?.any (fun compiled => compiled.types.any fun emitted =>
          !last.common.registry.isGenerated emitted.identity.contentHash &&
            !decide (Accepted last.common.artifacts.2 emitted.identity.generatedName)) = true := by
    decide +kernel
  have hid := hsteps.mono {} memorySink.limited.noting lampUnits fun _ _ =>
    Parallel.findsId_of_findsFirstId
  obtain ⟨compiled, hc, hmissing⟩ := (Option.any_eq_true _ _).1 hmissing
  obtain ⟨emitted, he, hmissing⟩ := List.any_eq_true.1 hmissing
  rw [Bool.and_eq_true, Bool.not_eq_true', Bool.not_eq_true', decide_eq_false_iff_not] at hmissing
  exact ⟨.of_begun (Registry.wellFormed_empty 4) rfl, hid, hend, compiled, hc, emitted, he,
    hmissing⟩

end UniformLayout
