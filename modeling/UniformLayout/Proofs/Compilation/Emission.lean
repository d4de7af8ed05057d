import UniformLayout.Compilation.Emission
import UniformLayout.Proofs.Compilation.Plan
import UniformLayout.Proofs.Compilation.Settled

/-!
# What emission does to a registry

Emitting the types of a plan fails only when the sink refuses a source. Whether it fails or not, the
registry stays settled, and it changes by types that are written and noted as generated
(`Registry.Advances`). The sink is watched by `ArtifactSink.noting`, which lists every request with
its answer.

* `emitType_step`: what emitting one type can do.
* `emitAll_run`: emitting a plan is a run of such steps.

Main statement: `EmissionRun.spec`.
-/

namespace UniformLayout

/-! ## Requests to a sink -/

/-- What a sink was asked to store, and whether it did. -/
structure WriteRequest where
  key : String
  text : String
  accepted : Bool
  deriving DecidableEq, Repr

/-- Answers as the given sink does and notes every request. -/
def ArtifactSink.noting {τ : Type} (inner : ArtifactSink τ) :
    ArtifactSink (τ × List WriteRequest) where
  write key text state :=
    let (answer, after) := inner.write key text state.1
    (answer, after, state.2 ++ [⟨key, text, answer.toBool⟩])

theorem ArtifactSink.noting_write {τ : Type} (inner : ArtifactSink τ) (key text : String)
    (state : τ × List WriteRequest) :
    inner.noting.write key text state =
      ((inner.write key text state.1).1, (inner.write key text state.1).2,
        state.2 ++ [⟨key, text, (inner.write key text state.1).1.toBool⟩]) := rfl

/-- The sink may answer with this error. -/
def ArtifactSink.Refuses {τ : Type} (sink : ArtifactSink τ) (e : StorageError) : Prop :=
  ∃ key text state, (sink.write key text state).1 = .error e

/-- The record's host type is among the accepted sources, and the record holds its layout. -/
structure Record.WrittenIn (record : Record) (requests : List WriteRequest) : Prop where
  state : record.state = .generated
  descriptor : ∃ layout, record.descriptor = some ⟨record.identity, layout⟩ ∧
    layout.contentHash = record.identity.contentHash
  accepted : ∃ text, ⟨record.identity.generatedName, text, true⟩ ∈ requests

theorem Record.WrittenIn.mono {record : Record} {requests more : List WriteRequest}
    (h : record.WrittenIn requests) (hm : requests ⊆ more) : record.WrittenIn more := by
  obtain ⟨text, ht⟩ := h.accepted
  exact ⟨h.state, h.descriptor, text, hm ht⟩

namespace Registry

/-- A record afterwards: nothing has changed, or its pending type has been written. -/
def Keeps (requests : List WriteRequest) (record later : Record) : Prop :=
  later = record ∨ record.state = .pending ∧ later.identity = record.identity ∧
    later.declared = record.declared ∧ later.WrittenIn requests

/-- Some pending types have been written, and nothing else has changed. -/
structure Advances (requests : List WriteRequest) (before after : Registry) : Prop where
  indices : after = { before with records := after.records }
  length : after.records.length = before.records.length
  each : ∀ (i : Nat) (record : Record), before.records[i]? = some record →
    ∃ later, after.records[i]? = some later ∧ Keeps requests record later

theorem Advances.refl (requests : List WriteRequest) (registry : Registry) :
    Advances requests registry registry :=
  ⟨rfl, rfl, fun _ record hr => ⟨record, hr, Or.inl rfl⟩⟩

theorem Advances.trans {first second : List WriteRequest} {a b c : Registry}
    (h : Advances first a b) (k : Advances second b c) (hs : first ⊆ second) :
    Advances second a c := by
  refine ⟨?_, k.length.trans h.length, fun i record hr => ?_⟩
  · have := k.indices
    rw [h.indices] at this
    exact this
  · obtain ⟨mid, hm, hkeep⟩ := h.each i record hr
    obtain ⟨later, hl, hlater⟩ := k.each i mid hm
    refine ⟨later, hl, ?_⟩
    rcases hkeep with rfl | ⟨hp, hi, hd, hw⟩
    · exact hlater
    · rcases hlater with rfl | ⟨hpending, -⟩
      · exact Or.inr ⟨hp, hi, hd, hw.mono hs⟩
      · rw [hw.state] at hpending
        cases hpending

/-- A record whose host type has been written. -/
def generatedWith (descriptor : LayoutDescriptor) (record : Record) : Record :=
  { record with state := .generated, descriptor := some descriptor }

variable {registry : Registry} {limit : Nat}

/-- Writing a pending type. -/
theorem advances_setGenerated {requests : List WriteRequest} {index : Nat} {record : Record}
    (hr : registry.records[index]? = some record) (hp : record.state = .pending)
    {layout : StructLayout} (hhash : layout.contentHash = record.identity.contentHash)
    {text : String} (ht : ⟨record.identity.generatedName, text, true⟩ ∈ requests) :
    Advances requests registry (registry.setRecord index
      (generatedWith ⟨record.identity, layout⟩)) := by
  refine ⟨rfl, setRecord_length _ _ _, fun i other ho => ?_⟩
  rw [getElem?_setRecord]
  split
  · rename_i he
    subst he
    obtain rfl := Option.some.inj (hr.symm.trans ho)
    refine ⟨_, congrArg _ hr, Or.inr ⟨hp, rfl, rfl, ?_⟩⟩
    exact ⟨rfl, ⟨layout, rfl, hhash⟩, text, ht⟩
  · exact ⟨other, ho, Or.inl rfl⟩

/-- What has been begun is not taken back. -/
theorem Advances.begun {requests : List WriteRequest} {before after : Registry}
    (h : Advances requests before after) : before.begun ⊆ after.begun := by
  intro entry hm
  obtain ⟨i, record, hr, hcore, hs⟩ := mem_begun_iff.1 hm
  obtain ⟨later, hl, rfl | ⟨hp, -⟩⟩ := h.each i record hr
  · exact mem_begun_iff.2 ⟨i, later, hl, hcore, hs⟩
  · exact absurd hp hs

/-- A type may be noted as generated once all that is nested in it is. -/
theorem settled_setGenerated (h : registry.Settled limit) {index : Nat} {record : Record}
    (hr : registry.records[index]? = some record) (hp : record.state = .pending)
    {layout : StructLayout} (hhash : layout.contentHash = record.identity.contentHash)
    (hunits : layout.UnitsFit limit)
    (hnested : ∀ field ∈ layout.fields, ∀ inner, field.shape = .aggregate inner →
      inner.Throughout (registry.Offers limit)) {after : Registry}
    (ha : after = registry.setRecord index
      (generatedWith ⟨record.identity, layout⟩)) :
    after.Settled limit ∧ layout.Throughout (after.Offers limit) := by
  subst ha
  have hget := getElem?_setRecord registry index (generatedWith ⟨record.identity, layout⟩)
  have hbegun := (advances_setGenerated hr hp hhash (List.mem_singleton_self
    (⟨record.identity.generatedName, "", true⟩ : WriteRequest))).begun
  have hlayout : layout.Throughout ((registry.setRecord index
      (generatedWith ⟨record.identity, layout⟩)).Offers
        limit) := by
    refine .intro ⟨⟨record.identity, some ⟨record.identity, layout⟩, ?_, hhash.symm⟩, hunits⟩ ?_
    · refine mem_begun_iff.2
        ⟨index, _, (hget index).trans ((if_pos rfl).trans (congrArg _ hr)), rfl, ?_⟩
      exact fun hs => by cases hs
    · intro field hf inner hs
      exact (hnested field hf inner hs).mono fun _ ho => ho.mono hbegun
  refine ⟨⟨⟨?_, ordered_setRecord h.wellFormed.ordered _ _⟩, ?_⟩, hlayout⟩
  · exact h.wellFormed.consistent.setRecord index (fun _ => rfl) (fun _ => rfl)
      fun _ _ => iff_of_true rfl rfl
  · intro identity state descriptor? hm
    obtain ⟨i, later, hl, hcore, hs⟩ := mem_begun_iff.1 hm
    rw [hget] at hl
    split at hl
    · rename_i he
      subst he
      rw [hr] at hl
      obtain rfl := Option.some.inj hl
      obtain ⟨rfl, hrest⟩ := Prod.mk.inj hcore
      obtain ⟨rfl, rfl⟩ := Prod.mk.inj hrest
      exact ⟨rfl, _, rfl, rfl, hhash, hlayout⟩
    · obtain ⟨hstate, descriptor, hd, husable⟩ :=
        h.begun identity state descriptor? (mem_begun_iff.2 ⟨i, later, hl, hcore, hs⟩)
      exact ⟨hstate, descriptor, hd, husable.mono hbegun⟩

end Registry

/-! ## Writing one type -/

section

variable {τ : Type} {inner : ArtifactSink τ} {limit : Nat}

open Registry

/-- Giving up a claim leaves the registry as it was. -/
theorem abandon_setInProgress {registry : Registry} {id : String} {index : Nat} {record : Record}
    (hi : registry.byId.lookup id = some index) (hr : registry.records[index]? = some record)
    (hp : record.state = .pending) :
    (registry.setRecord index ({ · with state := .inProgress })).abandonGeneration id =
      registry := by
  have hi' : (registry.setRecord index ({ · with state := .inProgress })).byId.lookup id =
      some index := hi
  unfold abandonGeneration
  rw [hi']
  dsimp only
  rw [setRecord_setRecord]
  apply setRecord_eq_self
  intro other ho
  obtain rfl := Option.some.inj (hr.symm.trans ho)
  rw [Function.comp_apply, if_pos rfl, ← hp]

/-- Noting a claimed type as generated. -/
theorem complete_setInProgress {registry : Registry} {id : String} {index : Nat}
    (hi : registry.byId.lookup id = some index) (descriptor : LayoutDescriptor) :
    (registry.setRecord index ({ · with state := .inProgress })).completeGeneration id descriptor =
      registry.setRecord index (generatedWith descriptor) := by
  have hi' : (registry.setRecord index ({ · with state := .inProgress })).byId.lookup id =
      some index := hi
  unfold completeGeneration
  rw [hi']
  exact setRecord_setRecord registry index _ _

/-- A type is passed over unless it is pending. A pending type is written, or the sink refuses it
and the registry stays as it is. -/
theorem generate_cases {scope : EmissionScope (τ × List WriteRequest)}
    (hscope : scope.sink = inner.noting) (state : EmissionState (τ × List WriteRequest))
    {identity : TypeIdentity} {index : Nat} {record : Record}
    (hi : state.registry.byId.lookup identity.persistentId = some index)
    (hr : state.registry.records[index]? = some record) (descriptor : LayoutDescriptor)
    (schema : TypeSchema) :
    (record.state ≠ .pending ∧
      state.generate scope identity descriptor schema = (.ok (), state)) ∨
    (record.state = .pending ∧ ∃ artifacts generated,
      state.generate scope identity descriptor schema =
        (.ok (), { state with
          registry := state.registry.setRecord index (generatedWith descriptor)
          artifacts := (artifacts, state.artifacts.2 ++
            [⟨identity.generatedName, schema.hostSource scope.runtime, true⟩])
          generated })) ∨
    ∃ e text artifacts, inner.Refuses e ∧
      state.generate scope identity descriptor schema =
        (.error (.sink e), { state with
          artifacts :=
            (artifacts, state.artifacts.2 ++ [⟨identity.generatedName, text, false⟩]) }) := by
  unfold EmissionState.generate beginGeneration
  dsimp only
  rw [hi]
  dsimp only
  rw [hr, Option.any_some]
  by_cases hp : record.state = .pending
  · rw [if_pos (by rw [hp]; rfl)]
    dsimp only
    rw [hscope, complete_setInProgress hi, abandon_setInProgress hi hr hp]
    rcases hw : inner.write identity.generatedName (schema.hostSource scope.runtime)
      state.artifacts.1 with ⟨e | written, artifacts⟩
    · rw [ArtifactSink.noting_write, hw]
      exact Or.inr (Or.inr ⟨e, _, _, ⟨_, _, _, by rw [hw]⟩, rfl⟩)
    · rw [ArtifactSink.noting_write, hw]
      exact Or.inr (Or.inl ⟨hp, _, _, rfl⟩)
  · rw [if_neg (by simpa using hp)]
    exact Or.inl ⟨hp, rfl⟩

/-- What has to be known of a planned type when its turn comes: its hash is registered, and its
layout finds its texture units or is on offer in the registry. -/
structure PlannedType.Ready (planned : PlannedType) (limit : Nat) (registry : Registry) : Prop where
  known : (registry.byHash.lookup planned.contentHash).isSome
  layout : planned.IsFresh ∧ planned.layout.UnitsFit limit ∨
    ∃ descriptor, planned.known = some descriptor ∧ planned.layout = descriptor.layout ∧
      descriptor.layout.Throughout (registry.Offers limit)

theorem PlannedType.Ready.mono {planned : PlannedType} {requests : List WriteRequest}
    {before after : Registry} (h : planned.Ready limit before)
    (ha : Advances requests before after) : planned.Ready limit after := by
  refine ⟨?_, h.layout.imp_right ?_⟩
  · rw [ha.indices]
    exact h.known
  · rintro ⟨descriptor, hk, hl, ho⟩
    exact ⟨descriptor, hk, hl, ho.mono fun _ hi => hi.mono ha.begun⟩

/-- What is on offer is accepted when schemas are built. -/
theorem Registry.Offers.accepted {registry : Registry} {layout : StructLayout}
    (h : registry.Offers limit layout) (hc : registry.Consistent) :
    SchemaScope.Accepts ⟨registry, limit⟩ layout := by
  refine ⟨?_, h.2⟩
  obtain ⟨index, record, -, -, hidentity, -⟩ := hc.record_of_hash (h.known hc)
  rw [hidentity]
  rfl

/-- What emission may have done by the time it stops. -/
structure EmissionState.Progress (limit : Nat)
    (before after : EmissionState (τ × List WriteRequest)) : Prop where
  settled : after.registry.Settled limit
  advances : Advances after.artifacts.2 before.registry after.registry
  requests : before.artifacts.2 ⊆ after.artifacts.2

theorem EmissionState.Progress.trans {a b c : EmissionState (τ × List WriteRequest)}
    (h : a.Progress limit b) (k : b.Progress limit c) : a.Progress limit c :=
  ⟨k.settled, h.advances.trans k.advances k.requests, fun _ hm => k.requests (h.requests hm)⟩

/-- A planned type that is ready has a schema. -/
theorem toSchema_of_ready {registry : Registry} (hc : registry.Consistent)
    {available : List StructLayout}
    (ha : ∀ layout ∈ available, layout.Throughout (registry.Offers limit))
    {planned : PlannedType} (hready : planned.Ready limit registry)
    (hdraws : planned.known = none → planned.layout.DrawsOn available) (kept : SchemaTable) :
    ∃ result, planned.layout.toSchema ⟨registry, limit⟩ kept = .ok result := by
  apply toSchema_isOk
  rcases hready.layout with ⟨hfresh, hunits⟩ | ⟨descriptor, -, hl, ho⟩
  · obtain ⟨index, record, -, -, hidentity, -⟩ := hc.record_of_hash hready.known
    refine .intro ⟨?_, hunits⟩ fun field hf inner hs => ?_
    · rw [hfresh.contentHash, hidentity]
      rfl
    · exact (ha inner (hdraws hfresh.known field hf inner hs)).mono fun _ ho => ho.accepted hc
  · rw [hl]
    exact ho.mono fun _ hi => hi.accepted hc

/-- What emitting a planned type can do. -/
inductive EmissionStep (inner : ArtifactSink τ) (runtime : String) (limit : Nat)
    (planned : PlannedType) (state : EmissionState (τ × List WriteRequest)) :
    Except CompileError EmittedType × EmissionState (τ × List WriteRequest) → Prop
  /-- The type has been written before. -/
  | passed {schema : TypeSchema} {schemas : SchemaTable} (emitted : EmittedType)
      (made : planned.layout.toSchema ⟨state.registry, limit⟩ state.schemas = .ok (schema, schemas))
      (offered : planned.layout.Throughout (state.registry.Offers limit)) :
      EmissionStep inner runtime limit planned state (.ok emitted, { state with schemas })
  /-- The sink takes the source of a pending type. -/
  | written {schema : TypeSchema} {schemas : SchemaTable} {index : Nat} {record : Record}
      (emitted : EmittedType) (artifacts : τ) (generated : List String)
      (made : planned.layout.toSchema ⟨state.registry, limit⟩ state.schemas = .ok (schema, schemas))
      (new : planned.known = none)
      (stands : state.registry.records[index]? = some record) (pending : record.state = .pending)
      (hash : planned.layout.contentHash = record.identity.contentHash)
      (units : planned.layout.UnitsFit limit)
      (nested : ∀ field ∈ planned.layout.fields, ∀ below, field.shape = .aggregate below →
        below.Throughout (state.registry.Offers limit)) :
      EmissionStep inner runtime limit planned state
        (.ok emitted, {
          registry := state.registry.setRecord index
            (generatedWith ⟨record.identity, planned.layout⟩)
          artifacts := (artifacts, state.artifacts.2 ++
            [⟨record.identity.generatedName, schema.hostSource runtime, true⟩])
          schemas
          generated })
  /-- The sink refuses the source of a pending type. -/
  | refused {e : StorageError} (schemas : SchemaTable) (artifacts : τ) (key text : String)
      (refuses : inner.Refuses e) :
      EmissionStep inner runtime limit planned state
        (.error (.sink e), { state with
          artifacts := (artifacts, state.artifacts.2 ++ [⟨key, text, false⟩]), schemas })

theorem emitType_step (scope : EmissionScope (τ × List WriteRequest))
    (hscope : scope.sink = inner.noting) (hlimit : scope.maxTextureUnits = limit)
    (state : EmissionState (τ × List WriteRequest)) (hs : state.registry.Settled limit)
    {available : List StructLayout}
    (ha : ∀ layout ∈ available, layout.Throughout (state.registry.Offers limit))
    {planned : PlannedType} (hready : planned.Ready limit state.registry)
    (hdraws : planned.known = none → planned.layout.DrawsOn available) :
    EmissionStep inner scope.runtime limit planned state (emitType scope planned state) := by
  have hc := hs.wellFormed.consistent
  obtain ⟨index, record, hr, hhash, hidentity, hi⟩ := hc.record_of_hash hready.known
  obtain ⟨⟨schema, schemas⟩, hschema⟩ := toSchema_of_ready hc ha hready hdraws state.schemas
  have hlayout : (planned.known.getD ⟨record.identity, planned.layout⟩).layout =
      planned.layout := by
    rcases hready.layout with ⟨hfresh, -⟩ | ⟨descriptor, hk, hl, -⟩
    · rw [hfresh.known]
      rfl
    · rw [hk, hl]
      rfl
  unfold emitType
  rw [hidentity]
  dsimp only
  rw [hlayout, hlimit, hschema]
  dsimp only
  rcases hready.layout with ⟨hfresh, hunits⟩ | ⟨descriptor, hk, hl, ho⟩
  · have hnested : ∀ field ∈ planned.layout.fields, ∀ below, field.shape = .aggregate below →
        below.Throughout (state.registry.Offers limit) :=
      fun field hf below hshape => ha below (hdraws hfresh.known field hf below hshape)
    rw [hfresh.known]
    dsimp only [Option.isSome_none, Option.getD_none]
    rw [if_neg Bool.false_ne_true]
    rcases generate_cases hscope { state with schemas } hi hr
        ⟨record.identity, planned.layout⟩ schema with
      ⟨hp, hg⟩ | ⟨hp, artifacts, generated, hg⟩ | ⟨e, text, artifacts, hrefuses, hg⟩
    · rw [hg]
      refine .passed _ hschema (.intro ⟨?_, hunits⟩ hnested)
      have hm : (record.identity, record.state, record.descriptor) ∈ state.registry.begun :=
        Registry.mem_begun_iff.2 ⟨index, record, hr, rfl, hp⟩
      have hstate := (hs.begun _ _ _ hm).1
      rw [hstate] at hm
      exact ⟨record.identity, record.descriptor, hm, hhash.trans hfresh.contentHash.symm⟩
    · rw [hg]
      exact .written _ artifacts generated hschema hfresh.known hr hp
        (hfresh.contentHash.trans hhash.symm) hunits hnested
    · rw [hg]
      exact .refused schemas artifacts _ text hrefuses
  · rw [hk]
    dsimp only [Option.isSome_some, Option.getD_some]
    rw [if_pos rfl]
    exact .passed _ hschema (hl ▸ ho)

variable {runtime : String}

/-- A step makes progress. Afterwards the layout is on offer, unless the sink refused it. -/
theorem EmissionStep.spec {planned : PlannedType} {state : EmissionState (τ × List WriteRequest)}
    {result : Except CompileError EmittedType × EmissionState (τ × List WriteRequest)}
    (hs : state.registry.Settled limit)
    (h : EmissionStep inner runtime limit planned state result) :
    state.Progress limit result.2 ∧
      ((∃ e, inner.Refuses e ∧ result.1 = .error (.sink e)) ∨
        (∃ emitted, result.1 = .ok emitted) ∧
          planned.layout.Throughout (result.2.registry.Offers limit)) := by
  cases h with
  | passed emitted made offered =>
    exact ⟨⟨hs, .refl _ _, List.Subset.refl _⟩, Or.inr ⟨⟨emitted, rfl⟩, offered⟩⟩
  | written emitted artifacts generated made new stands pending hash units nested =>
    obtain ⟨hsettled, hoffer⟩ := settled_setGenerated hs stands pending hash units nested rfl
    refine ⟨⟨hsettled, ?_, List.subset_append_left _ _⟩, Or.inr ⟨⟨emitted, rfl⟩, hoffer⟩⟩
    exact advances_setGenerated stands pending hash
      (List.mem_append_right _ (List.mem_singleton_self _))
  | refused schemas artifacts key text refuses =>
    exact ⟨⟨hs, .refl _ _, List.subset_append_left _ _⟩, Or.inl ⟨_, refuses, rfl⟩⟩

/-! ## Writing all types -/

/-- Steps from settled registries, one for each type, until one of them is refused. -/
inductive EmissionRun (inner : ArtifactSink τ) (runtime : String) (limit : Nat) :
    List PlannedType → EmissionState (τ × List WriteRequest) →
      Except CompileError (List EmittedType) × EmissionState (τ × List WriteRequest) → Prop
  | done (state : EmissionState (τ × List WriteRequest)) :
      EmissionRun inner runtime limit [] state (.ok [], state)
  | stopped {planned : PlannedType} {rest : List PlannedType} {e : CompileError}
      {state after : EmissionState (τ × List WriteRequest)}
      (settled : state.registry.Settled limit)
      (step : EmissionStep inner runtime limit planned state (.error e, after)) :
      EmissionRun inner runtime limit (planned :: rest) state (.error e, after)
  | went {planned : PlannedType} {rest : List PlannedType} {emitted : EmittedType}
      {others : Except CompileError (List EmittedType)}
      {state between after : EmissionState (τ × List WriteRequest)}
      (settled : state.registry.Settled limit)
      (step : EmissionStep inner runtime limit planned state (.ok emitted, between))
      (run : EmissionRun inner runtime limit rest between (others, after)) :
      EmissionRun inner runtime limit (planned :: rest) state (others.map (emitted :: ·), after)

/-- Emitting the types of a plan. The induction carries the layouts that are on offer. -/
theorem emitAll_run (scope : EmissionScope (τ × List WriteRequest))
    (hscope : scope.sink = inner.noting) (hlimit : scope.maxTextureUnits = limit)
    (state : EmissionState (τ × List WriteRequest)) (hs : state.registry.Settled limit)
    {available : List StructLayout}
    (ha : ∀ layout ∈ available, layout.Throughout (state.registry.Offers limit))
    {types : List PlannedType} (hstaged : Staged available types)
    (hready : ∀ planned ∈ types, planned.Ready limit state.registry) :
    EmissionRun inner scope.runtime limit types state (emitAll scope types state) := by
  induction types generalizing state available with
  | nil => exact .done state
  | cons planned rest ih =>
    have hstep := emitType_step scope hscope hlimit state hs ha
      (hready planned List.mem_cons_self) hstaged.1
    unfold emitAll
    generalize emitType scope planned state = result at hstep ⊢
    obtain ⟨e | emitted, after⟩ := result
    · exact .stopped hs hstep
    · obtain ⟨hprogress, ⟨e, -, he⟩ | ⟨-, hoffer⟩⟩ := hstep.spec hs
      · cases he
      · have havailable : ∀ layout ∈ planned.layout :: available,
            layout.Throughout (after.registry.Offers limit) := by
          refine List.forall_mem_cons.2 ⟨hoffer, fun layout hm => ?_⟩
          exact (ha layout hm).mono fun _ ho => ho.mono hprogress.advances.begun
        exact .went hs hstep (ih after hprogress.settled havailable hstaged.2 fun other ho =>
          (hready other (List.mem_cons_of_mem _ ho)).mono hprogress.advances)

/-- A run makes progress, and it stops only when the sink refuses a source. -/
theorem EmissionRun.spec {types : List PlannedType} {state : EmissionState (τ × List WriteRequest)}
    {result : Except CompileError (List EmittedType) × EmissionState (τ × List WriteRequest)}
    (hs : state.registry.Settled limit)
    (h : EmissionRun inner runtime limit types state result) :
    state.Progress limit result.2 ∧
      ((∃ e, inner.Refuses e ∧ result.1 = .error (.sink e)) ∨
        ∃ emitted, result.1 = .ok emitted) := by
  induction h with
  | done state => exact ⟨⟨hs, .refl _ _, List.Subset.refl _⟩, Or.inr ⟨[], rfl⟩⟩
  | stopped settled step =>
    obtain ⟨hprogress, ⟨cause, hrefuses, he⟩ | ⟨⟨emitted, he⟩, -⟩⟩ := step.spec settled
    · obtain rfl := Except.error.inj he
      exact ⟨hprogress, Or.inl ⟨cause, hrefuses, rfl⟩⟩
    · cases he
  | went settled step run ih =>
    obtain ⟨hprogress, -⟩ := step.spec settled
    obtain ⟨hlater, hend⟩ := ih hprogress.settled
    refine ⟨hprogress.trans hlater, ?_⟩
    rcases hend with ⟨e, hrefuses, rfl⟩ | ⟨others, rfl⟩
    · exact Or.inl ⟨e, hrefuses, rfl⟩
    · exact Or.inr ⟨_, rfl⟩

end

end UniformLayout
