import UniformLayout.Proofs.Compilation.Accounts
import UniformLayout.Proofs.Compilation.Origin
import UniformLayout.Proofs.Schema.Regular

/-!
# What a compiler has written, over its whole history

A `Ledger` follows one compiler and its sink through restored snapshots and calls of `compile`, whether
these succeed or fail. At any time no type is claimed, whatever is nested in a generated type is
generated as well, and the sink has accepted one source for each generated type. Layouts with one
content hash must not differ in bulk for the source to be the one that a schema built afresh gives; in
`blend.glsl` they differ, and the source of `Scene` is another.

* `Ledger.Kept.accounts`: the accounts are kept.
* `Ledger.Kept.closed`: what is nested in a planned layout has been planned.

Main statements: `Ledger.Kept.written_once` and `stale_source`.
-/

namespace UniformLayout

/-! ## Planned layouts -/

/-- Layouts with one content hash do not differ in bulk. -/
def HashFixesBulk (layouts : List StructLayout) : Prop :=
  ∀ first ∈ layouts, ∀ second ∈ layouts,
    first.contentHash = second.contentHash → first.bulk = second.bulk

instance (layouts : List StructLayout) : Decidable (HashFixesBulk layouts) :=
  inferInstanceAs (Decidable (∀ first ∈ layouts, ∀ second ∈ layouts,
    first.contentHash = second.contentHash → first.bulk = second.bulk))

/-- What is nested in one of the layouts is among them. -/
def ClosedUnderNesting (layouts : List StructLayout) : Prop :=
  ∀ layout ∈ layouts, layout.Throughout (· ∈ layouts)

theorem HashFixesBulk.exists_known {layouts : List StructLayout} (h : HashFixesBulk layouts)
    (hc : ClosedUnderNesting layouts) :
    ∃ known, ∀ layout ∈ layouts, layout.DeterminedBy StructLayout.bulk known := by
  refine ⟨fun hash => (layouts.find? (·.contentHash == hash)).elim (0, 0) StructLayout.bulk, ?_⟩
  intro layout hl
  refine (hc layout hl).mono fun inner hm => ?_
  dsimp only
  cases hf : layouts.find? (·.contentHash == inner.contentHash) with
  | none => exact absurd (beq_self_eq_true _) (List.find?_eq_none.1 hf inner hm)
  | some found =>
    have hhash := List.find?_some hf
    exact h inner hm found (List.mem_of_find?_eq_some hf) (eq_of_beq hhash).symm

/-- The types of a plan draw on each other and on what the registry has stored. -/
theorem closed_plannedLayouts {layouts : List StructLayout} (h : ClosedUnderNesting layouts)
    {registry : Registry}
    (hstored : ∀ hash descriptor, registry.descriptorOfHash? hash = some descriptor →
      descriptor.layout ∈ layouts) (unit : SourceUnit) :
    ClosedUnderNesting (layouts ++ unit.plannedLayouts registry) := by
  have hbefore : ∀ layout ∈ layouts,
      layout.Throughout (· ∈ layouts ++ unit.plannedLayouts registry) :=
    fun layout hl => (h layout hl).mono fun _ hm => List.mem_append_left _ hm
  cases hp : (unit.plan registry).result with
  | error e =>
    have hnone : unit.plannedLayouts registry = [] := by
      rw [SourceUnit.plannedLayouts, hp]
      rfl
    rw [hnone, List.append_nil] at hbefore ⊢
    exact hbefore
  | ok plan =>
    obtain ⟨base, hsourced⟩ := plan_spec hp
    rw [SourceUnit.plannedLayouts_eq hp] at hbefore ⊢
    refine List.forall_mem_append.2 ⟨hbefore, List.forall_mem_map.2 ?_⟩
    refine hsourced.throughout (fun hash descriptor hd => hbefore _ (hstored hash descriptor hd)) ?_
    exact fun planned hm _ => List.mem_append_right _ (List.mem_map_of_mem hm)

/-! ## Histories -/

/-- A compiler and its sink: the registry, what the sink holds, every request to it so far, and the
layouts of all types that have been planned. -/
structure Ledger (τ : Type) where
  registry : Registry
  artifacts : τ
  requests : List WriteRequest := []
  layouts : List StructLayout := []

namespace Ledger

variable {σ τ : Type}

/-- A compiler that has done nothing yet. -/
def start (settings : Settings) (artifacts : τ) : Ledger τ where
  registry := { suffixLength := settings.registry.suffixLength }
  artifacts := artifacts

def restore (kept : Snapshot) (ledger : Ledger τ) : Ledger τ :=
  { ledger with registry := ledger.registry.restore kept }

def workspace (slots : σ) (ledger : Ledger τ) : Workspace σ τ where
  registry := ledger.registry
  slots := slots
  artifacts := ledger.artifacts

def compile (settings : Settings) (allocator : SlotAllocator σ) (sink : ArtifactSink τ)
    (unit : SourceUnit) (slots : σ) (ledger : Ledger τ) : Ledger τ :=
  let work := ledger.workspace slots
  let after := (UniformLayout.compile settings allocator sink unit work).2
  { registry := after.registry
    artifacts := after.artifacts
    requests := ledger.requests ++ compileRequests settings allocator sink unit work
    layouts := ledger.layouts ++ unit.plannedLayouts ledger.registry }

/-- The histories of a compiler with one sink. Calls may succeed or fail, and each may have an
allocator of its own. -/
inductive Kept (settings : Settings) (sink : ArtifactSink τ) : Ledger τ → Prop
  | start (artifacts : τ) : Kept settings sink (start settings artifacts)
  | restore {ledger : Ledger τ} (kept : Snapshot) (h : Kept settings sink ledger) :
      Kept settings sink (ledger.restore kept)
  | compile {σ : Type} {ledger : Ledger τ} (allocator : SlotAllocator σ) (unit : SourceUnit)
      (slots : σ) (h : Kept settings sink ledger) (ids : unit.FindsIds ledger.registry) :
      Kept settings sink (ledger.compile settings allocator sink unit slots)

variable {settings : Settings} {sink : ArtifactSink τ} {ledger : Ledger τ}

theorem Kept.reached (h : ledger.Kept settings sink) : Reached settings ledger.registry := by
  induction h with
  | start artifacts => exact .fresh
  | restore kept _ ih => exact .restore kept ih
  | compile allocator unit slots _ ids ih => exact .compile allocator sink unit (workspace slots _) ih ids

theorem Kept.accounts (h : ledger.Kept settings sink) :
    ledger.registry.Accounts settings.bindings.maxTextureUnits settings.output.runtime ledger.layouts
      ledger.requests := by
  induction h with
  | start artifacts =>
    constructor
    · intro identity state descriptor? hm
      cases hm
    · intro request hm
      cases hm
  | restore kept _ ih => exact ih.of_begun (Registry.begun_restore _ kept)
  | @compile σ ledger allocator unit slots h ids ih =>
    exact @compile_accounts σ τ _ _ settings allocator sink unit (ledger.workspace slots)
      h.reached.settled ids ih

theorem Kept.closed (h : ledger.Kept settings sink) : ClosedUnderNesting ledger.layouts := by
  induction h with
  | start artifacts =>
    intro layout hm
    cases hm
  | restore kept _ ih => exact ih
  | @compile _ ledger allocator unit slots h ids ih =>
    refine closed_plannedLayouts ih (fun hash descriptor hd => ?_) unit
    obtain ⟨identity, hm⟩ := h.reached.settled.wellFormed.consistent.begun_of_descriptor hd
    obtain ⟨layout, text, he, hl, -⟩ := h.accounts.stored _ _ _ hm
    obtain rfl := Option.some.inj he
    exact hl

end Ledger

theorem Registry.Offers.isGenerated {registry : Registry} {limit : Nat} {layout : StructLayout}
    (h : registry.Offers limit layout) (hc : registry.Consistent) :
    registry.isGenerated layout.contentHash = true := by
  obtain ⟨⟨identity, descriptor?, hm, he⟩, -⟩ := h
  obtain ⟨i, record, hr, hcore, -⟩ := Registry.mem_begun_iff.1 hm
  obtain ⟨rfl, hrest⟩ := Prod.mk.inj hcore
  obtain ⟨hs, -⟩ := Prod.mk.inj hrest
  rw [Registry.isGenerated, ← he, hc.ofHash_of_getElem? hr, Option.any_some, hs]
  rfl

/-- **What is written.** No type is claimed. A generated type has a layout in which all that is nested
is generated, and the sink has accepted one source for it, which is the one that a schema built afresh
gives. -/
theorem Ledger.Kept.written_once {τ : Type} {settings : Settings} {sink : ArtifactSink τ}
    {ledger : Ledger τ} (h : ledger.Kept settings sink) :
    (∀ record ∈ ledger.registry.records, record.state ≠ .inProgress) ∧
      ∀ record ∈ ledger.registry.records, record.state = .generated →
        ∃ layout text fresh, record.descriptor = some ⟨record.identity, layout⟩ ∧
          layout.Throughout (fun inner => ledger.registry.isGenerated inner.contentHash = true) ∧
          acceptedTexts ledger.requests record.identity.generatedName = [text] ∧
          ledger.registry.freshSource? settings.bindings.maxTextureUnits settings.output.runtime
            layout = some fresh ∧
          (HashFixesBulk ledger.layouts → text = fresh) := by
  have hs := h.reached.settled
  have hc := hs.wellFormed.consistent
  refine ⟨hs.idle, fun record hm hstate => ?_⟩
  obtain ⟨i, hr⟩ := List.mem_iff_getElem?.1 hm
  have hbegun : (record.identity, record.state, record.descriptor) ∈ ledger.registry.begun :=
    Registry.mem_begun_iff.2 ⟨i, record, hr, rfl, fun hp => by rw [hstate] at hp; cases hp⟩
  obtain ⟨-, descriptor, hd, husable⟩ := hs.begun _ _ _ hbegun
  obtain ⟨layout, text, he, -, htext, hfix⟩ := h.accounts.stored _ _ _ hbegun
  obtain rfl := Option.some.inj (hd.symm.trans he)
  obtain ⟨⟨schema, after⟩, made⟩ : ∃ result, layout.toSchema
      ⟨ledger.registry, settings.bindings.maxTextureUnits⟩ [] = .ok result :=
    toSchema_isOk (husable.layout.mono fun _ ho => ho.accepted hc) []
  refine ⟨layout, text, schema.hostSource settings.output.runtime, he,
    husable.layout.mono fun _ ho => ho.isGenerated hc, htext, ?_, fun hbulk => ?_⟩
  · rw [Registry.freshSource?, made]
    rfl
  · obtain ⟨known, hknown⟩ := hbulk.exists_known h.closed
    have hsource := hfix known hknown _ hs (List.Subset.refl _)
    rw [Registry.freshSource?, made] at hsource
    exact (Option.some.inj hsource).symm

/-- The ledger once the sink has stored `Lamp` and refused `Lights`. -/
def narrowLedger : Ledger (Artifacts × Nat) :=
  (Ledger.start {} ([], 1)).compile {} BindingPool.allocator memorySink.limited lightsUnit
    { max := 72 }

/-- The source of `Lamp` is the one that a schema built afresh gives. -/
theorem written_narrow :
    narrowLedger.Kept {} memorySink.limited ∧ HashFixesBulk narrowLedger.layouts ∧
      ∃ record ∈ narrowLedger.registry.records, record.state = .generated ∧
        record.identity.generatedName = "Lamp" ∧
        ∃ layout text, record.descriptor = some ⟨record.identity, layout⟩ ∧
          acceptedTexts narrowLedger.requests "Lamp" = [text] ∧
          narrowLedger.registry.freshSource? defaultMaxTextureUnits ({} : Settings).output.runtime
            layout = some text := by
  have hkept : narrowLedger.Kept {} memorySink.limited :=
    .compile BindingPool.allocator lightsUnit { max := 72 } (.start ([], 1)) lightsUnit_findsIds
  obtain ⟨hbulk, hlamp⟩ : HashFixesBulk narrowLedger.layouts ∧
      narrowLedger.registry.records.any (fun record =>
        decide (record.state = .generated ∧ record.identity.generatedName = "Lamp")) = true := by
    decide +kernel
  obtain ⟨record, hm, hrecord⟩ := List.any_eq_true.1 hlamp
  obtain ⟨hstate, hname⟩ := of_decide_eq_true hrecord
  obtain ⟨-, hall⟩ := hkept.written_once
  obtain ⟨layout, text, fresh, hd, -, htext, hfresh, hsame⟩ := hall record hm hstate
  rw [hname] at htext
  obtain rfl := hsame hbulk
  exact ⟨hkept, hbulk, record, hm, hstate, hname, layout, text, hd, htext, hfresh⟩

/-! ## One hash for two numbers of handles -/

/-- The ledger once `blend.glsl` is compiled. -/
def blendLedger : Ledger Artifacts :=
  (Ledger.start {} []).compile {} BindingPool.allocator memorySink blendUnit { max := 72 }

/-- What has been accepted for `Scene` was written for the schema of `Wide`, which has no handles, in
place of that of `Narrow`, which has one. -/
theorem stale_source :
    blendLedger.Kept {} memorySink ∧
      ∃ record ∈ blendLedger.registry.records, record.state = .generated ∧
        ∃ descriptor fresh, record.descriptor = some descriptor ∧
          blendLedger.registry.freshSource? defaultMaxTextureUnits ({} : Settings).output.runtime
            descriptor.layout = some fresh ∧
          acceptedTexts blendLedger.requests record.identity.generatedName ≠ [fresh] := by
  obtain ⟨hids, hscene⟩ : blendUnit.findsFirstIds ((Ledger.start {} ([] : Artifacts)).workspace
        ({ max := 72 } : BindingPool)).registry = true ∧
      blendLedger.registry.records.any (fun record =>
        decide (record.state = .generated ∧ record.identity.generatedName = "Scene") &&
          record.descriptor.any fun descriptor =>
            (blendLedger.registry.freshSource? defaultMaxTextureUnits
              ({} : Settings).output.runtime descriptor.layout).any fun fresh =>
                decide (acceptedTexts blendLedger.requests record.identity.generatedName ≠
                  [fresh])) = true := by
    decide +kernel
  have hkept : blendLedger.Kept {} memorySink :=
    .compile BindingPool.allocator blendUnit { max := 72 } (.start []) (findsIds_of_plan hids)
  obtain ⟨record, hm, hrecord⟩ := List.any_eq_true.1 hscene
  obtain ⟨hstate, hdescriptor⟩ := Bool.and_eq_true_iff.1 hrecord
  obtain ⟨descriptor, hd, hfresh⟩ := (Option.any_eq_true _ _).1 hdescriptor
  obtain ⟨fresh, hf, hne⟩ := (Option.any_eq_true _ _).1 hfresh
  exact ⟨hkept, record, hm, (of_decide_eq_true hstate).1, descriptor, fresh, hd, hf,
    of_decide_eq_true hne⟩

end UniformLayout
