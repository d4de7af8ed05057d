import UniformLayout.Proofs.Artifact.Rebuilt
import UniformLayout.Proofs.Compilation.Parallel
import UniformLayout.Proofs.Registry.Generating

/-!
# Types that other units write

A unit that does not get the claim on a type lists the type all the same, and trusts whoever has the
claim to write it. `Parallel.Kept` says what holds while this trust is well placed: every type that
is listed has been begun, and every type that has been begun is written or in the hands of one unit.

* `Worker.Fits.frame`: what a unit relies on stays, whatever the others do.
* `Parallel.Kept.quiet`, `Parallel.Kept.change`: steps that change no claim, and steps that change
  one.

Main statement: `Parallel.kept_advance`, the step of the invariant.
-/

namespace UniformLayout

variable {ι τ : Type}

namespace Phase

/-- The type that the unit has the claim on. -/
def held? : Phase → Option EmittedType
  | .writing emitted _ => some emitted
  | .noting emitted _ => some emitted
  | .givingUp emitted _ => some emitted
  | _ => none

/-- The type that the unit asks the claim for. -/
def asked? : Phase → Option EmittedType
  | .claiming emitted _ => some emitted
  | _ => none

/-- The type whose claim the unit gives up. -/
def yielded? : Phase → Option EmittedType
  | .givingUp emitted _ => some emitted
  | _ => none

/-- The type that the unit registers. -/
def registered? : Phase → Option PlannedType
  | .registering (planned :: _) => some planned
  | _ => none

/-- The types that the unit will look up. -/
def ahead (types : List PlannedType) : Phase → List PlannedType
  | .registering _ => types
  | .looking rest => rest
  | .claiming _ rest => rest
  | .writing _ rest => rest
  | .noting _ rest => rest
  | _ => []

end Phase

/-- A source of the host type has been accepted. -/
def Accepted (requests : List WriteRequest) (key : String) : Prop :=
  ∃ request ∈ requests, request.key = key ∧ request.accepted = true

instance (requests : List WriteRequest) (key : String) : Decidable (Accepted requests key) :=
  inferInstanceAs (Decidable (∃ request ∈ requests, request.key = key ∧ request.accepted = true))

theorem Accepted.mono {requests more : List WriteRequest} {key : String}
    (h : Accepted requests key) (hm : requests ⊆ more) : Accepted more key := by
  obtain ⟨request, hr, hrest⟩ := h
  exact ⟨request, hm hr, hrest⟩

/-- What a unit relies on, when it trusts others with some types. -/
structure Worker.Fits (trusts : TypeIdentity → Prop) (worker : Worker)
    (common : Common (τ × List WriteRequest)) : Prop where
  held : ∀ emitted ∈ worker.phase.held?,
    (emitted.identity, .inProgress, none) ∈ common.registry.begun
  owner : ∀ emitted, emitted ∈ worker.phase.asked? ∨ emitted ∈ worker.phase.held? →
    emitted.descriptor.identity = emitted.identity
  accepted : ∀ emitted rest, worker.phase = .noting emitted rest →
    Accepted common.artifacts.2 emitted.identity.generatedName
  listed : ∀ emitted ∈ worker.listed, trusts emitted.identity →
    common.registry.IsBegun emitted.identity
  /-- A unit has the claim on a type that it does not have yet. -/
  new : ∀ emitted ∈ worker.phase.held?, trusts emitted.identity → ∀ other ∈ worker.listed,
    other.identity ≠ emitted.identity
  known : ∀ planned ∈ worker.phase.ahead worker.plan.types, planned.known.isSome →
    ∃ identity descriptor?, (identity, .generated, descriptor?) ∈ common.registry.begun ∧
      identity.contentHash = planned.contentHash
  result : ∀ unit, worker.phase = .finished (.ok unit) → unit.types = worker.listed

variable {believes : TypeIdentity → Prop}

/-- A unit without a claim, and without the wish for one. -/
theorem Worker.Fits.of_idle {worker : Worker} {common : Common (τ × List WriteRequest)}
    (hh : worker.phase.held? = none) (ha : worker.phase.asked? = none)
    (hl : ∀ emitted ∈ worker.listed, believes emitted.identity →
      common.registry.IsBegun emitted.identity)
    (hk : ∀ planned ∈ worker.phase.ahead worker.plan.types, planned.known.isSome →
      ∃ identity descriptor?, (identity, .generated, descriptor?) ∈ common.registry.begun ∧
        identity.contentHash = planned.contentHash)
    (hr : ∀ unit, worker.phase = .finished (.ok unit) → unit.types = worker.listed) :
    worker.Fits believes common := by
  refine ⟨fun emitted he => ?_, fun emitted he => ?_, fun emitted rest hs => ?_, hl,
    fun emitted he => ?_, hk, hr⟩
  · rw [hh] at he
    cases he
  · rw [hh, ha] at he
    rcases he with he | he
    · cases he
    · cases he
  · rw [hs] at hh
    cases hh
  · rw [hh] at he
    cases he

/-- What a unit relies on stays, as long as its claim, what is generated and what it has listed
do. -/
theorem Worker.Fits.frame {worker : Worker} {before after : Common (τ × List WriteRequest)}
    (h : worker.Fits believes before) (hr : before.artifacts.2 ⊆ after.artifacts.2)
    (hh : ∀ emitted ∈ worker.phase.held?,
      (emitted.identity, .inProgress, none) ∈ after.registry.begun)
    (hg : ∀ identity descriptor?, (identity, .generated, descriptor?) ∈ before.registry.begun →
      (identity, .generated, descriptor?) ∈ after.registry.begun)
    (hl : ∀ emitted ∈ worker.listed, believes emitted.identity →
      after.registry.IsBegun emitted.identity) :
    worker.Fits believes after := by
  refine ⟨hh, h.owner, fun emitted rest hs => ?_, hl, h.new, fun planned hm hk => ?_, h.result⟩
  · exact (h.accepted emitted rest hs).mono hr
  · obtain ⟨identity, descriptor?, hi, hash⟩ := h.known planned hm hk
    exact ⟨identity, descriptor?, hg identity descriptor? hi, hash⟩

namespace Parallel

/-- Whatever has been begun is written, or in the hands of one unit. What a unit has listed has been
begun if the unit is one that trusts others with the type. -/
structure Kept (trusts : ι → TypeIdentity → Prop) (system : Parallel ι (τ × List WriteRequest)) :
    Prop where
  wellFormed : system.common.registry.WellFormed
  begun : ∀ identity state descriptor?,
    (identity, state, descriptor?) ∈ system.common.registry.begun →
      (state = .generated ∧ Accepted system.common.artifacts.2 identity.generatedName ∧
        ∃ descriptor, descriptor? = some descriptor ∧ descriptor.identity = identity) ∨
      state = .inProgress ∧ ∃ i, ∃ emitted ∈ (system.workers i).phase.held?,
        emitted.identity = identity
  alone : ∀ i j, ∀ first ∈ (system.workers i).phase.held?,
    ∀ second ∈ (system.workers j).phase.held?, first.identity = second.identity → i = j
  fits : ∀ i, (system.workers i).Fits (trusts i) system.common

variable {trusts : ι → TypeIdentity → Prop} {settings : Settings}
  {system : Parallel ι (τ × List WriteRequest)} {i : ι}

/-! ## What a unit does on its own -/

theorem fits_makePlan (h : system.Kept trusts) (i : ι) (unit : SourceUnit) :
    ((system.workers i).makePlan settings unit system.common.registry).Fits (trusts i)
        system.common ∧
      ((system.workers i).makePlan settings unit system.common.registry).phase.held? = none := by
  have hlisted := (h.fits i).listed
  have hfailed : ∀ e, ({ system.workers i with phase := .finished (.error e) }).Fits (trusts i)
      system.common := by
    refine fun e => .of_idle rfl rfl hlisted (fun planned hm => ?_) fun unit he => ?_
    · cases hm
    · cases he
  unfold Worker.makePlan
  cases hp : (unit.plan system.common.registry).result with
  | error e => exact ⟨hfailed e, rfl⟩
  | ok plan =>
    dsimp only
    cases (assignSlots settings.bindings.maxTextureUnits BindingPool.allocator plan.types
      { max := settings.bindings.maxBindingPoints }).1 with
    | error e => exact ⟨hfailed e, rfl⟩
    | ok slots =>
      obtain ⟨base, hsourced⟩ := plan_spec hp
      refine ⟨.of_idle rfl rfl hlisted (fun planned hm hk => ?_) fun unit he => ?_, rfl⟩
      · rcases hsourced.each planned hm with hfresh | ⟨descriptor, hash, -, -, he, hd⟩
        · rw [hfresh.known] at hk
          cases hk
        · obtain ⟨identity, hbegun⟩ := h.wellFormed.consistent.begun_of_descriptor hd
          rcases h.begun _ _ _ hbegun with ⟨-, -, other, ho, hidentity⟩ | ⟨hstate, -⟩
          · obtain rfl := Option.some.inj ho
            exact ⟨identity, _, hbegun, by rw [he, hidentity]⟩
          · cases hstate
      · cases he

theorem fits_look (h : system.Kept trusts) (limit : Nat) {planned : PlannedType}
    {rest : List PlannedType} (hs : (system.workers i).phase = .looking (planned :: rest)) :
    ((system.workers i).look limit planned rest system.common.registry).Fits (trusts i)
        system.common ∧
      ((system.workers i).look limit planned rest system.common.registry).phase.held? = none := by
  have hfits := h.fits i
  have hknown := hfits.known
  rw [hs] at hknown
  obtain ⟨hfirst, hrest⟩ := List.forall_mem_cons.1 hknown
  have hfailed : ∀ e, ({ system.workers i with phase := .rollingBack e }).Fits (trusts i)
      system.common := by
    refine fun e => .of_idle rfl rfl hfits.listed (fun planned hm => ?_) fun unit he => ?_
    · cases hm
    · cases he
  unfold Worker.look
  cases hi : system.common.registry.identityOfHash? planned.contentHash with
  | none => exact ⟨hfailed _, rfl⟩
  | some identity =>
    dsimp only
    cases (planned.known.getD ⟨identity, planned.layout⟩).layout.toSchema
      ⟨system.common.registry, limit⟩ (system.workers i).schemas with
    | error e => exact ⟨hfailed e, rfl⟩
    | ok made =>
      dsimp only
      split
      · rename_i hk
        refine ⟨.of_idle rfl rfl (fun other ho => ?_) hrest fun unit he => ?_, rfl⟩
        · rcases List.mem_append.1 ho with ho | ho
          · exact hfits.listed other ho
          · obtain ⟨known, descriptor?, hm, hash⟩ := hfirst hk
            have hsame := h.wellFormed.consistent.identityOfHash_of_begun hm
            rw [hash, hi] at hsame
            rw [List.mem_singleton.1 ho, Option.some.inj hsame]
            exact fun _ => ⟨_, _, hm⟩
        · cases he
      · rename_i hk
        have hnone : planned.known = none := by simpa using hk
        refine ⟨⟨fun other ho => ?_, ?_, fun other others he => ?_, hfits.listed,
          fun other ho => ?_, hrest, fun unit he => ?_⟩, rfl⟩
        · cases ho
        · rintro other (ho | ho)
          · rw [← Option.some.inj ho, hnone]
            rfl
          · cases ho
        · cases he
        · cases ho
        · cases he

variable [DecidableEq ι]

/-! ## Steps that leave all claims as they are -/

theorem Kept.quiet (h : system.Kept trusts) (i : ι) {worker : Worker}
    {common : Common (τ × List WriteRequest)} (hw : common.registry.WellFormed)
    (hb : common.registry.begun = system.common.registry.begun)
    (hr : system.common.artifacts.2 ⊆ common.artifacts.2)
    (hh : worker.phase.held? = (system.workers i).phase.held?)
    (hf : worker.Fits (trusts i) common) :
    (system.put i (worker, common)).Kept trusts := by
  have hheld : ∀ j, ((system.put i (worker, common)).workers j).phase.held? =
      (system.workers j).phase.held? := by
    intro j
    by_cases hj : j = i
    · subst hj
      rw [put_workers_self, hh]
    · rw [put_workers_of_ne hj]
  refine ⟨hw, ?_, ?_, fun j => ?_⟩
  · intro identity state descriptor? hm
    rw [put_common, hb] at hm
    simp only [hheld]
    refine (h.begun identity state descriptor? hm).imp_left ?_
    rintro ⟨hs, ha, hd⟩
    exact ⟨hs, ha.mono hr, hd⟩
  · simp only [hheld]
    exact h.alone
  · by_cases hj : j = i
    · subst hj
      rw [put_workers_self]
      exact hf
    · rw [put_workers_of_ne hj]
      have hbefore := h.fits j
      refine hbefore.frame hr (fun emitted he => ?_) (fun identity descriptor? hm => ?_)
        fun emitted he ht => ?_
      · exact hb ▸ hbefore.held emitted he
      · exact hb ▸ hm
      · obtain ⟨state, descriptor?, hm⟩ := hbefore.listed emitted he ht
        exact ⟨state, descriptor?, hb ▸ hm⟩

/-! ## Steps that change one claim -/

/-- A unit changes what has been begun of one type, which nobody else has the claim on. -/
theorem Kept.change (h : system.Kept trusts) (i : ι) (identity : TypeIdentity) {worker : Worker}
    {common : Common (τ × List WriteRequest)} (hw : common.registry.WellFormed)
    (hr : system.common.artifacts.2 ⊆ common.artifacts.2)
    (hb : ∀ entry, entry.1 ≠ identity →
      (entry ∈ common.registry.begun ↔ entry ∈ system.common.registry.begun))
    (hi : ∀ state descriptor?, (identity, state, descriptor?) ∈ common.registry.begun →
      (state = .generated ∧ Accepted common.artifacts.2 identity.generatedName ∧
        ∃ descriptor, descriptor? = some descriptor ∧ descriptor.identity = identity) ∨
      state = .inProgress ∧ ∃ emitted ∈ worker.phase.held?, emitted.identity = identity)
    (hg : ∀ descriptor?, (identity, .generated, descriptor?) ∉ system.common.registry.begun)
    (hbefore : ∀ emitted ∈ (system.workers i).phase.held?, emitted.identity = identity)
    (hafter : ∀ emitted ∈ worker.phase.held?, emitted.identity = identity)
    (ha : ∀ j, j ≠ i → ∀ emitted ∈ (system.workers j).phase.held?, emitted.identity ≠ identity)
    (hl : ∀ j, j ≠ i → trusts j identity → ∀ emitted ∈ (system.workers j).listed,
      emitted.identity = identity → common.registry.IsBegun identity)
    (hf : worker.Fits (trusts i) common) : (system.put i (worker, common)).Kept trusts := by
  refine ⟨hw, fun other state descriptor? hm => ?_, fun j k first hj second hk he => ?_,
    fun j => ?_⟩
  · by_cases he : other = identity
    · subst he
      refine (hi state descriptor? hm).imp_right ?_
      rintro ⟨hs, emitted, hheld, he⟩
      exact ⟨hs, i, emitted, by rwa [put_workers_self], he⟩
    · rcases h.begun other state descriptor? ((hb _ he).1 hm) with
        ⟨hs, haccepted, hd⟩ | ⟨hs, j, emitted, hheld, rfl⟩
      · exact Or.inl ⟨hs, haccepted.mono hr, hd⟩
      · have hj : j ≠ i := by
          rintro rfl
          exact he (hbefore emitted hheld)
        exact Or.inr ⟨hs, j, emitted, by rwa [put_workers_of_ne hj], rfl⟩
  · -- two claims on one type: neither, one or both of them may be those of the unit that moved
    by_cases hji : j = i
    · subst hji
      by_cases hki : k = j
      · exact hki.symm
      · rw [put_workers_self] at hj
        rw [put_workers_of_ne hki] at hk
        exact absurd (he.symm.trans (hafter first hj)) (ha k hki second hk)
    · rw [put_workers_of_ne hji] at hj
      by_cases hki : k = i
      · subst hki
        rw [put_workers_self] at hk
        exact absurd (he.trans (hafter second hk)) (ha j hji first hj)
      · rw [put_workers_of_ne hki] at hk
        exact h.alone j k first hj second hk he
  · by_cases hj : j = i
    · subst hj
      rw [put_workers_self]
      exact hf
    · rw [put_workers_of_ne hj]
      have hold := h.fits j
      refine hold.frame hr (fun emitted he => ?_) (fun other descriptor? hm => ?_)
        fun emitted he ht => ?_
      · exact (hb _ (ha j hj emitted he)).2 (hold.held emitted he)
      · refine (hb _ ?_).2 hm
        rintro rfl
        exact hg descriptor? hm
      · by_cases hsame : emitted.identity = identity
        · rw [hsame] at ht ⊢
          exact hl j hj ht emitted he hsame
        · obtain ⟨state, descriptor?, hm⟩ := hold.listed emitted he ht
          exact ⟨state, descriptor?, (hb _ hsame).2 hm⟩

/-- A unit gets a claim. -/
theorem kept_granted (h : system.Kept trusts) {emitted : EmittedType} {rest : List PlannedType}
    (hs : (system.workers i).phase = .claiming emitted rest)
    (hi : emitted.identity ∈ system.common.registry.identities) {registry : Registry}
    (hg : system.common.registry.beginGeneration emitted.identity.persistentId =
      (true, registry)) :
    (system.put i ({ system.workers i with phase := .writing emitted rest },
      { system.common with registry })).Kept trusts := by
  have hfits := h.fits i
  obtain ⟨hnew, hbegun⟩ :=
    Registry.mem_begun_beginGeneration h.wellFormed.consistent hi (by rw [hg])
  have hw := Registry.wellFormed_beginGeneration h.wellFormed emitted.identity.persistentId
  rw [hg] at hbegun hw
  have hclaimed : (emitted.identity, .inProgress, none) ∈ registry.begun :=
    (hbegun _).2 (Or.inr rfl)
  have hkeeps : ∀ entry ∈ system.common.registry.begun, entry ∈ registry.begun :=
    fun entry hm => (hbegun entry).2 (Or.inl hm)
  -- the type was not begun, so nobody has a claim on it and nobody with trust has listed it
  refine h.change i emitted.identity hw (List.Subset.refl _) (fun entry hne => ?_)
    (fun state descriptor? hm => ?_) (fun descriptor? hm => hnew ⟨_, _, hm⟩) ?_ ?_
    (fun j _ other ho he => ?_) (fun _ _ _ _ _ _ => ⟨_, _, hclaimed⟩) ⟨?_, ?_, ?_, ?_, ?_, ?_, ?_⟩
  · refine (hbegun entry).trans (or_iff_left fun he => hne ?_)
    rw [he]
  · rcases (hbegun _).1 hm with hm | he
    · exact absurd ⟨state, descriptor?, hm⟩ hnew
    · exact Or.inr ⟨congrArg (·.2.1) he, emitted, rfl, rfl⟩
  · intro other ho
    rw [hs] at ho
    cases ho
  · intro other ho
    rw [Option.some.inj ho]
  · exact hnew ⟨_, _, he ▸ (h.fits j).held other ho⟩
  · intro other ho
    rw [← Option.some.inj ho]
    exact hclaimed
  · rintro other (ho | ho)
    · cases ho
    · rw [← Option.some.inj ho]
      exact hfits.owner emitted (Or.inl (by rw [hs]; rfl))
  · intro other others he
    cases he
  · intro other ho ht
    obtain ⟨state, descriptor?, hm⟩ := hfits.listed other ho ht
    exact ⟨state, descriptor?, hkeeps _ hm⟩
  · intro other ho ht listed hl he
    obtain rfl := Option.some.inj ho
    exact hnew (he ▸ hfits.listed listed hl (he ▸ ht))
  · intro planned hm hk
    have hm : planned ∈ (system.workers i).phase.ahead (system.workers i).plan.types := by
      rw [hs]
      exact hm
    obtain ⟨identity, descriptor?, hi, hash⟩ := hfits.known planned hm hk
    exact ⟨identity, descriptor?, hkeeps _ hi, hash⟩
  · intro unit he
    cases he

/-- A unit notes that it has written a type. -/
theorem kept_noted (h : system.Kept trusts) {emitted : EmittedType} {rest : List PlannedType}
    (hs : (system.workers i).phase = .noting emitted rest) :
    (system.put i ((system.workers i).note emitted rest system.common)).Kept trusts := by
  have hfits := h.fits i
  have hc := h.wellFormed.consistent
  have hheld : emitted ∈ (system.workers i).phase.held? := by
    rw [hs]
    rfl
  have hclaimed := hfits.held emitted hheld
  have hbegun := Registry.mem_begun_completeGeneration hc hclaimed emitted.descriptor
  have hw := Registry.wellFormed_completeGeneration h.wellFormed emitted.identity.persistentId
    emitted.descriptor
  have hwritten := (hbegun (emitted.identity, .generated, some emitted.descriptor)).2 (Or.inr rfl)
  have hkeeps : ∀ identity, system.common.registry.IsBegun identity →
      (system.common.registry.completeGeneration emitted.identity.persistentId
        emitted.descriptor).IsBegun identity := by
    rintro identity ⟨state, descriptor?, hm⟩
    by_cases he : identity = emitted.identity
    · subst he
      exact ⟨_, _, hwritten⟩
    · exact ⟨state, descriptor?, (hbegun _).2 (Or.inl ⟨hm, he⟩)⟩
  have hungenerated : ∀ descriptor?,
      (emitted.identity, .generated, descriptor?) ∉ system.common.registry.begun := by
    intro descriptor? hm
    cases Registry.begun_unique hc hm hclaimed
  refine h.change i emitted.identity hw (List.Subset.refl _) (fun entry hne => ?_)
    (fun state descriptor? hm => ?_) hungenerated (fun other ho => ?_) ?_
    (fun j hj other ho he => ?_) (fun _ _ _ _ _ _ => ⟨_, _, hwritten⟩)
    (.of_idle rfl rfl ?_ ?_ fun unit he => ?_)
  · refine (hbegun entry).trans ?_
    constructor
    · rintro (⟨hm, -⟩ | rfl)
      · exact hm
      · exact absurd rfl hne
    · exact fun hm => Or.inl ⟨hm, hne⟩
  · rcases (hbegun _).1 hm with ⟨-, hne⟩ | he
    · exact absurd rfl hne
    · refine Or.inl ⟨congrArg (·.2.1) he, hfits.accepted emitted rest hs, emitted.descriptor,
        congrArg (·.2.2) he, hfits.owner emitted (Or.inr hheld)⟩
  · rw [Option.some.inj (ho.symm.trans hheld)]
  · intro other ho
    cases ho
  · exact hj (h.alone j i other ho emitted hheld he)
  · intro other ho ht
    rcases List.mem_append.1 ho with ho | ho
    · exact hkeeps _ (hfits.listed other ho ht)
    · rw [List.mem_singleton.1 ho]
      exact ⟨_, _, hwritten⟩
  · intro planned hm hk
    have hm : planned ∈ (system.workers i).phase.ahead (system.workers i).plan.types := by
      rw [hs]
      exact hm
    obtain ⟨identity, descriptor?, hi, hash⟩ := hfits.known planned hm hk
    refine ⟨identity, descriptor?, (hbegun _).2 (Or.inl ⟨hi, ?_⟩), hash⟩
    rintro rfl
    exact hungenerated _ hi
  · cases he

/-- A unit gives up a claim that nobody has relied on. -/
theorem kept_givenUp (h : system.Kept trusts) {emitted : EmittedType} {error : StorageError}
    (hs : (system.workers i).phase = .givingUp emitted error)
    (hu : ∀ j, j ≠ i → trusts j emitted.identity → ∀ other ∈ (system.workers j).listed,
      other.identity ≠ emitted.identity) :
    (system.put i ((system.workers i).giveUp emitted error system.common)).Kept trusts := by
  have hfits := h.fits i
  have hc := h.wellFormed.consistent
  have hheld : emitted ∈ (system.workers i).phase.held? := by
    rw [hs]
    rfl
  have hclaimed := hfits.held emitted hheld
  have hbegun := Registry.mem_begun_abandonGeneration hc hclaimed
  have hw := Registry.wellFormed_abandonGeneration h.wellFormed emitted.identity.persistentId
  -- the one step after which a type is no longer begun: what the others have listed is spared by
  -- `hu`, what the unit itself has listed by the field `new`
  refine h.change i emitted.identity hw (List.Subset.refl _)
    (fun entry hne => (hbegun entry).trans (and_iff_left hne))
    (fun state descriptor? hm => absurd rfl ((hbegun _).1 hm).2) (fun descriptor? hm => ?_)
    (fun other ho => ?_) ?_ (fun j hj other ho he => ?_)
    (fun j hj ht other ho he => absurd he (hu j hj ht other ho))
    (.of_idle rfl rfl (fun other ho ht => ?_) (fun planned hm => ?_) fun unit he => ?_)
  · cases Registry.begun_unique hc hm hclaimed
  · rw [Option.some.inj (ho.symm.trans hheld)]
  · intro other ho
    cases ho
  · exact hj (h.alone j i other ho emitted hheld he)
  · obtain ⟨state, descriptor?, hm⟩ := hfits.listed other ho ht
    refine ⟨state, descriptor?, (hbegun _).2 ⟨hm, fun he => ?_⟩⟩
    exact hfits.new emitted hheld (he ▸ ht) other ho he
  · cases hm
  · cases he

/-! ## One step -/

/-- The trust is well placed as far as the unit is concerned that takes the next step. The id under
which it asks for a claim still names the type that it has looked up; and where it would trust
others with the type, the type is still there. A claim that it gives up is on a type that nobody who
trusts others with it has listed. -/
structure Heeds (trusts : ι → TypeIdentity → Prop) (system : Parallel ι (τ × List WriteRequest))
    (i : ι) : Prop where
  named : ∀ emitted ∈ (system.workers i).phase.asked?,
    ∀ identity ∈ system.common.registry.identities,
      identity.persistentId = emitted.identity.persistentId → identity = emitted.identity
  there : ∀ emitted ∈ (system.workers i).phase.asked?, trusts i emitted.identity →
    emitted.identity ∈ system.common.registry.identities
  unlisted : ∀ emitted ∈ (system.workers i).phase.yielded?, ∀ j, j ≠ i →
    trusts j emitted.identity → ∀ other ∈ (system.workers j).listed,
      other.identity ≠ emitted.identity

/-- A new hash that is registered finds an id that is not in use. -/
def FindsId (system : Parallel ι (τ × List WriteRequest)) (i : ι) : Prop :=
  ∀ planned ∈ (system.workers i).phase.registered?,
    system.common.registry.byHash.lookup planned.contentHash = none →
      system.common.registry.HasFreeId planned.contentHash

variable {inner : ArtifactSink τ} {units : ι → SourceUnit}

/-- A unit goes on without a claim, and nothing that has been begun changes. -/
theorem Kept.idle (h : system.Kept trusts) (i : ι) {worker : Worker} {registry : Registry}
    (hw : registry.WellFormed) (hb : registry.begun = system.common.registry.begun)
    (hbefore : (system.workers i).phase.held? = none) (hh : worker.phase.held? = none)
    (ha : worker.phase.asked? = none)
    (hl : ∀ emitted ∈ worker.listed, trusts i emitted.identity →
      system.common.registry.IsBegun emitted.identity)
    (hk : worker.phase.ahead worker.plan.types ⊆
      (system.workers i).phase.ahead (system.workers i).plan.types)
    (hr : ∀ unit, worker.phase = .finished (.ok unit) → unit.types = worker.listed) :
    (system.put i (worker, { system.common with registry })).Kept trusts := by
  refine h.quiet i hw hb (List.Subset.refl _) (hh.trans hbefore.symm)
    (.of_idle hh ha (fun emitted he ht => ?_) (fun planned hm hp => ?_) hr)
  · obtain ⟨state, descriptor?, hm⟩ := hl emitted he ht
    exact ⟨state, descriptor?, hb ▸ hm⟩
  · obtain ⟨identity, descriptor?, hi, hash⟩ := (h.fits i).known planned (hk hm) hp
    exact ⟨identity, descriptor?, hb ▸ hi, hash⟩

/-- The sink takes the source of a type, or refuses it. -/
theorem kept_written (h : system.Kept trusts) {emitted : EmittedType} {rest : List PlannedType}
    (hs : (system.workers i).phase = .writing emitted rest) (runtime : String) :
    (system.put i ((system.workers i).write runtime inner.noting emitted rest
      system.common)).Kept trusts := by
  have hfits := h.fits i
  have hheld : emitted ∈ (system.workers i).phase.held? := by
    rw [hs]
    rfl
  have hsame : ∀ other, other ∈ some emitted → other ∈ (system.workers i).phase.held? :=
    fun other ho => Option.some.inj ho ▸ hheld
  have howner : ∀ other, other ∈ (none : Option EmittedType) ∨ other ∈ some emitted →
      other.descriptor.identity = other.identity := by
    rintro other (ho | ho)
    · cases ho
    · exact hfits.owner other (Or.inr (hsame other ho))
  unfold Worker.write
  rw [ArtifactSink.noting_write]
  cases ha : (inner.write emitted.identity.generatedName (emitted.schema.hostSource runtime)
    system.common.artifacts.1).1 with
  | error e =>
    refine h.quiet i h.wellFormed rfl (List.subset_append_left _ _) (by rw [hs]; rfl)
      ⟨fun other ho => hfits.held other (hsame other ho), howner, fun other others he => ?_,
        hfits.listed, fun other ho => hfits.new other (hsame other ho), fun planned hm => ?_,
        fun unit he => ?_⟩
    · cases he
    · cases hm
    · cases he
  | ok answer =>
    have hknown := hfits.known
    rw [hs] at hknown
    refine h.quiet i h.wellFormed rfl (List.subset_append_left _ _) (by rw [hs]; rfl)
      ⟨fun other ho => hfits.held other (hsame other ho), howner, fun other others he => ?_,
        hfits.listed, fun other ho => hfits.new other (hsame other ho), hknown, fun unit he => ?_⟩
    · obtain ⟨rfl, -⟩ := Phase.noting.inj he
      exact ⟨_, List.mem_append_right _ List.mem_cons_self, rfl, rfl⟩
    · cases he

/-- A unit asks for a claim, and gets it or has to trust others with the type. -/
theorem kept_claimed (h : system.Kept trusts) (hh : system.Heeds trusts i) {emitted : EmittedType}
    {rest : List PlannedType} (hs : (system.workers i).phase = .claiming emitted rest) :
    (system.put i ((system.workers i).claim emitted rest system.common)).Kept trusts := by
  obtain ⟨hnamed, hthere, -⟩ := hh
  have hasked : emitted ∈ (system.workers i).phase.asked? := by
    rw [hs]
    rfl
  have hwf := h.wellFormed
  cases hg : system.common.registry.beginGeneration emitted.identity.persistentId with
  | mk granted registry =>
    cases granted with
    | false =>
      rw [Worker.claim_of_refused hg]
      refine h.idle i hwf rfl (by rw [hs]; rfl) rfl rfl (fun other ho ht => ?_)
        (by rw [hs]; exact .refl _) fun unit he => ?_
      · rcases List.mem_append.1 ho with ho | ho
        · exact (h.fits i).listed other ho ht
        · obtain rfl := List.mem_singleton.1 ho
          exact Registry.begun_of_refused hwf.consistent (hthere other hasked ht) (by rw [hg])
      · cases he
    | true =>
      rw [Worker.claim_of_granted hg]
      obtain ⟨identity, hi, he⟩ := Registry.identity_of_granted hwf.consistent (by rw [hg])
      exact kept_granted h hs (hnamed emitted hasked identity hi he ▸ hi) hg

/-- One step keeps everything that has been begun in good hands. -/
theorem kept_advance (h : system.Kept trusts) (hid : system.FindsId i)
    (hh : system.Heeds trusts i) :
    (system.advance settings inner.noting units i).Kept trusts := by
  have hfits := h.fits i
  have hwf := h.wellFormed
  unfold advance Worker.step
  unfold FindsId at hid
  have hunlisted := hh.unlisted
  cases hs : (system.workers i).phase with
  | planning =>
    obtain ⟨hplan, hheld⟩ := fits_makePlan h i (units i)
    exact h.quiet i hwf rfl (List.Subset.refl _) (by rw [hheld, hs]; rfl) hplan
  | registering rest =>
    rw [hs] at hid
    cases rest with
    | nil =>
      refine h.idle i hwf rfl (by rw [hs]; rfl) rfl rfl hfits.listed (by rw [hs]; exact .refl _)
        fun unit he => ?_
      cases he
    | cons planned rest =>
      have hfree := hid planned rfl
      refine h.idle i (Registry.wellFormed_register hwf planned.declaration hfree)
        (Registry.begun_register hwf planned.declaration hfree) (by rw [hs]; rfl) rfl rfl
        hfits.listed (by rw [hs]; exact .refl _) fun unit he => ?_
      cases he
  | looking rest =>
    cases rest with
    | nil =>
      refine h.idle i hwf rfl (by rw [hs]; rfl) rfl rfl hfits.listed (List.nil_subset _)
        fun unit he => ?_
      rw [← Except.ok.inj (Phase.finished.inj he)]
      rfl
    | cons planned rest =>
      obtain ⟨hlook, hheld⟩ := fits_look h settings.bindings.maxTextureUnits hs
      exact h.quiet i hwf rfl (List.Subset.refl _) (by rw [hheld, hs]; rfl) hlook
  | claiming emitted rest => exact kept_claimed h hh hs
  | writing emitted rest => exact kept_written h hs _
  | noting emitted rest => exact kept_noted h hs
  | givingUp emitted error =>
    rw [hs] at hunlisted
    exact kept_givenUp h hs (hunlisted emitted rfl)
  | rollingBack error =>
    refine h.idle i (Registry.wellFormed_rollBack hwf _) (Registry.begun_rollBack _ _)
      (by rw [hs]; rfl) rfl rfl hfits.listed (List.nil_subset _) fun unit he => ?_
    cases he
  | finished result => exact h.quiet i hwf rfl (List.Subset.refl _) rfl hfits

end Parallel

end UniformLayout
