import UniformLayout.Proofs.Registry.Extension

/-!
# What rollbacks leave behind

Units register declarations and roll back, and at the end all of them have. `Ledger.Stems` accounts
for everything that the registry has beyond its start, alias by alias and record by record, by what
the units hold.

* `Ledger.stems_perform`: the step of the invariant.
* `Ledger.tidy_perform`: a record is left to nobody exactly by a unit that rolls back what it minted
  while another unit has an alias on it.

Main statement: `Ledger.run_eq_start_iff`. The counterexample `Ledger.minted_record_stays` is such a
unit.
-/

namespace UniformLayout.Registry

/-! ## What the units account for -/

/-- The registration has minted the identity, so that its record may go when the unit rolls back. -/
def Holding.Mints (holding : Holding) (identity : TypeIdentity) : Prop :=
  holding.registration.minted = true ∧ holding.registration.identity = identity

/-- No identity has been minted by both. -/
def Distinct (first second : Holding) : Prop :=
  ∀ identity, first.Mints identity → ¬ second.Mints identity

instance : Std.Symm Distinct where
  symm _ _ h identity hb ha := h identity ha hb

namespace Ledger

variable {start : Registry} {ledger : Ledger}

/-- What the registry has beyond the start is what the units hold. -/
structure Stems (start : Registry) (ledger : Ledger) : Prop where
  sound : ledger.Sound
  grown : start.Extends ledger.registry
  /-- What is new has not been begun. -/
  pending : ∀ record ∈ ledger.registry.records,
    record.identity ∈ start.identities ∨ record.state = .pending
  minted : ∀ holding ∈ ledger.held, ∀ identity, holding.Mints identity →
    identity ∉ start.identities ∧ holding.registration.added.isSome
  once : ledger.held.Pairwise Distinct
  added : ∀ holding ∈ ledger.held, ∀ alias_ identity, holding.Adds alias_ identity →
    ¬ start.Declares identity alias_
  aliases : ∀ identity alias_, ledger.registry.Declares identity alias_ →
    start.Declares identity alias_ ∨ ∃ holding ∈ ledger.held, holding.Adds alias_ identity

theorem stems_start (h : start.WellFormed) : Stems start { registry := start } := by
  refine ⟨sound_start h, Extends.refl start, fun record hm => Or.inl (List.mem_map_of_mem hm), ?_,
    List.Pairwise.nil, ?_, fun _ _ => Or.inl⟩
  · intro holding hm
    cases hm
  · intro holding hm
    cases hm

/-- What a unit has added to a record is there, with the record. -/
theorem Sound.declares_of_adds (h : ledger.Sound) {holding : Holding} (hm : holding ∈ ledger.held)
    {alias_ : Alias} {identity : TypeIdentity} (ha : holding.Adds alias_ identity) :
    ledger.registry.Declares identity alias_ := by
  obtain ⟨ha, rfl⟩ := ha
  obtain ⟨rfl, hi⟩ := h.added holding hm alias_ ha
  obtain ⟨index, hp, -⟩ := h.placed holding hm hi
  exact ⟨index, hp.identity_eq, (h.wellFormed.consistent.declared _ _ _).1 hp.listed⟩

/-- What a unit has minted is there. -/
theorem Stems.mem_identities_of_mints (h : Stems start ledger) {holding : Holding}
    (hm : holding ∈ ledger.held) {identity : TypeIdentity} (hi : holding.Mints identity) :
    identity ∈ ledger.registry.identities := by
  obtain ⟨alias_, ha⟩ := Option.isSome_iff_exists.1 (h.minted holding hm identity hi).2
  exact (h.sound.declares_of_adds hm ⟨ha, hi.2⟩).mem_identities

theorem Stems.pending_of_core (h : Stems start ledger) {record : Record}
    (hc : core record ∈ ledger.registry.cores) :
    record.identity ∈ start.identities ∨ record.state = .pending := by
  obtain ⟨old, ho, he⟩ := List.mem_map.1 hc
  unfold core at he
  obtain ⟨hidentity, hrest⟩ := Prod.mk.inj he
  rw [← hidentity, ← (Prod.mk.inj hrest).1]
  exact h.pending old ho

/-- The record of what a unit has minted stands behind those of the start. -/
theorem Stems.length_le (h : Stems start ledger) {holding : Holding} (hm : holding ∈ ledger.held)
    {identity : TypeIdentity} (hi : holding.Mints identity) {index : Nat}
    (hl : ledger.registry.byId.lookup identity.persistentId = some index) :
    start.records.length ≤ index := by
  obtain ⟨i, he⟩ := mem_identities_iff.1 (h.mem_identities_of_mints hm hi)
  have hat := lookup_id_of_identity h.sound.wellFormed.consistent he
  obtain rfl := Option.some.inj (hat.symm.trans hl)
  by_contra hlt
  have hstart := List.getElem?_eq_getElem (Nat.not_le.1 hlt)
  rw [← List.getElem?_map] at he
  have hnow := getElem?_of_front h.grown.identities (List.getElem?_map.trans
    (congrArg (Option.map Record.identity) hstart))
  refine (h.minted holding hm identity hi).1 ?_
  rw [← Option.some.inj (hnow.symm.trans he)]
  exact List.mem_map_of_mem (List.getElem_mem _)

theorem stems_register (h : Stems start ledger) {unit : String} {decl : TypeDeclaration}
    {hash : String} (hp : ledger.Permits (.register unit decl hash)) :
    Stems start (ledger.perform (.register unit decl hash)) := by
  have hwf := h.sound.wellFormed
  refine ⟨sound_register h.sound hp, extends_register h.grown hwf decl hash, ?_, ?_, ?_, ?_, ?_⟩
  · obtain ⟨index, hr⟩ := register_spec hwf decl hp
    intro record hm
    have hcore : core record ∈ (ledger.registry.register decl hash).2.cores :=
      List.mem_map_of_mem hm
    rw [hr.cores] at hcore
    rcases List.mem_append.1 hcore with hold | hnew
    · exact h.pending_of_core hold
    · split at hnew
      · exact Or.inr (congrArg (·.2.1) (List.mem_singleton.1 hnew))
      · cases hnew
  · intro holding hm identity hi
    rcases List.mem_append.1 hm with hm | hm
    · exact h.minted holding hm identity hi
    · obtain rfl := List.mem_singleton.1 hm
      obtain ⟨hminted, rfl⟩ := hi
      obtain ⟨hnew, hadded⟩ := minted_register hwf decl hp hminted
      exact ⟨fun hin => hnew (h.grown.identities.subset hin), hadded⟩
  · refine List.pairwise_append.2 ⟨h.once, List.pairwise_singleton _ _, ?_⟩
    rintro first hfirst second hsecond identity hf ⟨hminted, rfl⟩
    obtain rfl := List.mem_singleton.1 hsecond
    exact (minted_register hwf decl hp hminted).1 (h.mem_identities_of_mints hfirst hf)
  · intro holding hm alias_ identity ha
    rcases List.mem_append.1 hm with hm | hm
    · exact h.added holding hm alias_ identity ha
    · obtain rfl := List.mem_singleton.1 hm
      obtain ⟨ha, rfl⟩ := ha
      intro hs
      obtain ⟨index, he, hc⟩ := h.grown.declares hs
      exact (added_register hwf ha).2 index ⟨he, (hwf.consistent.declared _ _ _).2 hc⟩
  · intro identity alias_ hd
    rcases declares_register hwf hd with hd | ha
    · rcases h.aliases identity alias_ hd with hs | ⟨holding, hm, ha⟩
      · exact Or.inl hs
      · exact Or.inr ⟨holding, List.mem_append_left _ hm, ha⟩
    · exact Or.inr ⟨_, List.mem_append_right _ List.mem_cons_self, ha⟩

/-- The registrations that a unit rolls back add nothing to what the start has. -/
theorem Stems.not_carries (h : Stems start ledger) {unit : String} :
    ∀ pick ∈ (ledger.own unit).map Holding.registration, ∀ alias_ index, pick.added = some alias_ →
      ledger.registry.byId.lookup pick.identity.persistentId = some index →
        ¬ start.Carries index alias_ := by
  intro pick hp alias_ index ha hi hc
  obtain ⟨mine, hmine, rfl⟩ := List.mem_map.1 hp
  have hm := (List.mem_filter.1 hmine).1
  obtain ⟨i, he, -⟩ := h.sound.declares_of_adds hm ⟨ha, rfl⟩
  obtain rfl := Option.some.inj
    (hi.symm.trans (lookup_id_of_identity h.sound.wellFormed.consistent he))
  obtain ⟨record, hr, hcarried⟩ := hc
  refine h.added mine hm alias_ _ ⟨ha, rfl⟩ ⟨index, ?_, record, hr, hcarried⟩
  rw [← List.getElem?_map] at he
  have hat : (start.records.map Record.identity)[index]? = some record.identity := by
    rw [List.getElem?_map, hr]
    rfl
  rw [hr, Option.map_some, ← he]
  exact (getElem?_of_front h.grown.identities hat).symm

theorem stems_rollBack (h : Stems start ledger) (hs : start.Consistent) (unit : String) :
    Stems start (ledger.perform (.rollBack unit)) := by
  have hwf := h.sound.wellFormed
  have hheld : ∀ holding ∈ (ledger.perform (.rollBack unit)).held, ∃ old ∈ ledger.held,
      old.registration = holding.registration := by
    intro holding hm
    obtain ⟨old, ho, -, he, -⟩ := held_rollBack hm
    exact ⟨old, ho, by rw [he]⟩
  refine ⟨sound_rollBack h.sound unit, ?_, ?_, ?_, ?_, ?_, ?_⟩
  · refine extends_rollBack h.grown hs hwf h.not_carries fun pick hp hm index hl => ?_
    obtain ⟨mine, hmine, rfl⟩ := List.mem_map.1 hp
    exact h.length_le (List.mem_filter.1 hmine).1 ⟨hm, rfl⟩ hl
  · intro record hm
    exact h.pending_of_core (core_mem_of_mem_rollBack hm)
  · intro holding hm identity hi
    obtain ⟨old, ho, he⟩ := hheld holding hm
    unfold Holding.Mints at hi
    rw [← he] at hi ⊢
    exact h.minted old ho identity hi
  · exact List.pairwise_map.2 (h.once.sublist List.filter_sublist)
  · intro holding hm alias_ identity ha
    obtain ⟨old, ho, he⟩ := hheld holding hm
    unfold Holding.Adds at ha
    rw [← he] at ha
    exact h.added old ho alias_ identity ha
  · intro identity alias_ hd
    obtain ⟨hd, hown⟩ := declares_rollBack hwf hd
    rcases h.aliases identity alias_ hd with hs | ⟨holding, hm, ha⟩
    · exact Or.inl hs
    · have hother : holding.unit ≠ unit := fun hu =>
        hown _ (List.mem_map_of_mem (List.mem_filter.2 ⟨hm, beq_iff_eq.2 hu⟩)) ha.1 ha.2
      exact Or.inr ⟨_, List.mem_map_of_mem (List.mem_filter.2 ⟨hm, bne_iff_ne.2 hother⟩), ha⟩

theorem stems_perform (h : Stems start ledger) (hs : start.Consistent) {event : UnitEvent}
    (hp : ledger.Permits event) : Stems start (ledger.perform event) := by
  cases event with
  | register unit decl hash => exact stems_register h hp
  | rollBack unit => exact stems_rollBack h hs unit

theorem stems_run (h : Stems start ledger) (hs : start.Consistent) {events : List UnitEvent}
    (hp : ledger.PermitsAll events) : Stems start (ledger.run events) := by
  induction events generalizing ledger with
  | nil => exact h
  | cons event rest ih => exact ih (stems_perform h hs hp.1) hp.2

/-! ## Records that are left to nobody -/

/-- Every record is one of the start, or a unit holds the registration that has minted it. -/
def Tidy (start : Registry) (ledger : Ledger) : Prop :=
  ∀ identity ∈ ledger.registry.identities,
    identity ∈ start.identities ∨ ∃ holding ∈ ledger.held, holding.Mints identity

/-- No other unit has added an alias to a record whose minting is rolled back. -/
def Clears (ledger : Ledger) : UnitEvent → Prop
  | .register _ _ _ => True
  | .rollBack unit => ∀ mine ∈ ledger.own unit, ∀ identity, mine.Mints identity →
      ∀ other ∈ ledger.held, ∀ alias_, other.Adds alias_ identity → other.unit = unit

def ClearsAll (ledger : Ledger) : List UnitEvent → Prop
  | [] => True
  | event :: rest => ledger.Clears event ∧ (ledger.perform event).ClearsAll rest

theorem tidy_register (h : Stems start ledger) {unit : String} {decl : TypeDeclaration}
    {hash : String} (hp : ledger.Permits (.register unit decl hash)) :
    Tidy start (ledger.perform (.register unit decl hash)) ↔ Tidy start ledger := by
  have hwf := h.sound.wellFormed
  have hidentities := identities_register hwf decl hp
  constructor
  · intro ht identity hi
    rcases ht identity (hidentities ▸ List.mem_append_left _ hi) with hs | ⟨holding, hm, hmints⟩
    · exact Or.inl hs
    · rcases List.mem_append.1 hm with hm | hm
      · exact Or.inr ⟨holding, hm, hmints⟩
      · obtain rfl := List.mem_singleton.1 hm
        obtain ⟨hminted, rfl⟩ := hmints
        exact absurd hi (minted_register hwf decl hp hminted).1
  · intro ht identity hi
    have hi : identity ∈ (ledger.registry.register decl hash).2.identities := hi
    rw [hidentities] at hi
    rcases List.mem_append.1 hi with hi | hi
    · exact (ht identity hi).imp_right fun ⟨holding, hm, hmints⟩ =>
        ⟨holding, List.mem_append_left _ hm, hmints⟩
    · split at hi
      · rename_i hminted
        obtain rfl := List.mem_singleton.1 hi
        exact Or.inr ⟨_, List.mem_append_right _ List.mem_cons_self, hminted, rfl⟩
      · cases hi

/-- A rollback removes the record that one of its registrations has minted unless another unit has
added an alias to it. -/
theorem not_mem_identities_rollBack (h : Stems start ledger) {unit : String}
    (hc : ledger.Clears (.rollBack unit)) {mine : Holding} (hm : mine ∈ ledger.own unit)
    {identity : TypeIdentity} (hi : mine.Mints identity) :
    identity ∉ (ledger.perform (.rollBack unit)).registry.identities := by
  intro hin
  obtain ⟨hheld, hunit⟩ := List.mem_filter.1 hm
  have hwf := h.sound.wellFormed
  have hnew := (h.minted mine hheld identity hi).1
  obtain ⟨place, he⟩ := mem_identities_iff.1 hin
  obtain ⟨record, hr, rfl⟩ := Option.map_eq_some_iff.1 he
  obtain ⟨i, hkeep, hi'⟩ := (getElem?_rollBack _ _).1 hr
  have hmid := wellFormed_undoAliases hwf ((ledger.own unit).map Holding.registration).reverse
  -- the record is among the doomed ones: it has not been begun, and all its aliases are gone
  have hpending : record.state = .pending :=
    (h.pending_of_core (core_mem_of_mem_rollBack (List.mem_of_getElem? hr))).resolve_left hnew
  have hdeclared : record.declared = [] := by
    refine List.eq_nil_iff_forall_not_mem.2 fun alias_ ha => ?_
    have hd : Declares _ record.identity alias_ :=
      ⟨i, by rw [hi', Option.map_some], record, hi', ha⟩
    obtain ⟨hd, hown⟩ := declares_undoAliases hwf hd
    rcases h.aliases _ alias_ hd with hs | ⟨other, ho, hadds⟩
    · exact hnew hs.mem_identities
    · have hmine := hc mine hm _ hi other ho alias_ hadds
      refine hown _ (List.mem_reverse.2 (List.mem_map_of_mem ?_)) hadds.1 hadds.2
      exact List.mem_filter.2 ⟨ho, beq_iff_eq.2 hmine⟩
  have hlookup := lookup_id_of_identity hmid.consistent (by rw [hi', Option.map_some])
  refine (keepIndex?_eq_some_iff.1 hkeep).1
    (List.mem_filterMap.2 ⟨_, List.mem_map_of_mem hm, ?_⟩)
  exact doomedBy?_eq_some hi.1 (by rw [hi.2, hlookup]) hi' hpending hdeclared

theorem tidy_rollBack (h : Stems start ledger) (unit : String)
    (hafter : Stems start (ledger.perform (.rollBack unit))) :
    Tidy start (ledger.perform (.rollBack unit)) ↔
      Tidy start ledger ∧ ledger.Clears (.rollBack unit) := by
  have hkept : ∀ holding ∈ (ledger.perform (.rollBack unit)).held, ∀ identity,
      holding.Mints identity → ∃ old ∈ ledger.held, old.unit ≠ unit ∧ old.Mints identity := by
    intro holding hm identity hi
    obtain ⟨old, ho, hne, he, -⟩ := held_rollBack hm
    rw [he] at hi
    exact ⟨old, ho, hne, hi⟩
  constructor
  · intro ht
    refine ⟨fun identity hi => ?_, fun mine hm identity hi other ho alias_ ha => ?_⟩
    · by_cases hin : identity ∈ (ledger.perform (.rollBack unit)).registry.identities
      · refine (ht identity hin).imp_right fun ⟨holding, hm, hmints⟩ => ?_
        obtain ⟨old, ho, -, hmints⟩ := hkept holding hm identity hmints
        exact ⟨old, ho, hmints⟩
      · -- a record that has been removed was minted by one of the registrations
        obtain ⟨index, he⟩ := mem_identities_iff.1 hi
        obtain ⟨pick, hp, hm, hl⟩ := minted_of_removed he hin
        obtain ⟨mine, hmine, rfl⟩ := List.mem_map.1 hp
        have hheld := (List.mem_filter.1 hmine).1
        obtain ⟨i, he'⟩ := mem_identities_iff.1 (h.mem_identities_of_mints hheld ⟨hm, rfl⟩)
        obtain rfl := Option.some.inj
          ((lookup_id_of_identity h.sound.wellFormed.consistent he').symm.trans hl)
        exact Or.inr ⟨mine, hheld, hm, Option.some.inj (he'.symm.trans he)⟩
    · by_contra hne
      obtain ⟨hheld, hunit⟩ := List.mem_filter.1 hm
      have hin := (hafter.sound.declares_of_adds
        (List.mem_map_of_mem (List.mem_filter.2 ⟨ho, bne_iff_ne.2 hne⟩)) ha).mem_identities
      rcases ht identity hin with hs | ⟨holding, hmints, hkeeps⟩
      · exact (h.minted mine hheld identity hi).1 hs
      · obtain ⟨old, hold, hother, hmints⟩ := hkept holding hmints identity hkeeps
        refine h.once.forall hheld hold (fun he => hother ?_) identity hi hmints
        rw [← he]
        exact eq_of_beq hunit
  · rintro ⟨ht, hc⟩ identity hi
    obtain ⟨record, hr, rfl⟩ := List.mem_map.1 hi
    obtain ⟨old, ho, he⟩ := List.mem_map.1 (core_mem_of_mem_rollBack hr)
    have hold : record.identity ∈ ledger.registry.identities :=
      List.mem_map.2 ⟨old, ho, congrArg Prod.fst he⟩
    refine (ht _ hold).imp_right fun ⟨holding, hm, hmints⟩ => ?_
    have hother : holding.unit ≠ unit := fun hu =>
      not_mem_identities_rollBack h hc (List.mem_filter.2 ⟨hm, beq_iff_eq.2 hu⟩) hmints hi
    exact ⟨_, List.mem_map_of_mem (List.mem_filter.2 ⟨hm, bne_iff_ne.2 hother⟩), hmints⟩

theorem tidy_perform (h : Stems start ledger) (hs : start.Consistent) {event : UnitEvent}
    (hp : ledger.Permits event) :
    Tidy start (ledger.perform event) ↔ Tidy start ledger ∧ ledger.Clears event := by
  cases event with
  | register unit decl hash => exact (tidy_register h hp).trans (and_iff_left trivial).symm
  | rollBack unit => exact tidy_rollBack h unit (stems_rollBack h hs unit)

theorem tidy_run (h : Stems start ledger) (hs : start.Consistent) {events : List UnitEvent}
    (hp : ledger.PermitsAll events) :
    Tidy start (ledger.run events) ↔ Tidy start ledger ∧ ledger.ClearsAll events := by
  induction events generalizing ledger with
  | nil => exact (and_iff_left trivial).symm
  | cons event rest ih =>
    exact (ih (stems_perform h hs hp.1) hp.2).trans
      ((and_congr_left' (tidy_perform h hs hp.1)).trans and_assoc)

/-- Several units register declarations, and in the end all of them have rolled back. The registry
has the records it had at the start, as they were, and the same declarations of every name. Records
that have not been begun and that nothing declares may stand behind them. There are none, and the
registry is what it was, if and only if no unit has rolled back the minting of a record while
another unit had an alias on it. -/
theorem run_eq_start_iff (h : start.WellFormed) {events : List UnitEvent}
    (hp : ({ registry := start } : Ledger).PermitsAll events)
    (hend : (({ registry := start } : Ledger).run events).held = []) :
    let last := (({ registry := start } : Ledger).run events).registry
    (∃ orphans, last.records = start.records ++ orphans ∧
        ∀ record ∈ orphans, record.state = .pending ∧ record.declared = []) ∧
      last.byDeclaredName = start.byDeclaredName ∧
      (last = start ↔ ({ registry := start } : Ledger).ClearsAll events) := by
  have hstems := stems_run (stems_start h) h.consistent hp
  have htidy := tidy_run (stems_start h) h.consistent hp
  generalize ({ registry := start } : Ledger).run events = final at hend hstems htidy ⊢
  have hn := hstems.sound.wellFormed
  have haliases : ∀ index, final.registry.aliasesAt index = start.aliasesAt index := by
    refine hstems.grown.aliasesAt_eq hn.consistent fun identity alias_ hd => ?_
    refine (hstems.aliases identity alias_ hd).resolve_right ?_
    rintro ⟨holding, hm, -⟩
    rw [hend] at hm
    cases hm
  have hnames := hstems.grown.byDeclaredName_eq h hn haliases
  obtain ⟨orphans, horphans⟩ := hstems.grown.records_prefix haliases
  have hfresh : ∀ record ∈ orphans, record.identity ∉ start.identities := by
    have hnodup := identities_nodup hn.consistent
    rw [identities, ← horphans, List.map_append] at hnodup
    intro record hm hin
    exact (List.nodup_append.1 hnodup).2.2 _ hin _ (List.mem_map_of_mem hm) rfl
  refine ⟨⟨orphans, horphans.symm, fun record hm => ⟨?_, ?_⟩⟩, hnames, ?_⟩
  · exact (hstems.pending record (horphans ▸ List.mem_append_right _ hm)).resolve_left
      (hfresh record hm)
  · obtain ⟨j, hj⟩ := List.mem_iff_getElem?.1 hm
    have hr : final.registry.records[start.records.length + j]? = some record := by
      rw [← horphans, List.getElem?_append_right (Nat.le_add_right _ _), Nat.add_sub_cancel_left,
        hj]
    have hat := haliases (start.records.length + j)
    rw [aliasesAt_of_length_le (Nat.le_add_right _ _)] at hat
    unfold aliasesAt at hat
    rwa [hr] at hat
  · have hstart : Tidy start { registry := start } := fun _ => Or.inl
    refine Iff.trans ?_ (htidy.trans (and_iff_right hstart))
    constructor
    · intro he identity hi
      rw [he] at hi
      exact Or.inl hi
    · intro ht
      have hnil : orphans = [] := List.eq_nil_iff_forall_not_mem.2 fun record hm => by
        have hin : record.identity ∈ final.registry.identities :=
          List.mem_map_of_mem (horphans ▸ List.mem_append_right _ hm)
        obtain ⟨holding, hheld, -⟩ := (ht _ hin).resolve_left (hfresh record hm)
        rw [hend] at hheld
        cases hheld
      rw [hnil, List.append_nil] at horphans
      exact eq_of_records_eq h hn hstems.grown.suffixLength horphans.symm hnames

/-- Two units declare a type, each in a source of its own, and one of them also a type that is
there already. The unit that came second rolls back first. -/
def secondBacksOut : List UnitEvent :=
  [.register "bloom.frag" (emptyStruct "Fog" "bloom.frag") "beef",
    .register "flare.frag" (emptyStruct "Fog" "flare.frag") "beef",
    .register "bloom.frag" (emptyStruct "Lamp" "bloom.frag") "cafe", .rollBack "flare.frag",
    .rollBack "bloom.frag"]

/-- The registry is what it was. -/
theorem run_eq_start_secondBacksOut :
    ({ registry := firstRegistration.2 } : Ledger).PermitsAll secondBacksOut ∧
      (({ registry := firstRegistration.2 } : Ledger).run secondBacksOut).held = [] ∧
      (({ registry := firstRegistration.2 } : Ledger).run secondBacksOut).registry =
        firstRegistration.2 := by
  have hp : ({ registry := firstRegistration.2 } : Ledger).PermitsAll secondBacksOut := by
    refine ⟨fun _ => ⟨0, by decide, by decide +kernel⟩, fun hn => ?_, fun hn => ?_, trivial,
      trivial, trivial⟩
    · exact absurd hn (by decide +kernel)
    · exact absurd hn (by decide +kernel)
  have hend : (({ registry := firstRegistration.2 } : Ledger).run secondBacksOut).held = [] := rfl
  have hflare : ∀ mine ∈ (({ registry := firstRegistration.2 } : Ledger).run
      (secondBacksOut.take 3)).own "flare.frag", mine.registration.minted = false := by
    decide +kernel
  have hbloom : ∀ other ∈ (({ registry := firstRegistration.2 } : Ledger).run
      (secondBacksOut.take 4)).held, other.unit = "bloom.frag" := by
    decide +kernel
  have hc : ({ registry := firstRegistration.2 } : Ledger).ClearsAll secondBacksOut := by
    refine ⟨trivial, trivial, trivial, fun mine hm identity hi => ?_,
      fun _ _ _ _ other ho _ _ => ?_, trivial⟩
    · exact absurd hi.1 (by rw [hflare mine hm]; decide)
    · exact hbloom other ho
  have hwf : firstRegistration.2.WellFormed :=
    wellFormed_register (wellFormed_empty 4) _ fun _ => ⟨0, by decide, rfl⟩
  exact ⟨hp, hend, (run_eq_start_iff hwf hp hend).2.2.2 hc⟩

/-- The same with the unit that came first, and has minted the type, rolling back first. -/
def firstBacksOut : List UnitEvent :=
  [.register "bloom.frag" (emptyStruct "Fog" "bloom.frag") "beef",
    .register "flare.frag" (emptyStruct "Fog" "flare.frag") "beef", .rollBack "bloom.frag",
    .rollBack "flare.frag"]

/-- All units have rolled back, and the record is there with its generated name. -/
theorem minted_record_stays :
    ({ registry := {} } : Ledger).PermitsAll firstBacksOut ∧
      (({ registry := {} } : Ledger).run firstBacksOut).held = [] ∧
      (({ registry := {} } : Ledger).run firstBacksOut).registry ≠ {} ∧
      (({ registry := {} } : Ledger).run firstBacksOut).registry.isFreeName "Fog" = false := by
  have hname : (({ registry := {} } : Ledger).run firstBacksOut).registry.isFreeName "Fog" =
      false := by
    decide +kernel
  refine ⟨⟨fun _ => ⟨0, by decide, rfl⟩, fun hn => ?_, trivial, trivial, trivial⟩, rfl,
    fun he => ?_, hname⟩
  · exact absurd hn (by decide +kernel)
  · rw [he] at hname
    cases hname

end Ledger

end UniformLayout.Registry
