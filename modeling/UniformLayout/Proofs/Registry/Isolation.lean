import UniformLayout.Proofs.Registry.Reachable
import UniformLayout.Proofs.Registry.Undo
import Mathlib.Data.List.Pairwise

/-!
# Rollbacks of other units

Several units register declarations, and some of them roll back what they registered. A `Ledger` is
the registry with what the units hold of it. `placed_register` and `placed_rollBack` say what one
event leaves in place for everybody else, and `Ledger.sound_perform` is the step of the invariant.

* `Ledger.found_of_intact`: what a unit holds is found by hash, by id and by its alias, whatever the
  others roll back, unless one of them takes back this very alias.
* `shared_alias_lost`: a unit whose alias was already there has no claim on it, and loses the type
  with the rollback of the unit that added it.
-/

namespace UniformLayout.Registry

variable {registry : Registry} {index : Nat} {alias_ : Alias} {identity : TypeIdentity}

/-- The record at a position has the identity, and is listed under the alias. -/
structure Placed (registry : Registry) (index : Nat) (alias_ : Alias) (identity : TypeIdentity) :
    Prop where
  identity_eq : (registry.records[index]?).map Record.identity = some identity
  listed : (alias_.source, index) ∈ registry.declarationsOf alias_.name

/-- Of the records that are listed under the alias, the one at the position comes first. -/
def Heads (registry : Registry) (index : Nat) (alias_ : Alias) : Prop :=
  (registry.declarationsOf alias_.name).find? (·.1 == alias_.source) = some (alias_.source, index)

/-! ## What is found -/

theorem Placed.lookup_id (h : registry.Consistent) (hp : Placed registry index alias_ identity) :
    registry.byId.lookup identity.persistentId = some index := by
  obtain ⟨record, hr, rfl⟩ := Option.map_eq_some_iff.1 hp.identity_eq
  rw [h.byId, ids, List.getElem?_map, hr]
  rfl

theorem Placed.identityOfHash? (h : registry.Consistent)
    (hp : Placed registry index alias_ identity) :
    registry.identityOfHash? identity.contentHash = some identity := by
  obtain ⟨record, hr, rfl⟩ := Option.map_eq_some_iff.1 hp.identity_eq
  have hl : registry.byHash.lookup record.identity.contentHash = some index := by
    rw [h.byHash, hashes, List.getElem?_map, hr]
    rfl
  simp [Registry.identityOfHash?, ofHash?, recordAt?, hl, hr]

theorem Placed.ofId? (h : registry.Consistent) (hp : Placed registry index alias_ identity) :
    (registry.ofId? identity.persistentId).map Record.identity = some identity := by
  unfold Registry.ofId? recordAt?
  rw [hp.lookup_id h]
  exact hp.identity_eq

theorem Placed.resolves (hp : Placed registry index alias_ identity)
    (hh : Heads registry index alias_) :
    registry.resolveDeclaredIn? alias_.name alias_.source = some identity := by
  unfold Heads at hh
  simp only [resolveDeclaredIn?, hh]
  exact hp.identity_eq

/-- What a name in a source leads to is the record that is listed first. -/
theorem heads_of_resolves (h : registry.Consistent) (hp : Placed registry index alias_ identity)
    (hr : registry.resolveDeclaredIn? alias_.name alias_.source = some identity) :
    Heads registry index alias_ := by
  cases hf : (registry.declarationsOf alias_.name).find? (·.1 == alias_.source) with
  | none =>
    have := List.find?_eq_none.1 hf _ hp.listed
    simp at this
  | some entry =>
    obtain ⟨source, i⟩ := entry
    obtain rfl : source = alias_.source := by simpa using List.find?_some hf
    have hat : Placed registry i alias_ identity := by
      refine ⟨?_, List.mem_of_find?_eq_some hf⟩
      simp only [resolveDeclaredIn?, hf] at hr
      exact hr
    have hi : i = index := Option.some.inj ((hat.lookup_id h).symm.trans (hp.lookup_id h))
    rw [Heads, hf, hi]

/-! ## Registering -/

theorem declarationsOf_addAlias (registry : Registry) (i : Nat) (added : Alias) (name : String) :
    ∃ more, (registry.addAlias i added).declarationsOf name =
      registry.declarationsOf name ++ more := by
  cases hn : registry.hasAlias i added with
  | true =>
    refine ⟨[], ?_⟩
    rw [addAlias, if_pos hn, List.append_nil]
  | false =>
    rw [addAlias_of_new hn, declarationsOf_eq, listed_insert]
    split
    · rename_i he
      exact ⟨[(added.source, i)], by rw [he]⟩
    · exact ⟨[], (List.append_nil _).symm⟩

theorem identities_of_cores {before after : Registry} (h : after.cores = before.cores) (i : Nat) :
    (after.records[i]?).map Record.identity = (before.records[i]?).map Record.identity := by
  have hi := congrArg (fun list => (list[i]?).map Prod.fst) h
  simpa [cores, core, Function.comp_def] using hi

/-- A further alias, of any record, stands behind those that are there. -/
theorem placed_addAlias (hp : Placed registry index alias_ identity) (i : Nat) (added : Alias) :
    Placed (registry.addAlias i added) index alias_ identity ∧
      (Heads registry index alias_ → Heads (registry.addAlias i added) index alias_) := by
  obtain ⟨more, hm⟩ := declarationsOf_addAlias registry i added alias_.name
  refine ⟨⟨?_, ?_⟩, fun hh => ?_⟩
  · rw [identities_of_cores (cores_addAlias registry i added)]
    exact hp.identity_eq
  · rw [hm]
    exact List.mem_append_left _ hp.listed
  · rw [Heads, hm, List.find?_append, hh]
    rfl

theorem placed_addRecord (hp : Placed registry index alias_ identity) (other : TypeIdentity) :
    Placed (registry.addRecord other) index alias_ identity := by
  refine ⟨?_, hp.listed⟩
  obtain ⟨record, hr, he⟩ := Option.map_eq_some_iff.1 hp.identity_eq
  have hlt := (List.getElem?_eq_some_iff.1 hr).1
  have hkept : (registry.addRecord other).records[index]? = some record :=
    (List.getElem?_append_left hlt).trans hr
  rw [hkept, Option.map_some, he]

/-- A registration leaves what is known in place. -/
theorem placed_register (h : registry.WellFormed) (hp : Placed registry index alias_ identity)
    (decl : TypeDeclaration) (hash : String) :
    Placed (registry.register decl hash).2 index alias_ identity ∧
      (Heads registry index alias_ → Heads (registry.register decl hash).2 index alias_) := by
  cases hl : registry.byHash.lookup hash with
  | none =>
    rw [register_of_unknown hl]
    exact placed_addAlias (placed_addRecord hp _) _ _
  | some i =>
    obtain ⟨record, hr, -⟩ := h.consistent.getElem?_of_lookup_hash hl
    rw [register_of_lookup hl hr]
    exact placed_addAlias hp _ _

theorem listed_addAlias (i : Nat) (added : Alias) :
    (added.source, i) ∈ (registry.addAlias i added).declarationsOf added.name := by
  cases hn : registry.hasAlias i added with
  | true =>
    rw [addAlias, if_pos hn]
    exact (hasAlias_iff _ _ _).1 hn
  | false =>
    rw [addAlias_of_new hn, declarationsOf_eq, listed_insert, if_pos rfl]
    exact List.mem_append_right _ List.mem_cons_self

/-- The declaration that is registered is in place, under the hash that was asked for. -/
theorem placed_registered (h : registry.WellFormed) (decl : TypeDeclaration) (hash : String) :
    (registry.register decl hash).1.identity.contentHash = hash ∧
      ∃ index, Placed (registry.register decl hash).2 index (aliasOf decl)
        (registry.register decl hash).1.identity := by
  cases hl : registry.byHash.lookup hash with
  | none =>
    rw [register_of_unknown hl]
    refine ⟨rfl, registry.records.length, ?_, listed_addAlias _ _⟩
    rw [identities_of_cores (cores_addAlias _ _ _)]
    simp [addRecord]
  | some i =>
    obtain ⟨record, hr, hh⟩ := h.consistent.getElem?_of_lookup_hash hl
    rw [register_of_lookup hl hr]
    refine ⟨hh, i, ?_, listed_addAlias _ _⟩
    rw [identities_of_cores (cores_addAlias _ _ _), hr]
    rfl

/-- A registration adds an alias that nothing with its identity was listed under. -/
theorem added_register (h : registry.WellFormed) {decl : TypeDeclaration} {hash : String}
    {added : Alias} (ha : (registry.register decl hash).1.added = some added) :
    added = aliasOf decl ∧
      ∀ index, ¬ Placed registry index added (registry.register decl hash).1.identity := by
  cases hl : registry.byHash.lookup hash with
  | none =>
    rw [register_of_unknown hl] at ha ⊢
    obtain rfl := Option.some.inj ha
    refine ⟨rfl, fun index hp => ?_⟩
    obtain ⟨record, hr, he⟩ := Option.map_eq_some_iff.1 hp.identity_eq
    refine h.consistent.byHash.lookup_eq_none_iff.1 hl (List.mem_map.2 ⟨record, ?_, ?_⟩)
    · exact List.mem_of_getElem? hr
    · rw [he]
      rfl
  | some i =>
    obtain ⟨record, hr, -⟩ := h.consistent.getElem?_of_lookup_hash hl
    rw [register_of_lookup hl hr] at ha ⊢
    dsimp only at ha ⊢
    split at ha
    · cases ha
    · rename_i hnew
      obtain rfl := Option.some.inj ha
      refine ⟨rfl, fun index hp => hnew ?_⟩
      have hat : registry.byId.lookup record.identity.persistentId = some i := by
        rw [h.consistent.byId, ids, List.getElem?_map, hr]
        rfl
      obtain rfl : index = i := Option.some.inj ((hp.lookup_id h.consistent).symm.trans hat)
      exact (hasAlias_iff _ _ _).2 hp.listed

/-! ## Rolling back -/

/-- The first entry with a property is the first one of those that a filter keeps. -/
theorem find?_filterMap_of_kept {α β : Type} {p : α → Bool} {q : β → Bool} {keep : α → Option β}
    {list : List α} {a : α} {b : β} (h : list.find? p = some a) (hk : keep a = some b)
    (hb : q b = true) (hq : ∀ x y, keep x = some y → q y = true → p x = true) :
    (list.filterMap keep).find? q = some b := by
  obtain ⟨-, front, rest, rfl, hfront⟩ := List.find?_eq_some_iff_append.1 h
  have hnone : (front.filterMap keep).find? q = none := by
    refine List.find?_eq_none.2 fun y hy hqy => ?_
    obtain ⟨x, hx, hxy⟩ := List.mem_filterMap.1 hy
    have := hfront x hx
    rw [hq x y hxy hqy] at this
    cases this
  rw [List.filterMap_append, List.find?_append, hnone, List.filterMap_cons, hk, Option.none_or,
    List.find?_cons_of_pos hb]

/-- Taking an alias back leaves every other alias of every record in place. -/
theorem placed_undoAlias (h : registry.WellFormed) (hp : Placed registry index alias_ identity)
    {registration : Registration} (hr : registration.added = some alias_ →
      registration.identity.persistentId ≠ identity.persistentId) :
    Placed (registry.undoAlias registration) index alias_ identity ∧
      (Heads registry index alias_ → Heads (registry.undoAlias registration) index alias_) := by
  have hcore := identities_of_cores (cores_undoAlias registry registration) index
  unfold undoAlias at hcore ⊢
  split
  · rename_i added i ha hi
    rw [ha, hi] at hcore
    have hother : added.name = alias_.name →
        ((alias_.source, index) != (added.source, i)) = true := by
      intro hname
      refine bne_iff_ne.2 fun he => ?_
      obtain ⟨hsource, rfl⟩ := Prod.mk.inj he
      have hid := (h.consistent.byId _ _).1 hi
      rw [(h.consistent.byId _ _).1 (hp.lookup_id h.consistent)] at hid
      have hsame : added = alias_ := by
        cases added
        cases alias_
        exact congr (congrArg Alias.mk hname) hsource.symm
      exact hr (ha.trans (congrArg some hsame)) (Option.some.inj hid).symm
    have hentries := declarationsOf_removeAlias h.ordered i added alias_.name
    refine ⟨⟨hcore.trans hp.identity_eq, ?_⟩, fun hh => ?_⟩
    · rw [hentries]
      split
      · rename_i he
        exact List.mem_filter.2 ⟨hp.listed, hother he.symm⟩
      · exact hp.listed
    · unfold Heads at hh ⊢
      rw [hentries]
      split
      · rename_i he
        rw [← List.filterMap_eq_filter]
        exact find?_filterMap_of_kept hh (Option.guard_eq_some_iff.2 ⟨rfl, hother he.symm⟩)
          (beq_self_eq_true _) fun entry kept hk hq => (Option.guard_eq_some_iff.1 hk).1 ▸ hq
      · exact hh
  · exact ⟨hp, id⟩

theorem placed_undoAliases (h : registry.WellFormed) (hp : Placed registry index alias_ identity)
    {picks : List Registration} (hr : ∀ pick ∈ picks, pick.added = some alias_ →
      pick.identity.persistentId ≠ identity.persistentId) :
    Placed (picks.foldl undoAlias registry) index alias_ identity ∧
      (Heads registry index alias_ → Heads (picks.foldl undoAlias registry) index alias_) := by
  induction picks generalizing registry with
  | nil => exact ⟨hp, id⟩
  | cons pick rest ih =>
    obtain ⟨hone, hhead⟩ := placed_undoAlias h hp (hr pick List.mem_cons_self)
    obtain ⟨hall, hheads⟩ := ih (wellFormed_undoAlias h pick) hone
      fun other hm => hr other (List.mem_cons_of_mem _ hm)
    exact ⟨hall, hheads ∘ hhead⟩

/-- A rollback moves what it leaves in place to where the removed records let it. -/
theorem placed_removeRecords (h : registry.WellFormed)
    (hp : Placed registry index alias_ identity) {doomed : List Nat} (hd : index ∉ doomed) :
    ∃ place, Placed (registry.removeRecords doomed) place alias_ identity ∧
      (Heads registry index alias_ → Heads (registry.removeRecords doomed) place alias_) := by
  have hkeep : keepIndex? doomed index = some (keptBefore doomed index) :=
    keepIndex?_eq_some_iff.2 ⟨hd, rfl⟩
  refine ⟨keptBefore doomed index, ⟨?_, ?_⟩, fun hh => ?_⟩
  · obtain ⟨record, hr, he⟩ := Option.map_eq_some_iff.1 hp.identity_eq
    rw [records_removeRecords, getElem?_survivors.2 ⟨index, hkeep, hr⟩, Option.map_some, he]
  · rw [declarationsOf_removeRecords h.ordered]
    exact mem_follow.2 ⟨index, hkeep, hp.listed⟩
  · unfold Heads at hh ⊢
    rw [declarationsOf_removeRecords h.ordered]
    refine find?_filterMap_of_kept hh ?_ (beq_self_eq_true _) ?_
    · rw [hkeep]
      rfl
    · rintro entry kept hk hq
      obtain ⟨place, -, rfl⟩ := Option.map_eq_some_iff.1 hk
      exact hq

/-- A rollback leaves every alias of every record in place that it does not take back. -/
theorem placed_rollBack (h : registry.WellFormed) (hp : Placed registry index alias_ identity)
    {picks : List Registration} (hr : ∀ pick ∈ picks, pick.added = some alias_ →
      pick.identity.persistentId ≠ identity.persistentId) :
    ∃ place, Placed (registry.rollBack picks) place alias_ identity ∧
      (Heads registry index alias_ → Heads (registry.rollBack picks) place alias_) := by
  have hwf := wellFormed_undoAliases h picks.reverse
  obtain ⟨hu, hhead⟩ := placed_undoAliases h hp fun pick hm => hr pick (List.mem_reverse.1 hm)
  unfold rollBack
  dsimp only
  split
  · exact ⟨index, hu, hhead⟩
  · obtain ⟨place, hplaced, hheads⟩ := placed_removeRecords hwf hu fun hm => by
      -- a doomed record has no alias left
      obtain ⟨pick, -, hd⟩ := List.mem_filterMap.1 hm
      obtain ⟨record, hrecord, -, hnone, -⟩ := pending_of_doomedBy? hd
      obtain ⟨other, ho, hcarried⟩ := (hwf.consistent.declared _ _ _).1 hu.listed
      obtain rfl := Option.some.inj (hrecord.symm.trans ho)
      rw [hnone] at hcarried
      cases hcarried
    exact ⟨place, hplaced, hheads ∘ hhead⟩

/-! ## Units and what they hold -/

/-- What a unit holds after a registration. -/
structure Holding where
  unit : String
  decl : TypeDeclaration
  hash : String
  registration : Registration
  /-- The name and the source of the declaration led to the identity when it was returned. -/
  resolves : Bool
  /-- No other unit has taken the alias back since. -/
  intact : Bool := true

/-- The registration added the alias, so that it goes when the unit rolls back. -/
def Holding.Adds (holding : Holding) (alias_ : Alias) (identity : TypeIdentity) : Prop :=
  holding.registration.added = some alias_ ∧ holding.registration.identity = identity

instance (holding : Holding) (alias_ : Alias) (identity : TypeIdentity) :
    Decidable (holding.Adds alias_ identity) :=
  inferInstanceAs (Decidable (_ ∧ _))

/-- A registry and what the units hold of it. -/
structure Ledger where
  registry : Registry
  held : List Holding := []

/-- What a unit does. -/
inductive UnitEvent where
  | register (unit : String) (decl : TypeDeclaration) (hash : String)
  | rollBack (unit : String)

namespace Ledger

variable {ledger : Ledger}

/-- What a unit holds, in the order in which it registered it. -/
def own (ledger : Ledger) (unit : String) : List Holding :=
  ledger.held.filter (·.unit == unit)

/-- What a unit holds of a declaration that it registers now. -/
def receipt (ledger : Ledger) (unit : String) (decl : TypeDeclaration) (hash : String) :
    Holding where
  unit
  decl
  hash
  registration := (ledger.registry.register decl hash).1
  resolves := (ledger.registry.register decl hash).2.resolveDeclaredIn? decl.name
    decl.source.file == some (ledger.registry.register decl hash).1.identity

/-- The ledger after an event. A unit rolls back exactly its own registrations. -/
def perform (ledger : Ledger) : UnitEvent → Ledger
  | .register unit decl hash =>
    { registry := (ledger.registry.register decl hash).2
      held := ledger.held ++ [ledger.receipt unit decl hash] }
  | .rollBack unit =>
    { registry := ledger.registry.rollBack ((ledger.own unit).map Holding.registration)
      held := (ledger.held.filter (·.unit != unit)).map fun holding =>
        { holding with
          intact := holding.intact && !(ledger.own unit).any
            (·.Adds (aliasOf holding.decl) holding.registration.identity) } }

/-- A hash that is new finds an id that is not in use. -/
def Permits (ledger : Ledger) : UnitEvent → Prop
  | .register _ _ hash =>
    ledger.registry.byHash.lookup hash = none → ledger.registry.HasFreeId hash
  | .rollBack _ => True

def run (ledger : Ledger) (events : List UnitEvent) : Ledger :=
  events.foldl perform ledger

/-- Every event is possible when its turn comes. -/
def PermitsAll (ledger : Ledger) : List UnitEvent → Prop
  | [] => True
  | event :: rest => ledger.Permits event ∧ (ledger.perform event).PermitsAll rest

/-- No alias of an identity has been added by both. -/
def Apart (first second : Holding) : Prop :=
  ∀ alias_ identity, first.Adds alias_ identity → ¬ second.Adds alias_ identity

instance : Std.Symm Apart where
  symm _ _ h alias_ identity hb ha := h alias_ identity ha hb

/-- What is held and intact is in place, and every alias of an identity has been added by one unit
only, which has it still. -/
structure Sound (ledger : Ledger) : Prop where
  wellFormed : ledger.registry.WellFormed
  hash : ∀ holding ∈ ledger.held, holding.registration.identity.contentHash = holding.hash
  added : ∀ holding ∈ ledger.held, ∀ alias_, holding.registration.added = some alias_ →
    alias_ = aliasOf holding.decl ∧ holding.intact = true
  placed : ∀ holding ∈ ledger.held, holding.intact = true →
    ∃ index, Placed ledger.registry index (aliasOf holding.decl) holding.registration.identity ∧
      (holding.resolves = true → Heads ledger.registry index (aliasOf holding.decl))
  apart : ledger.held.Pairwise Apart

theorem sound_register (h : ledger.Sound) {unit : String} {decl : TypeDeclaration} {hash : String}
    (hp : ledger.Permits (.register unit decl hash)) :
    (ledger.perform (.register unit decl hash)).Sound := by
  have hwf := wellFormed_register h.wellFormed decl hp
  obtain ⟨hhash, index, hplaced⟩ := placed_registered h.wellFormed decl hash
  refine ⟨hwf, ?_, ?_, ?_, ?_⟩
  · intro holding hm
    rcases List.mem_append.1 hm with hm | hm
    · exact h.hash holding hm
    · rw [List.mem_singleton.1 hm]
      exact hhash
  · intro holding hm alias_ ha
    rcases List.mem_append.1 hm with hm | hm
    · exact h.added holding hm alias_ ha
    · rw [List.mem_singleton.1 hm] at ha ⊢
      exact ⟨(added_register h.wellFormed ha).1, rfl⟩
  · intro holding hm hi
    rcases List.mem_append.1 hm with hm | hm
    · obtain ⟨i, hold, hhead⟩ := h.placed holding hm hi
      obtain ⟨hnew, hheads⟩ := placed_register h.wellFormed hold decl hash
      exact ⟨i, hnew, hheads ∘ hhead⟩
    · rw [List.mem_singleton.1 hm]
      exact ⟨index, hplaced, fun hr => heads_of_resolves hwf.consistent hplaced (beq_iff_eq.1 hr)⟩
  · -- what the new registration adds was not there, and all that others added is
    refine List.pairwise_append.2 ⟨h.apart, List.pairwise_singleton _ _, ?_⟩
    rintro first hfirst second hsecond alias_ identity ⟨ha, rfl⟩ ⟨hb, he⟩
    obtain rfl := List.mem_singleton.1 hsecond
    obtain ⟨rfl, hi⟩ := h.added first hfirst alias_ ha
    obtain ⟨i, hold, -⟩ := h.placed first hfirst hi
    rw [← he] at hold
    exact (added_register h.wellFormed hb).2 i hold

/-- What stays held after a rollback was held before, and unchanged but for being intact. -/
theorem held_rollBack {unit : String} {holding : Holding}
    (hm : holding ∈ (ledger.perform (.rollBack unit)).held) :
    ∃ old ∈ ledger.held, old.unit ≠ unit ∧ holding = { old with intact := holding.intact } ∧
      (holding.intact = true ↔ old.intact = true ∧ ∀ mine ∈ ledger.own unit,
        ¬ mine.Adds (aliasOf old.decl) old.registration.identity) := by
  obtain ⟨old, ho, rfl⟩ := List.mem_map.1 hm
  obtain ⟨ho, hne⟩ := List.mem_filter.1 ho
  refine ⟨old, ho, bne_iff_ne.1 hne, rfl, ?_⟩
  simp

theorem sound_rollBack (h : ledger.Sound) (unit : String) :
    (ledger.perform (.rollBack unit)).Sound := by
  have hwf := wellFormed_rollBack h.wellFormed ((ledger.own unit).map Holding.registration)
  have hapart : ∀ old ∈ ledger.held, old.unit ≠ unit → ∀ mine ∈ ledger.own unit,
      Apart old mine := by
    intro old ho hne mine hm
    obtain ⟨hm, hunit⟩ := List.mem_filter.1 hm
    refine h.apart.forall ho hm fun he => hne ?_
    rw [he]
    exact eq_of_beq hunit
  refine ⟨hwf, ?_, ?_, ?_, ?_⟩
  · intro holding hm
    obtain ⟨old, ho, -, he, -⟩ := held_rollBack hm
    rw [he]
    exact h.hash old ho
  · intro holding hm alias_ ha
    obtain ⟨old, ho, hne, he, hi⟩ := held_rollBack hm
    rw [he] at ha
    obtain ⟨rfl, hintact⟩ := h.added old ho alias_ ha
    refine ⟨congrArg (aliasOf ·.decl) he.symm, hi.2 ⟨hintact, fun mine hm => ?_⟩⟩
    exact hapart old ho hne mine hm _ _ ⟨ha, rfl⟩
  · intro holding hm hintact
    obtain ⟨old, ho, -, he, hi⟩ := held_rollBack hm
    obtain ⟨hold, hfree⟩ := hi.1 hintact
    obtain ⟨index, hplaced, hhead⟩ := h.placed old ho hold
    have hothers : ∀ pick ∈ (ledger.own unit).map Holding.registration,
        pick.added = some (aliasOf old.decl) →
          pick.identity.persistentId ≠ old.registration.identity.persistentId := by
      intro pick hp ha hid
      obtain ⟨mine, hmine, rfl⟩ := List.mem_map.1 hp
      -- the unit that added the alias has a record of its own, which the id tells apart
      obtain ⟨hheld, -⟩ := List.mem_filter.1 hmine
      obtain ⟨-, hin⟩ := h.added mine hheld _ ha
      obtain ⟨i, hp, -⟩ := h.placed mine hheld hin
      refine hfree mine hmine ⟨ha, ?_⟩
      have hat := hp.ofId? h.wellFormed.consistent
      rw [hid, hplaced.ofId? h.wellFormed.consistent] at hat
      exact (Option.some.inj hat).symm
    obtain ⟨place, hafter, hheads⟩ := placed_rollBack h.wellFormed hplaced hothers
    rw [he]
    exact ⟨place, hafter, hheads ∘ hhead⟩
  · exact List.pairwise_map.2 (h.apart.sublist List.filter_sublist)

/-- Every event keeps the ledger sound. -/
theorem sound_perform (h : ledger.Sound) {event : UnitEvent} (hp : ledger.Permits event) :
    (ledger.perform event).Sound := by
  cases event with
  | register unit decl hash => exact sound_register h hp
  | rollBack unit => exact sound_rollBack h unit

theorem sound_run (h : ledger.Sound) {events : List UnitEvent} (hp : ledger.PermitsAll events) :
    (ledger.run events).Sound := by
  induction events generalizing ledger with
  | nil => exact h
  | cons event rest ih => exact ih (sound_perform h hp.1) hp.2

theorem sound_start (h : registry.WellFormed) : Sound { registry } :=
  ⟨h, by simp, by simp, by simp, List.Pairwise.nil⟩

/-- Over every sequence of registrations and rollbacks by any units, what a unit holds is found by
its content hash, by its persistent id and among the declarations of its name and source, as long as
no other unit has taken this alias back. Where the name and the source led to it when it was
returned, they still do. -/
theorem found_of_intact (h : registry.WellFormed) {events : List UnitEvent}
    (hp : ({ registry } : Ledger).PermitsAll events) :
    ∀ holding ∈ (({ registry } : Ledger).run events).held, holding.intact = true →
      let now := (({ registry } : Ledger).run events).registry
      let identity := holding.registration.identity
      now.identityOfHash? holding.hash = some identity ∧
        (now.ofId? identity.persistentId).map Record.identity = some identity ∧
        (∃ index, (now.records[index]?).map Record.identity = some identity ∧
          (holding.decl.source.file, index) ∈ now.declarationsOf holding.decl.name) ∧
        (holding.resolves = true →
          now.resolveDeclaredIn? holding.decl.name holding.decl.source.file = some identity) := by
  intro holding hm hi
  have hs := sound_run (sound_start h) hp
  obtain ⟨index, hplaced, hhead⟩ := hs.placed holding hm hi
  refine ⟨?_, hplaced.ofId? hs.wellFormed.consistent, ⟨index, hplaced.identity_eq, hplaced.listed⟩,
    fun hr => hplaced.resolves (hhead hr)⟩
  rw [← hs.hash holding hm]
  exact hplaced.identityOfHash? hs.wellFormed.consistent

/-- Two units declare a type of a shared file, one of them also in its own, and the other rolls
back. -/
def ownCopy : List UnitEvent :=
  [.register "bloom.frag" (emptyStruct "Fog" "fog.glsl") "cafe",
    .register "flare.frag" (emptyStruct "Fog" "fog.glsl") "cafe",
    .register "flare.frag" (emptyStruct "Fog" "flare.frag") "cafe", .rollBack "bloom.frag"]

/-- The copy that `flare.frag` declares itself is still found. -/
theorem found_of_intact_ownCopy :
    ({ registry := {} } : Ledger).PermitsAll ownCopy ∧
      ∃ holding ∈ (({ registry := {} } : Ledger).run ownCopy).held,
        holding.unit = "flare.frag" ∧ holding.intact = true ∧
          (({ registry := {} } : Ledger).run ownCopy).registry.resolveDeclaredIn? "Fog"
            "flare.frag" = some holding.registration.identity := by
  have hp : ({ registry := {} } : Ledger).PermitsAll ownCopy := by
    refine ⟨fun _ => ⟨0, by decide, rfl⟩, fun hn => ?_, fun hn => ?_, trivial, trivial⟩
    · exact absurd hn (by decide +kernel)
    · exact absurd hn (by decide +kernel)
  have hheld : ∃ holding ∈ (({ registry := {} } : Ledger).run ownCopy).held,
      holding.unit = "flare.frag" ∧ holding.decl.name = "Fog" ∧
        holding.decl.source.file = "flare.frag" ∧ holding.intact = true ∧
          holding.resolves = true := by
    decide +kernel
  obtain ⟨holding, hm, hunit, hname, hfile, hintact, hresolves⟩ := hheld
  have hfound := (found_of_intact (wellFormed_empty 4) hp holding hm hintact).2.2.2 hresolves
  rw [hname, hfile] at hfound
  exact ⟨hp, holding, hm, hunit, hintact, hfound⟩

/-- Two units declare a type of a shared file, and the first of them rolls back. -/
def sharedFile : List UnitEvent :=
  [.register "bloom.frag" (emptyStruct "Fog" "fog.glsl") "cafe",
    .register "flare.frag" (emptyStruct "Fog" "fog.glsl") "cafe", .rollBack "bloom.frag"]

/-- The second unit, which has not rolled back, finds its type in no way. -/
theorem shared_alias_lost :
    ({ registry := {} } : Ledger).PermitsAll sharedFile ∧
      ∃ holding ∈ (({ registry := {} } : Ledger).run sharedFile).held,
        holding.unit = "flare.frag" ∧ holding.hash = "cafe" ∧
          let now := (({ registry := {} } : Ledger).run sharedFile).registry
          now.identityOfHash? holding.hash = none ∧
            (now.ofId? holding.registration.identity.persistentId).map Record.identity = none ∧
            now.resolveDeclaredIn? "Fog" "fog.glsl" = none := by
  refine ⟨⟨fun _ => ⟨0, by decide, rfl⟩, fun hn => ?_, trivial, trivial⟩, by decide +kernel⟩
  exact absurd hn (by decide +kernel)

end Ledger

end UniformLayout.Registry
