import UniformLayout.Proofs.Registry.Reachable
import UniformLayout.Proofs.Registry.Undo
import Mathlib.Logic.Function.Basic

/-!
# Registrations in two sections

Under the shared lock a registration may `glance?` at a record that carries its alias already;
otherwise it waits for the exclusive lock and does all that `register` does. Other threads may get
in between. `Sections.enter` is one such section, and `Shared.call` a whole call at once.

* `enter_cases`: a section either changes nothing that can be seen or is a whole call.
* `Keyed`: what registrations and rollbacks keep without any assumption on ids, so that a hash has
  one record.

Main statement: `sections_linearize`.
-/

namespace UniformLayout.Registry

/-- What a registration is answered under the shared lock: the identity of a known hash whose record
carries the alias. -/
def glance? (registry : Registry) (decl : TypeDeclaration) (hash : String) :
    Option Registration :=
  match registry.byHash.lookup hash with
  | none => none
  | some index =>
    if registry.hasAlias index (aliasOf decl) then
      (registry.records[index]?).map fun record => ⟨record.identity, false, none⟩
    else none

variable {registry : Registry}

/-- What is answered under the shared lock is what the whole registration answers, and that leaves
the registry as it is. -/
theorem register_of_glance {decl : TypeDeclaration} {hash : String} {registration : Registration}
    (h : registry.glance? decl hash = some registration) :
    registry.register decl hash = (registration, registry) := by
  unfold glance? at h
  split at h
  · cases h
  · rename_i index hl
    split at h
    · rename_i hknown
      obtain ⟨record, hr, rfl⟩ := Option.map_eq_some_iff.1 h
      rw [register_of_lookup hl hr, addAlias, if_pos hknown, if_pos hknown]
    · cases h

/-! ## Threads -/

/-- What a thread asks of the registry. -/
inductive Call where
  | register (decl : TypeDeclaration) (hash : String)
  | rollBack (picks : List Registration)

/-- A thread chooses its next call by what it was answered before; a rollback answers nothing. -/
abbrev Program := List (Option Registration) → Option Call

/-- The registry, and what every thread was answered. -/
structure Shared (ι : Type) where
  registry : Registry
  answers : ι → List (Option Registration) := fun _ => []

/-- The same, with the threads that wait for the exclusive lock. -/
structure Sections (ι : Type) extends Shared ι where
  waits : ι → Bool := fun _ => false

section

variable {ι : Type} [DecidableEq ι] (programs : ι → Program)

def Shared.answer (shared : Shared ι) (thread : ι) (answer : Option Registration)
    (registry : Registry) : Shared ι where
  registry
  answers := Function.update shared.answers thread (shared.answers thread ++ [answer])

/-- The next call of a thread, all at once. -/
def Shared.call (shared : Shared ι) (thread : ι) : Shared ι :=
  match programs thread (shared.answers thread) with
  | none => shared
  | some (.register decl hash) =>
    let (registration, registry) := shared.registry.register decl hash
    shared.answer thread (some registration) registry
  | some (.rollBack picks) => shared.answer thread none (shared.registry.rollBack picks)

/-- The next section of a thread. A registration that waits takes the exclusive lock and looks its
hash up again; one that does not wait glances first. A rollback has one section. -/
def Sections.enter (sections : Sections ι) (thread : ι) : Sections ι :=
  match programs thread (sections.answers thread) with
  | none => sections
  | some (.register decl hash) =>
    if sections.waits thread then
      let (registration, registry) := sections.registry.register decl hash
      { toShared := sections.answer thread (some registration) registry
        waits := Function.update sections.waits thread false }
    else
      match sections.registry.glance? decl hash with
      | some registration =>
        { sections with
          toShared := sections.answer thread (some registration) sections.registry }
      | none => { sections with waits := Function.update sections.waits thread true }
  | some (.rollBack picks) =>
    { sections with
      toShared := sections.answer thread none (sections.registry.rollBack picks) }

/-- Whole calls, of one thread after the other. -/
def Shared.run (shared : Shared ι) (order : List ι) : Shared ι :=
  order.foldl (Shared.call programs) shared

/-- Sections, of one thread after the other. -/
def Sections.run (sections : Sections ι) (schedule : List ι) : Sections ι :=
  schedule.foldl (Sections.enter programs) sections

/-- A section leaves registry and answers as they are, or it does a whole call of its thread. -/
theorem enter_cases (sections : Sections ι) (thread : ι) :
    (sections.enter programs thread).toShared = sections.toShared ∨
      (sections.enter programs thread).toShared = sections.toShared.call programs thread := by
  unfold Sections.enter Shared.call
  split
  · exact Or.inl rfl
  · rename_i decl hash hnext
    split
    · exact Or.inr rfl
    · split
      · rename_i registration hglance
        rw [register_of_glance hglance]
        exact Or.inr rfl
      · exact Or.inl rfl
  · exact Or.inr rfl

variable {programs}

/-- Sections in any interleaving do what some of their threads' calls do one after the other. -/
theorem exists_order (sections : Sections ι) (schedule : List ι) :
    ∃ order : List ι, order.Sublist schedule ∧
      sections.toShared.run programs order = (sections.run programs schedule).toShared := by
  induction schedule generalizing sections with
  | nil => exact ⟨[], List.Sublist.refl _, rfl⟩
  | cons thread rest ih =>
    obtain ⟨order, hsub, hrun⟩ := ih (sections.enter programs thread)
    rcases enter_cases programs sections thread with hsame | hcall
    · refine ⟨order, hsub.cons _, ?_⟩
      rw [hsame] at hrun
      exact hrun
    · refine ⟨thread :: order, hsub.cons_cons _, ?_⟩
      rw [hcall] at hrun
      exact hrun

end

/-! ## One record for a hash -/

/-- The index by hash describes the records, and only records that exist are listed. Unlike
`WellFormed`, this does not depend on the ids. -/
structure Keyed (registry : Registry) : Prop where
  ordered : registry.Ordered
  byHash : Indexes registry.byHash registry.hashes
  listed : ∀ name source index, (source, index) ∈ registry.declarationsOf name →
    index < registry.records.length

theorem WellFormed.keyed (h : registry.WellFormed) : registry.Keyed := by
  refine ⟨h.ordered, h.consistent.byHash, fun name source index hm => ?_⟩
  obtain ⟨record, hr, -⟩ := (h.consistent.declared name source index).1 hm
  exact (List.getElem?_eq_some_iff.1 hr).1

/-- A hash leads to the one identity that has it. -/
theorem Keyed.identityOfHash?_eq_some_iff (h : registry.Keyed) {hash : String}
    {identity : TypeIdentity} : registry.identityOfHash? hash = some identity ↔
      identity ∈ registry.identities ∧ identity.contentHash = hash := by
  unfold identityOfHash? ofHash? recordAt? identities
  rw [Option.map_eq_some_iff, List.mem_map]
  constructor
  · rintro ⟨record, hr, rfl⟩
    obtain ⟨index, hl, hr⟩ := Option.bind_eq_some_iff.1 hr
    have hkey := (h.byHash hash index).1 hl
    rw [hashes, List.getElem?_map, hr] at hkey
    exact ⟨⟨record, List.mem_of_getElem? hr, rfl⟩, Option.some.inj hkey⟩
  · rintro ⟨⟨record, hm, rfl⟩, rfl⟩
    obtain ⟨index, hr⟩ := List.mem_iff_getElem?.1 hm
    have hl : registry.byHash.lookup record.identity.contentHash = some index := by
      rw [h.byHash, hashes, List.getElem?_map, hr]
      rfl
    exact ⟨record, Option.bind_eq_some_iff.2 ⟨index, hl, hr⟩, rfl⟩

theorem hashes_of_cores {before after : Registry} (h : after.cores = before.cores) :
    after.hashes = before.hashes := by
  have := congrArg (List.map fun entry => entry.1.contentHash) h
  simpa [cores, core, hashes, Function.comp_def] using this

theorem keyed_addAlias (h : registry.Keyed) {index : Nat} (alias_ : Alias)
    (hi : index < registry.records.length) : (registry.addAlias index alias_).Keyed := by
  refine ⟨ordered_addAlias h.ordered index alias_, ?_, fun name source i hm => ?_⟩
  · rw [hashes_of_cores (cores_addAlias registry index alias_), byHash_addAlias]
    exact h.byHash
  · rw [length_addAlias]
    cases hn : registry.hasAlias index alias_ with
    | true =>
      rw [addAlias, if_pos hn] at hm
      exact h.listed name source i hm
    | false =>
      rw [addAlias_of_new hn, declarationsOf_eq, listed_insert] at hm
      split at hm
      · rcases List.mem_append.1 hm with hm | hm
        · exact h.listed _ source i hm
        · obtain ⟨-, rfl⟩ := Prod.mk.inj (List.mem_singleton.1 hm)
          exact hi
      · exact h.listed name source i hm

theorem keyed_addRecord (h : registry.Keyed) {identity : TypeIdentity}
    (hnew : registry.byHash.lookup identity.contentHash = none) :
    (registry.addRecord identity).Keyed := by
  refine ⟨ordered_addRecord h.ordered identity, ?_, fun name source i hm => ?_⟩
  · have := h.byHash.insert hnew
    rw [hashes, List.length_map] at this
    rw [hashes, addRecord, List.map_append]
    exact this
  · rw [length_addRecord]
    exact Nat.lt_succ_of_lt (h.listed name source i hm)

/-- Registering keeps the registry keyed; it answers with the identity that the hash has afterwards,
and no identity is lost. -/
theorem keyed_register (h : registry.Keyed) (decl : TypeDeclaration) (hash : String) :
    (registry.register decl hash).2.Keyed ∧
      (registry.register decl hash).1.identity.contentHash = hash ∧
      (registry.register decl hash).1.identity ∈ (registry.register decl hash).2.identities ∧
      registry.identities ⊆ (registry.register decl hash).2.identities := by
  have hsame : ∀ (before : Registry) (index : Nat),
      (before.addAlias index (aliasOf decl)).identities = before.identities := by
    intro before index
    have := congrArg (List.map Prod.fst) (cores_addAlias before index (aliasOf decl))
    simpa [cores, core, identities, Function.comp_def] using this
  cases hl : registry.byHash.lookup hash with
  | none =>
    rw [register_of_unknown hl]
    have hadded : (registry.addRecord (registry.mintIdentity decl hash)).Keyed :=
      keyed_addRecord h hl
    refine ⟨keyed_addAlias hadded _ ?_, rfl, ?_, ?_⟩
    · rw [length_addRecord]
      exact Nat.lt_succ_self _
    · rw [hsame, identities, addRecord, List.map_append]
      exact List.mem_append_right _ List.mem_cons_self
    · rw [hsame, identities, identities, addRecord, List.map_append]
      exact List.subset_append_left _ _
  | some index =>
    have hkey := (h.byHash hash index).1 hl
    rw [hashes, List.getElem?_map] at hkey
    obtain ⟨record, hr, hhash⟩ := Option.map_eq_some_iff.1 hkey
    rw [register_of_lookup hl hr]
    refine ⟨keyed_addAlias h _ (List.getElem?_eq_some_iff.1 hr).1, hhash, ?_, ?_⟩
    · rw [hsame]
      exact List.mem_map_of_mem (List.mem_of_getElem? hr)
    · rw [hsame]
      exact List.Subset.refl _

theorem keyed_undoAlias (h : registry.Keyed) (registration : Registration) :
    (registry.undoAlias registration).Keyed := by
  have hhashes := hashes_of_cores (cores_undoAlias registry registration)
  have hlength : (registry.undoAlias registration).records.length = registry.records.length := by
    rw [← length_cores, cores_undoAlias, length_cores]
  unfold undoAlias at hhashes hlength ⊢
  split
  · rename_i alias_ index ha hi
    rw [ha, hi] at hhashes hlength
    refine ⟨ordered_removeAlias h.ordered index alias_, ?_, fun name source i hm => ?_⟩
    · rw [hhashes]
      exact h.byHash
    · rw [hlength]
      rw [declarationsOf_removeAlias h.ordered] at hm
      split at hm
      · exact h.listed name source i (List.mem_filter.1 hm).1
      · exact h.listed name source i hm
  · exact h

theorem keyed_removeRecords (h : registry.Keyed) (doomed : List Nat) :
    (registry.removeRecords doomed).Keyed := by
  refine ⟨ordered_removeRecords h.ordered doomed, ?_, fun name source place hm => ?_⟩
  · rw [hashes, records_removeRecords, ← survivors_map]
    exact h.byHash.follow h.ordered.byHash doomed
  · rw [declarationsOf_removeRecords h.ordered] at hm
    obtain ⟨i, hkeep, hm⟩ := mem_follow.1 hm
    have hlt := h.listed name source i hm
    have hat : (registry.removeRecords doomed).records[place]? = some registry.records[i] := by
      rw [records_removeRecords]
      exact getElem?_survivors.2 ⟨i, hkeep, List.getElem?_eq_getElem hlt⟩
    exact (List.getElem?_eq_some_iff.1 hat).1

/-- Rolling back keeps the registry keyed, and gives nothing an identity. -/
theorem keyed_rollBack (h : registry.Keyed) (picks : List Registration) :
    (registry.rollBack picks).Keyed ∧
      (registry.rollBack picks).identities ⊆ registry.identities := by
  have hkeyed : (picks.reverse.foldl undoAlias registry).Keyed :=
    undoAliases_induction picks.reverse h fun _ registration hr => keyed_undoAlias hr registration
  have hsame : (picks.reverse.foldl undoAlias registry).identities = registry.identities := by
    have := congrArg (List.map Prod.fst) (cores_undoAliases registry picks.reverse)
    simpa [cores, core, identities, Function.comp_def] using this
  unfold rollBack
  dsimp only
  split
  · rw [hsame]
    exact ⟨hkeyed, List.Subset.refl _⟩
  · refine ⟨keyed_removeRecords hkeyed _, ?_⟩
    rw [← hsame, identities, identities, records_removeRecords]
    exact List.map_subset _ fun record hm => mem_of_mem_survivors hm

/-! ## Runs of sections -/

section

variable {ι : Type} [DecidableEq ι] {programs : ι → Program}

/-- What a call is answered is the identity that the hash has then. -/
def Answered (shared later : Shared ι) (answers : ι → List (Option Registration)) : Prop :=
  ∀ thread, later.answers thread = shared.answers thread ++ answers thread ∧
    ∀ registration, some registration ∈ answers thread →
      later.registry.identityOfHash? registration.identity.contentHash =
        some registration.identity

theorem answered_answer (shared : Shared ι) (thread : ι) (answer : Option Registration)
    (after : Registry) (h : ∀ registration, answer = some registration →
      after.identityOfHash? registration.identity.contentHash = some registration.identity) :
    Answered shared (shared.answer thread answer after)
      (Function.update (fun _ => []) thread [answer]) := by
  intro other
  unfold Shared.answer
  dsimp only
  by_cases he : other = thread
  · subst he
    rw [Function.update_self, Function.update_self]
    exact ⟨rfl, fun registration hm => h registration (List.mem_singleton.1 hm).symm⟩
  · rw [Function.update_of_ne he, Function.update_of_ne he]
    exact ⟨(List.append_nil _).symm, fun registration hm => absurd hm List.not_mem_nil⟩

/-- A hash that has an identity before and after has kept it. -/
def KeepsIdentities (before after : Registry) : Prop :=
  ∀ hash identity later, before.identityOfHash? hash = some identity →
    after.identityOfHash? hash = some later → later = identity

/-- What a whole call does. -/
theorem call_spec (shared : Shared ι) (thread : ι) (h : shared.registry.Keyed) :
    (shared.call programs thread).registry.Keyed ∧
      KeepsIdentities shared.registry (shared.call programs thread).registry ∧
      ∃ answers, Answered shared (shared.call programs thread) answers := by
  unfold Shared.call
  split
  · refine ⟨h, fun hash identity later hb ha => ?_, fun _ => [], fun other => ?_⟩
    · exact Option.some.inj (ha.symm.trans hb)
    · exact ⟨(List.append_nil _).symm, fun registration hm => absurd hm List.not_mem_nil⟩
  · rename_i decl hash hnext
    obtain ⟨hkeyed, hhash, hin, hkept⟩ := keyed_register h decl hash
    refine ⟨hkeyed, fun other identity later hb ha => ?_, _, answered_answer _ _ _ _ ?_⟩
    · obtain ⟨hm, he⟩ := h.identityOfHash?_eq_some_iff.1 hb
      have hnow := hkeyed.identityOfHash?_eq_some_iff.2 ⟨hkept hm, he⟩
      exact Option.some.inj (ha.symm.trans hnow)
    · rintro registration he
      obtain rfl := Option.some.inj he
      exact hkeyed.identityOfHash?_eq_some_iff.2 ⟨hin, rfl⟩
  · rename_i picks hnext
    obtain ⟨hkeyed, hfewer⟩ := keyed_rollBack h picks
    refine ⟨hkeyed, fun hash identity later hb ha => ?_, _, answered_answer _ _ _ _ ?_⟩
    · obtain ⟨hm, he⟩ := hkeyed.identityOfHash?_eq_some_iff.1 ha
      have hthen := h.identityOfHash?_eq_some_iff.2 ⟨hfewer hm, he⟩
      exact Option.some.inj (hthen.symm.trans hb)
    · rintro registration he
      cases he

/-- What a section does. -/
theorem enter_spec (programs : ι → Program) (sections : Sections ι) (thread : ι)
    (h : sections.registry.Keyed) :
    (sections.enter programs thread).registry.Keyed ∧
      KeepsIdentities sections.registry (sections.enter programs thread).registry ∧
      ∃ answers, Answered sections.toShared (sections.enter programs thread).toShared answers := by
  rcases enter_cases programs sections thread with hsame | hcall
  · rw [hsame]
    refine ⟨h, fun hash identity later hb ha => ?_, fun _ => [], fun other => ?_⟩
    · exact Option.some.inj (ha.symm.trans hb)
    · exact ⟨(List.append_nil _).symm, fun registration hm => absurd hm List.not_mem_nil⟩
  · rw [hcall]
    exact call_spec sections.toShared thread h

theorem run_keyed (sections : Sections ι) (schedule : List ι) (h : sections.registry.Keyed) :
    (sections.run programs schedule).registry.Keyed := by
  induction schedule generalizing sections with
  | nil => exact h
  | cons thread rest ih => exact ih _ (enter_spec programs sections thread h).1

/-- The record of the hash is there after every section. -/
def Sections.Lives (programs : ι → Program) (hash : String) : Sections ι → List ι → Prop
  | _, [] => True
  | sections, thread :: rest =>
    ((sections.enter programs thread).registry.identityOfHash? hash).isSome ∧
      (sections.enter programs thread).Lives programs hash rest

/-- While its record lives, a hash keeps its identity. -/
theorem identityOfHash?_run {sections : Sections ι} {schedule : List ι} {hash : String}
    {identity : TypeIdentity} (h : sections.registry.Keyed)
    (hl : sections.Lives programs hash schedule)
    (hi : sections.registry.identityOfHash? hash = some identity) :
    (sections.run programs schedule).registry.identityOfHash? hash = some identity := by
  induction schedule generalizing sections with
  | nil => exact hi
  | cons thread rest ih =>
    obtain ⟨hsome, hrest⟩ := hl
    obtain ⟨hkeyed, hkeeps, -⟩ := enter_spec programs sections thread h
    obtain ⟨later, hlater⟩ := Option.isSome_iff_exists.1 hsome
    obtain rfl := hkeeps hash identity later hi hlater
    exact ih hkeyed hrest hlater

/-- While its record lives, all registrations of a hash are answered with the one identity. -/
theorem answers_run {sections : Sections ι} {schedule : List ι} {hash : String}
    {identity : TypeIdentity} (h : sections.registry.Keyed)
    (hl : sections.Lives programs hash schedule)
    (hi : (sections.run programs schedule).registry.identityOfHash? hash = some identity)
    (thread : ι) : ∃ more,
      (sections.run programs schedule).answers thread = sections.answers thread ++ more ∧
        ∀ registration, some registration ∈ more → registration.identity.contentHash = hash →
          registration.identity = identity := by
  induction schedule generalizing sections with
  | nil => exact ⟨[], (List.append_nil _).symm, by simp⟩
  | cons first rest ih =>
    obtain ⟨hsome, hrest⟩ := hl
    obtain ⟨hkeyed, -, answers, hanswers⟩ := enter_spec programs sections first h
    obtain ⟨now, hnow⟩ := Option.isSome_iff_exists.1 hsome
    obtain rfl : now = identity :=
      Option.some.inj ((identityOfHash?_run hkeyed hrest hnow).symm.trans hi)
    obtain ⟨more, hmore, hall⟩ := ih hkeyed hrest hi
    obtain ⟨hfirst, hgiven⟩ := hanswers thread
    refine ⟨answers thread ++ more, ?_, fun registration hm he => ?_⟩
    · rw [← List.append_assoc, ← hfirst]
      exact hmore
    · rcases List.mem_append.1 hm with hm | hm
      · have := hgiven registration hm
        rw [he, hnow] at this
        exact (Option.some.inj this).symm
      · exact hall registration hm he

/-- Any number of threads register and roll back, and their sections interleave in any way. Then
their calls have some order, in which each thread makes its own calls one after the other, that
gives all the same answers and the same registry; no hash ever has two records; and all
registrations of a hash that are answered while its record lives are answered with the identity of
that record. -/
theorem sections_linearize (h : registry.WellFormed) (programs : ι → Program)
    (schedule : List ι) :
    (∃ order : List ι, order.Sublist schedule ∧
        ({ registry } : Shared ι).run programs order =
          (({ registry } : Sections ι).run programs schedule).toShared) ∧
      (({ registry } : Sections ι).run programs schedule).registry.hashes.Nodup ∧
      ∀ front back hash identity, schedule = front ++ back →
        (({ registry } : Sections ι).run programs front).Lives programs hash back →
        (({ registry } : Sections ι).run programs schedule).registry.identityOfHash? hash =
          some identity →
        ∀ thread, ∃ more,
          (({ registry } : Sections ι).run programs schedule).answers thread =
              (({ registry } : Sections ι).run programs front).answers thread ++ more ∧
            ∀ registration, some registration ∈ more →
              registration.identity.contentHash = hash → registration.identity = identity := by
  have hkeyed : (Sections.run programs { registry } schedule).registry.Keyed :=
    run_keyed { registry } schedule h.keyed
  refine ⟨exists_order { registry } schedule, hkeyed.byHash.nodup, ?_⟩
  rintro front back hash identity rfl hl hi thread
  have hsplit : ({ registry } : Sections ι).run programs (front ++ back) =
      (({ registry } : Sections ι).run programs front).run programs back := List.foldl_append
  rw [hsplit] at hi ⊢
  exact answers_run (run_keyed { registry } front h.keyed) hl hi thread

end

/-- Two threads register one structure from a file each, and one takes its registration back. -/
def twoThreads (thread : Bool) : Program
  | [] =>
    some (.register (emptyStruct "Fog" (if thread then "bloom.frag" else "flare.frag")) "cafe")
  | [some registration] => if thread then some (.rollBack [registration]) else none
  | _ => none

/-- Both threads glance before either takes the exclusive lock. -/
def bothGlance : List Bool := [true, false, true, false, true]

/-- The second thread waits for the exclusive lock in vain, and gets the identity of the first. -/
theorem sections_linearize_bothGlance :
    ({ suffixLength := 4 } : Registry).WellFormed ∧
      (∃ order : List Bool, order.Sublist bothGlance ∧
        ({ registry := { suffixLength := 4 } } : Shared Bool).run twoThreads order =
          (({ registry := { suffixLength := 4 } } : Sections Bool).run twoThreads
            bothGlance).toShared) ∧
      ∃ identity, ∀ thread, ∃ more,
        (({ registry := { suffixLength := 4 } } : Sections Bool).run twoThreads
            bothGlance).answers thread = [] ++ more ∧
          ∀ registration, some registration ∈ more →
            registration.identity.contentHash = "cafe" → registration.identity = identity := by
  have h := wellFormed_empty 4
  obtain ⟨horder, -, hone⟩ := sections_linearize h twoThreads bothGlance
  have hl : ((({ registry := { suffixLength := 4 } } : Sections Bool).run twoThreads
      [true, false]).Lives twoThreads "cafe" [true, false, true]) := by
    refine ⟨?_, ?_, ?_, trivial⟩ <;> decide +kernel
  have hsome : ((({ registry := { suffixLength := 4 } } : Sections Bool).run twoThreads
      bothGlance).registry.identityOfHash? "cafe").isSome := by
    decide +kernel
  obtain ⟨identity, hi⟩ := Option.isSome_iff_exists.1 hsome
  exact ⟨h, horder, identity, hone [true, false] _ "cafe" identity rfl hl hi⟩

end UniformLayout.Registry
