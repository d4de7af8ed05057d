import UniformLayout.Proofs.Registry.Linearization
import UniformLayout.Proofs.Registry.Persistence
import UniformLayout.Proofs.Registry.Reachable
import UniformLayout.Registry.Cache

/-!
# Identities from one session to the next

A registry that is saved to its cache file and loaded again has forgotten what has been generated,
and may list the declarations of a name in another order. Registering looks at neither: `Alike` is
what it does look at, so that both registries go on in the same way.

* `read?_of_save`, `load_of_save`: what has been saved is what is loaded.
* `restore_of_known`: nothing that is known is restored again.
* `alike_reopened`, `Alike.register`, `Alike.registerAll`: the loaded registry starts alike, and
  stays so with every registration.

Main statement: `resumed_of_save`.
-/

namespace UniformLayout

/-! ## The file -/

/-- Where paths lead depends on the directories only. -/
theorem FileTree.resolve?_writeAt (tree : FileTree) (location : Location) (text path : String) :
    (tree.writeAt location text).resolve? path = tree.resolve? path := rfl

theorem FileTree.read?_of_write {tree written : FileTree} {path text : String}
    (h : tree.write? path text = some written) : written.read? path = some text := by
  obtain ⟨location, hl, h⟩ := Option.bind_eq_some_iff.1 h
  split at h
  · cases h
  · obtain rfl := Option.some.inj h
    rw [read?, resolve?_writeAt, hl]
    exact read?_writeAt tree location text

namespace Registry

variable {registry : Registry}

theorem read?_of_save {path : String} {tree written : FileTree}
    (h : registry.save path tree = (.ok (), written)) :
    written.read? path = some registry.snapshot.document := by
  unfold save at h
  dsimp only at h
  split at h
  · cases h
  · split at h
    · cases h
    · rename_i hw
      obtain ⟨-, rfl⟩ := Prod.mk.inj h
      exact FileTree.read?_of_write hw

/-- Loading restores what has been saved, provided that the document is read as it was written. -/
theorem load_of_save {path : String} {tree written : FileTree}
    (h : registry.save path tree = (.ok (), written))
    (hd : Snapshot.ofDocument? registry.snapshot.document = some registry.snapshot)
    (start : Registry) : start.load path written = .ok (start.restore registry.snapshot) := by
  unfold load
  rw [read?_of_save h]
  dsimp only
  rw [hd]

/-! ## What is known already -/

theorem restore_of_known {kept : Snapshot}
    (h : ∀ entry ∈ kept, registry.knows entry.identity = true) : registry.restore kept = registry := by
  unfold restore
  induction kept with
  | nil => rfl
  | cons entry rest ih =>
    obtain ⟨hentry, hrest⟩ := List.forall_mem_cons.1 h
    rw [List.foldl_cons, restoreEntry, if_pos hentry]
    exact ih hrest

/-- A registry knows what it would keep. -/
theorem knows_of_mem_snapshot (h : registry.Consistent) {entry : SnapshotEntry}
    (hm : entry ∈ registry.snapshot) : registry.knows entry.identity = true := by
  obtain ⟨record, hr, rfl⟩ := List.mem_map.1 hm
  obtain ⟨index, hi⟩ := List.mem_iff_getElem?.1 hr
  have hl : registry.byHash.lookup record.identity.contentHash = some index := by
    rw [h.byHash, hashes, List.getElem?_map, hi]
    rfl
  simp [knows, hl]

/-! ## The length of suffixes -/

theorem suffixLength_addAlias (registry : Registry) (index : Nat) (alias_ : Alias) :
    (registry.addAlias index alias_).suffixLength = registry.suffixLength := by
  unfold addAlias
  split
  · rfl
  · rfl

theorem suffixLength_restore (registry : Registry) (kept : Snapshot) :
    (registry.restore kept).suffixLength = registry.suffixLength := by
  have haliases : ∀ (aliases : List Alias) (index : Nat) (start : Registry),
      (aliases.foldl (·.addAlias index ·) start).suffixLength = start.suffixLength := by
    intro aliases index
    induction aliases with
    | nil => exact fun _ => rfl
    | cons alias_ rest ih =>
      exact fun start => (ih _).trans (suffixLength_addAlias start index alias_)
  unfold restore
  induction kept generalizing registry with
  | nil => rfl
  | cons entry rest ih =>
    rw [List.foldl_cons, ih]
    unfold restoreEntry
    split
    · rfl
    · exact haliases _ _ _

theorem suffixLength_register (registry : Registry) (decl : TypeDeclaration) (hash : String) :
    (registry.register decl hash).2.suffixLength = registry.suffixLength := by
  unfold register
  dsimp only
  split
  · exact suffixLength_addAlias _ _ _
  · exact suffixLength_addAlias _ _ _

theorem suffixLength_rollBack (registry : Registry) (picks : List Registration) :
    (registry.rollBack picks).suffixLength = registry.suffixLength := by
  have hundone : (picks.reverse.foldl undoAlias registry).suffixLength = registry.suffixLength := by
    refine undoAliases_induction (P := fun after => after.suffixLength = registry.suffixLength)
      picks.reverse rfl fun after registration h => ?_
    unfold undoAlias
    split
    · exact h
    · exact h
  unfold rollBack
  dsimp only
  split
  · exact hundone
  · exact hundone

theorem suffixLength_perform (registry : Registry) (operation : Operation) :
    (registry.perform operation).suffixLength = registry.suffixLength := by
  cases operation with
  | register decl hash => exact suffixLength_register registry decl hash
  | rollBack picks => exact suffixLength_rollBack registry picks
  | restore kept => exact suffixLength_restore registry kept
  | beginGeneration id =>
    unfold perform beginGeneration
    dsimp only
    split
    · rfl
    · split
      · rfl
      · rfl
  | completeGeneration id descriptor =>
    unfold perform completeGeneration
    dsimp only
    split
    · rfl
    · rfl
  | abandonGeneration id =>
    unfold perform abandonGeneration
    dsimp only
    split
    · rfl
    · rfl

theorem Reachable.suffixLength_eq {suffixLength : Nat} {past : List Registration}
    (h : Reachable suffixLength past registry) : registry.suffixLength = suffixLength := by
  induction h with
  | empty => rfl
  | step operation _ _ ih => exact (suffixLength_perform _ operation).trans ih

/-! ## Registries that go on alike -/

/-- What registering looks at is the same: the unique keys, the identities with their aliases, and
which declarations a name has. -/
structure Alike (a b : Registry) : Prop where
  suffixLength : a.suffixLength = b.suffixLength
  byHash : a.byHash = b.byHash
  byId : a.byId = b.byId
  byGeneratedName : a.byGeneratedName = b.byGeneratedName
  snapshot : a.snapshot = b.snapshot
  declarations : ∀ name entry, entry ∈ a.declarationsOf name ↔ entry ∈ b.declarationsOf name

variable {a b : Registry}

/-- A snapshot shows a change of the aliases of one record. -/
theorem snapshot_relabel (registry : Registry) (index : Nat) (relabel : List Alias → List Alias) :
    (registry.setRecord index fun record =>
        { record with declared := relabel record.declared }).snapshot =
      registry.snapshot.modify index fun entry =>
        { entry with declared := relabel entry.declared } := by
  apply List.ext_getElem?
  intro i
  rw [snapshot, List.getElem?_map, getElem?_setRecord, List.getElem?_modify, snapshot,
    List.getElem?_map]
  split
  · cases registry.records[i]? with
    | none => rfl
    | some record => rfl
  · simp

theorem alike_reopened (h : registry.WellFormed) :
    (registry.reopened registry.suffixLength).Alike registry := by
  have hk := snapshot_reopened h.consistent registry.suffixLength
  have hr := wellFormed_reopened registry registry.suffixLength
  have hkeys : ∀ key : TypeIdentity → String,
      (registry.reopened registry.suffixLength).records.map (fun record => key record.identity) =
        registry.records.map fun record => key record.identity := by
    intro key
    rw [← map_snapshot, ← map_snapshot, hk]
  have hhash := hr.consistent.byHash
  have hid := hr.consistent.byId
  have hname := hr.consistent.byGeneratedName
  rw [hashes, hkeys TypeIdentity.contentHash] at hhash
  rw [ids, hkeys TypeIdentity.persistentId] at hid
  rw [names, hkeys TypeIdentity.generatedName] at hname
  exact
    { suffixLength := suffixLength_restore _ _
      byHash := eq_of_indexes hhash h.consistent.byHash hr.ordered.byHash h.ordered.byHash
      byId := eq_of_indexes hid h.consistent.byId hr.ordered.byId h.ordered.byId
      byGeneratedName := eq_of_indexes hname h.consistent.byGeneratedName
        hr.ordered.byGeneratedName h.ordered.byGeneratedName
      snapshot := hk
      declarations := fun _ _ => mem_declarationsOf_reopened h.consistent _ }

namespace Alike

theorem length_records (h : a.Alike b) : a.records.length = b.records.length := by
  rw [← length_snapshot, ← length_snapshot, h.snapshot]

theorem hasAlias (h : a.Alike b) (index : Nat) (alias_ : Alias) :
    a.hasAlias index alias_ = b.hasAlias index alias_ :=
  Bool.eq_iff_iff.2 ((hasAlias_iff a index alias_).trans
    ((h.declarations _ _).trans (hasAlias_iff b index alias_).symm))

theorem mintIdentity (h : a.Alike b) (decl : TypeDeclaration) (hash : String) :
    a.mintIdentity decl hash = b.mintIdentity decl hash := by
  have hfree : a.isFreeName = b.isFreeName := by
    funext name
    rw [isFreeName, isFreeName, h.byGeneratedName]
  have hid : a.mintId hash = b.mintId hash := by
    rw [mintId, mintId, h.byId]
  rw [Registry.mintIdentity, Registry.mintIdentity, hid, mintName, mintName, hfree,
    h.suffixLength, h.byGeneratedName]

theorem addRecord (h : a.Alike b) (identity : TypeIdentity) :
    (a.addRecord identity).Alike (b.addRecord identity) := by
  have hsnapshot : ∀ start : Registry,
      (start.addRecord identity).snapshot = start.snapshot ++ [⟨identity, []⟩] :=
    fun _ => List.map_append
  exact
    { suffixLength := h.suffixLength
      byHash := by simp only [Registry.addRecord, h.byHash, h.length_records]
      byId := by simp only [Registry.addRecord, h.byId, h.length_records]
      byGeneratedName := by simp only [Registry.addRecord, h.byGeneratedName, h.length_records]
      snapshot := by rw [hsnapshot, hsnapshot, h.snapshot]
      declarations := h.declarations }

theorem addAlias (h : a.Alike b) (index : Nat) (alias_ : Alias) :
    (a.addAlias index alias_).Alike (b.addAlias index alias_) := by
  have hsame := h.hasAlias index alias_
  cases hn : a.hasAlias index alias_ with
  | true =>
    rw [Registry.addAlias, if_pos hn, Registry.addAlias, if_pos (hsame.symm.trans hn)]
    exact h
  | false =>
    have hsnapshot := congrArg (List.modify · index fun entry : SnapshotEntry =>
      { entry with declared := entry.declared ++ [alias_] }) h.snapshot
    have hlisted := mem_declarationsOf_addAlias hn
    have hlisted' := mem_declarationsOf_addAlias (hsame.symm.trans hn)
    rw [addAlias_of_new hn] at hlisted ⊢
    rw [addAlias_of_new (hsame.symm.trans hn)] at hlisted' ⊢
    refine ⟨h.suffixLength, h.byHash, h.byId, h.byGeneratedName, ?_, fun name entry => ?_⟩
    · exact (snapshot_relabel a index (· ++ [alias_])).trans
        (hsnapshot.trans (snapshot_relabel b index (· ++ [alias_])).symm)
    · exact (hlisted name entry).trans
        ((or_congr_left (h.declarations name entry)).trans (hlisted' name entry).symm)

/-- Both registries give the same answer, and stay alike. -/
theorem register (h : a.Alike b) (hk : a.Keyed) (decl : TypeDeclaration) (hash : String) :
    (a.register decl hash).1 = (b.register decl hash).1 ∧
      (a.register decl hash).2.Alike (b.register decl hash).2 := by
  cases hl : a.byHash.lookup hash with
  | none =>
    rw [register_of_unknown hl, register_of_unknown (h.byHash ▸ hl), ← h.mintIdentity,
      ← h.length_records]
    exact ⟨rfl, (h.addRecord _).addAlias _ _⟩
  | some index =>
    have hkey := (hk.byHash hash index).1 hl
    rw [hashes, List.getElem?_map] at hkey
    obtain ⟨record, hr, -⟩ := Option.map_eq_some_iff.1 hkey
    have hkept : b.snapshot[index]? = some ⟨record.identity, record.declared⟩ := by
      rw [← h.snapshot, Registry.snapshot, List.getElem?_map, hr]
      rfl
    rw [Registry.snapshot, List.getElem?_map] at hkept
    obtain ⟨other, ho, he⟩ := Option.map_eq_some_iff.1 hkept
    rw [register_of_lookup hl hr, register_of_lookup (h.byHash ▸ hl) ho, ← h.hasAlias,
      (SnapshotEntry.mk.inj he).1]
    exact ⟨rfl, h.addAlias _ _⟩

/-- The same holds of any number of registrations. -/
theorem registerAll (h : a.Alike b) (hk : a.Keyed) (calls : List (TypeDeclaration × String)) :
    (a.registerAll calls).1 = (b.registerAll calls).1 ∧
      (a.registerAll calls).2.Alike (b.registerAll calls).2 := by
  induction calls generalizing a b with
  | nil => exact ⟨rfl, h⟩
  | cons call rest ih =>
    obtain ⟨decl, hash⟩ := call
    obtain ⟨hanswer, hafter⟩ := h.register hk decl hash
    obtain ⟨hanswers, hend⟩ := ih hafter (keyed_register hk decl hash).1
    rw [registerAll_cons, registerAll_cons, hanswer, hanswers]
    exact ⟨rfl, hend⟩

end Alike

/-- A registry that is saved and loaded by a new session has the identities and aliases that it had,
also when the file is loaded again, and all later registrations get the answers that they would have
got. The document is assumed to be read as it was written. -/
theorem resumed_of_save {suffixLength : Nat} {past : List Registration}
    (h : Reachable suffixLength past registry) {path : String} {tree written : FileTree}
    (hs : registry.save path tree = (.ok (), written))
    (hd : Snapshot.ofDocument? registry.snapshot.document = some registry.snapshot) :
    ∃ resumed : Registry, ({ suffixLength } : Registry).load path written = .ok resumed ∧
      resumed.snapshot = registry.snapshot ∧
      resumed.load path written = .ok resumed ∧
      ∀ calls : List (TypeDeclaration × String),
        (resumed.registerAll calls).1 = (registry.registerAll calls).1 ∧
          (resumed.registerAll calls).2.snapshot = (registry.registerAll calls).2.snapshot := by
  obtain rfl := h.suffixLength_eq
  have hr := wellFormed_reopened registry registry.suffixLength
  have halike := alike_reopened h.wellFormed
  refine ⟨registry.reopened registry.suffixLength, load_of_save hs hd _, halike.snapshot, ?_,
    fun calls => ?_⟩
  · rw [load_of_save hs hd, restore_of_known fun entry hm => ?_]
    rw [← halike.snapshot] at hm
    exact knows_of_mem_snapshot hr.consistent hm
  · obtain ⟨hanswers, hafter⟩ := halike.registerAll hr.keyed calls
    exact ⟨hanswers, hafter.snapshot⟩

/-- A registry that comes from a snapshot of one type. -/
def keptLamp : Registry :=
  ({ } : Registry).restore [⟨⟨"cafe", "id", "Lamp"⟩, [⟨"Lamp", "a"⟩]⟩]

/-- The type gets another alias, and its name is wanted for a new one. -/
def laterCalls : List (TypeDeclaration × String) :=
  [(emptyStruct "Haze" "haze.glsl", "cafe"), (emptyStruct "Lamp" "haze.glsl", "fade")]

theorem resumed_of_save_keptLamp :
    Reachable 4 [] keptLamp ∧
      ∃ (written : FileTree) (resumed : Registry),
        keptLamp.save "cache.toml" {} = (.ok (), written) ∧
          ({ } : Registry).load "cache.toml" written = .ok resumed ∧
          (resumed.registerAll laterCalls).1 = (keptLamp.registerAll laterCalls).1 := by
  have h : Reachable 4 [] keptLamp := Reachable.empty.step (.restore _) trivial
  obtain ⟨hsaved, hread⟩ : (keptLamp.save "cache.toml" {}).1.toOption.any (fun _ => true) = true ∧
      Snapshot.ofDocument? keptLamp.snapshot.document = some keptLamp.snapshot := by
    decide +kernel
  obtain ⟨done, hsaved, -⟩ := exists_ok_of_any hsaved
  have hs : keptLamp.save "cache.toml" {} = (.ok (), (keptLamp.save "cache.toml" {}).2) :=
    Prod.ext hsaved rfl
  obtain ⟨resumed, hload, -, -, hcalls⟩ := resumed_of_save h hs hread
  exact ⟨h, _, resumed, hs, hload, (hcalls laterCalls).1⟩

end Registry

end UniformLayout
