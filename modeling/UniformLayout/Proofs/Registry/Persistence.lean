import UniformLayout.Proofs.Registry.Extension

/-!
# Registries that come back from a snapshot

A snapshot lists the types in the order of their records, each with its aliases, while a name leads
to the record that was registered first under it. `snapshot_reopened` says that a new registry has
all that was kept, and `grouped_restore` that it lists the declarations of a name in the order of
the records.

Main statements: `resolveDeclared_reopened_iff` and `resolveDeclaredIn_reopened_iff`.
-/

namespace UniformLayout.Registry

variable {registry : Registry}

/-! ## Restoring a snapshot -/

theorem modify_concat {α : Type} (front : List α) (a : α) (change : α → α) :
    (front ++ [a]).modify front.length change = front ++ [change a] := by
  induction front with
  | nil => rfl
  | cons first rest ih => exact congrArg (first :: ·) ih

theorem length_snapshot (registry : Registry) :
    registry.snapshot.length = registry.records.length :=
  List.length_map _

theorem snapshot_setRecord_last {front : Snapshot} {identity : TypeIdentity} {declared : List Alias}
    (h : registry.snapshot = front ++ [⟨identity, declared⟩]) (relabel : List Alias → List Alias) :
    (registry.setRecord front.length fun record =>
        { record with declared := relabel record.declared }).snapshot =
      front ++ [⟨identity, relabel declared⟩] := by
  obtain ⟨records, last, hrecords, hfront, hlast⟩ := List.map_eq_append_iff.1 h
  obtain ⟨record, rfl, hrecord⟩ := List.map_eq_singleton_iff.1 hlast
  have hlength : front.length = records.length := by rw [← hfront, List.length_map]
  unfold snapshot setRecord
  dsimp only
  rw [hrecords, hlength, modify_concat, List.map_append, hfront]
  cases hrecord
  rfl

/-- Aliases that the last record does not have come behind those it has. -/
theorem snapshot_addAliases (h : registry.WellFormed) {front : Snapshot} {identity : TypeIdentity}
    {declared aliases : List Alias} (hs : registry.snapshot = front ++ [⟨identity, declared⟩])
    (hn : (declared ++ aliases).Nodup) :
    (aliases.foldl (·.addAlias front.length ·) registry).snapshot =
      front ++ [⟨identity, declared ++ aliases⟩] := by
  induction aliases generalizing registry declared with
  | nil => rw [List.foldl_nil, List.append_nil, hs]
  | cons alias_ rest ih =>
    have hlt : front.length < registry.records.length := by
      rw [← length_snapshot, hs, List.length_append]
      exact Nat.lt_succ_self _
    have hnew : registry.hasAlias front.length alias_ = false := by
      rw [Bool.eq_false_iff]
      intro ha
      obtain ⟨record, hr, hm⟩ := (h.consistent.declared _ _ _).1 ((hasAlias_iff _ _ _).1 ha)
      have hlast : registry.snapshot[front.length]? = some ⟨record.identity, record.declared⟩ := by
        rw [snapshot, List.getElem?_map, hr]
        rfl
      rw [hs, List.getElem?_concat_length] at hlast
      obtain ⟨-, rfl⟩ := SnapshotEntry.mk.inj (Option.some.inj hlast)
      exact (List.nodup_append.1 hn).2.2 _ hm _ List.mem_cons_self rfl
    have hadded : (registry.addAlias front.length alias_).snapshot =
        front ++ [⟨identity, declared ++ [alias_]⟩] := by
      rw [addAlias_of_new hnew]
      exact snapshot_setRecord_last hs (· ++ [alias_])
    rw [List.append_cons declared] at hn ⊢
    exact ih (wellFormed_addAlias h alias_ hlt) hadded hn

/-- No two entries share a hash, an id or a generated name, and no entry repeats an alias. -/
structure Unmixed (kept : Snapshot) : Prop where
  hashes : (kept.map (·.identity.contentHash)).Nodup
  ids : (kept.map (·.identity.persistentId)).Nodup
  names : (kept.map (·.identity.generatedName)).Nodup
  aliases : ∀ entry ∈ kept, entry.declared.Nodup

theorem map_snapshot {α : Type} (registry : Registry) (key : TypeIdentity → α) :
    registry.snapshot.map (fun entry => key entry.identity) =
      registry.records.map fun record => key record.identity :=
  List.map_map

theorem Consistent.unmixed (h : registry.Consistent) : Unmixed registry.snapshot := by
  refine ⟨?_, ?_, ?_, List.forall_mem_map.2 h.aliases_nodup⟩
  · rw [map_snapshot registry TypeIdentity.contentHash]
    exact h.byHash.nodup
  · rw [map_snapshot registry TypeIdentity.persistentId]
    exact h.byId.nodup
  · rw [map_snapshot registry TypeIdentity.generatedName]
    exact h.byGeneratedName.nodup

/-- An index does not know a key that comes with the next entry. -/
theorem lookup_isSome_of_unmixed {key : TypeIdentity → String} {index : Table String Nat}
    (hi : Indexes index (registry.records.map fun record => key record.identity))
    {entry : SnapshotEntry} {rest : Snapshot}
    (hn : ((registry.snapshot ++ entry :: rest).map fun entry => key entry.identity).Nodup) :
    (index.lookup (key entry.identity)).isSome = false := by
  rw [List.map_append, map_snapshot] at hn
  rw [hi.lookup_eq_none_iff.2 fun hm => (List.nodup_append.1 hn).2.2 _ hm _ List.mem_cons_self rfl]
  rfl

theorem wellFormed_addRecord (h : registry.WellFormed) {identity : TypeIdentity}
    (hk : registry.knows identity = false) : (registry.addRecord identity).WellFormed := by
  simp only [knows, Bool.or_eq_false_iff, Option.isSome_eq_false_iff,
    Option.isNone_iff_eq_none] at hk
  obtain ⟨⟨hhash, hid⟩, hname⟩ := hk
  exact ⟨consistent_addRecord h.consistent hhash hid hname, ordered_addRecord h.ordered _⟩

theorem snapshot_restoreEntry (h : registry.WellFormed) {entry : SnapshotEntry} {rest : Snapshot}
    (hu : Unmixed (registry.snapshot ++ entry :: rest)) :
    (registry.restoreEntry entry).snapshot = registry.snapshot ++ [entry] := by
  have hc := h.consistent
  have hhash := lookup_isSome_of_unmixed hc.byHash hu.hashes
  have hid := lookup_isSome_of_unmixed hc.byId hu.ids
  have hname := lookup_isSome_of_unmixed hc.byGeneratedName hu.names
  have hunknown : registry.knows entry.identity = false := by
    rw [knows, hhash, hid, hname]
    rfl
  have hadded := wellFormed_addRecord h hunknown
  have hsnapshot : (registry.addRecord entry.identity).snapshot =
      registry.snapshot ++ [⟨entry.identity, []⟩] := List.map_append
  have hdeclared := hu.aliases entry (List.mem_append_right _ List.mem_cons_self)
  have := snapshot_addAliases hadded hsnapshot ((List.nil_append entry.declared).symm ▸ hdeclared)
  rw [restoreEntry, if_neg (by rw [hunknown]; decide)]
  rwa [length_snapshot] at this

theorem snapshot_restore (h : registry.WellFormed) {kept : Snapshot}
    (hu : Unmixed (registry.snapshot ++ kept)) :
    (registry.restore kept).snapshot = registry.snapshot ++ kept := by
  unfold restore
  induction kept generalizing registry with
  | nil => exact (List.append_nil _).symm
  | cons entry rest ih =>
    have hentry := snapshot_restoreEntry h hu
    rw [List.append_cons] at hu ⊢
    rw [← hentry] at hu ⊢
    exact ih (wellFormed_restoreEntry h entry) hu

/-- A new registry with what has been kept of another one. -/
def reopened (registry : Registry) (suffixLength : Nat) : Registry :=
  ({ suffixLength } : Registry).restore registry.snapshot

theorem wellFormed_reopened (registry : Registry) (suffixLength : Nat) :
    (registry.reopened suffixLength).WellFormed :=
  wellFormed_restore (wellFormed_empty suffixLength) _

/-- Everything that was kept is there. -/
theorem snapshot_reopened (h : registry.Consistent) (suffixLength : Nat) :
    (registry.reopened suffixLength).snapshot = registry.snapshot :=
  snapshot_restore (wellFormed_empty suffixLength) h.unmixed

/-! ## The order of the declarations -/

/-- The declarations of every name stand in the order of their records. -/
def Grouped (registry : Registry) : Prop :=
  ∀ name, (registry.declarationsOf name).Pairwise (·.2 ≤ ·.2)

theorem Consistent.lt_length (h : registry.Consistent) {name : String} {entry : String × Nat}
    (hm : entry ∈ registry.declarationsOf name) : entry.2 < registry.records.length := by
  obtain ⟨record, hr, -⟩ := (h.declared name entry.1 entry.2).1 hm
  exact (List.getElem?_eq_some_iff.1 hr).1

theorem grouped_addAlias (hg : registry.Grouped) (hc : registry.Consistent) {index : Nat}
    (alias_ : Alias) (hi : registry.records.length ≤ index + 1) :
    (registry.addAlias index alias_).Grouped := by
  intro name
  cases hn : registry.hasAlias index alias_ with
  | true =>
    rw [addAlias, if_pos hn]
    exact hg name
  | false =>
    rw [addAlias_of_new hn, declarationsOf_eq, listed_insert]
    split
    · refine List.pairwise_append.2 ⟨hg _, List.pairwise_singleton _ _, fun entry hm last hl => ?_⟩
      rw [List.mem_singleton.1 hl]
      exact Nat.le_of_lt_succ (Nat.lt_of_lt_of_le (hc.lt_length hm) hi)
    · exact hg name

theorem grouped_addAliases (hg : registry.Grouped) (h : registry.WellFormed) {index : Nat}
    (aliases : List Alias) (hi : registry.records.length = index + 1) :
    (aliases.foldl (·.addAlias index ·) registry).Grouped := by
  induction aliases generalizing registry with
  | nil => exact hg
  | cons alias_ rest ih =>
    have hlt : index < registry.records.length := Nat.lt_of_succ_le (Nat.le_of_eq hi.symm)
    refine ih (grouped_addAlias hg h.consistent alias_ (Nat.le_of_eq hi))
      (wellFormed_addAlias h alias_ hlt) ?_
    rwa [length_addAlias]

theorem grouped_restoreEntry (hg : registry.Grouped) (h : registry.WellFormed)
    (entry : SnapshotEntry) : (registry.restoreEntry entry).Grouped := by
  unfold restoreEntry
  split
  · exact hg
  · rename_i hk
    have hadded : (registry.addRecord entry.identity).Grouped := fun name => hg name
    exact grouped_addAliases hadded (wellFormed_addRecord h (Bool.eq_false_iff.2 hk)) _
      (length_addRecord _)

/-- Restoring lists the declarations of what it adds in the order of the records. -/
theorem grouped_restore (hg : registry.Grouped) (h : registry.WellFormed) (kept : Snapshot) :
    (registry.restore kept).Grouped := by
  unfold restore
  induction kept generalizing registry with
  | nil => exact hg
  | cons entry rest ih =>
    exact ih (grouped_restoreEntry hg h entry) (wellFormed_restoreEntry h entry)

theorem grouped_reopened (registry : Registry) (suffixLength : Nat) :
    (registry.reopened suffixLength).Grouped :=
  grouped_restore (fun _ => List.Pairwise.nil) (wellFormed_empty suffixLength) _

/-- The same declarations are listed under a name. -/
theorem mem_declarationsOf_reopened (h : registry.Consistent) (suffixLength : Nat) {name : String}
    {entry : String × Nat} :
    entry ∈ (registry.reopened suffixLength).declarationsOf name ↔
      entry ∈ registry.declarationsOf name := by
  have hcarries : ∀ {registry : Registry} {index : Nat} {alias_ : Alias},
      registry.Carries index alias_ ↔
        ∃ kept, registry.snapshot[index]? = some kept ∧ alias_ ∈ kept.declared := by
    intro registry index alias_
    simp [Carries, snapshot, List.getElem?_map]
  have hc := (wellFormed_reopened registry suffixLength).consistent
  exact (hc.declared _ _ _).trans
    ((hcarries.trans (by rw [snapshot_reopened h])).trans
      (hcarries.symm.trans (h.declared _ _ _).symm))

/-! ## What a name leads to -/

/-- No entry is of an earlier record than the first one. -/
def LowestFirst (entries : List (String × Nat)) : Prop :=
  ∀ first ∈ entries.head?, ∀ entry ∈ entries, first.2 ≤ entry.2

instance (entries : List (String × Nat)) : Decidable (LowestFirst entries) :=
  inferInstanceAs (Decidable (∀ first ∈ entries.head?, ∀ entry ∈ entries, first.2 ≤ entry.2))

/-- The same entries in the order of their records start with the same record if and only if that is
the earliest one. -/
theorem head_eq_iff_lowestFirst {entries sorted : List (String × Nat)}
    (hm : ∀ entry, entry ∈ sorted ↔ entry ∈ entries) (hs : sorted.Pairwise (·.2 ≤ ·.2)) :
    sorted.head?.map Prod.snd = entries.head?.map Prod.snd ↔ LowestFirst entries := by
  cases sorted with
  | nil =>
    have hnil : entries = [] :=
      List.eq_nil_iff_forall_not_mem.2 fun entry he => List.not_mem_nil ((hm entry).2 he)
    subst hnil
    simp [LowestFirst]
  | cons least others =>
    cases entries with
    | nil => exact absurd ((hm least).1 List.mem_cons_self) List.not_mem_nil
    | cons first rest =>
      have hleast : ∀ entry ∈ first :: rest, least.2 ≤ entry.2 := by
        intro entry he
        rcases List.mem_cons.1 ((hm entry).2 he) with rfl | hother
        · exact Nat.le_refl _
        · exact List.rel_of_pairwise_cons hs hother
      constructor
      · intro he head hhead
        obtain rfl := Option.some.inj hhead
        rw [← Option.some.inj he]
        exact hleast
      · intro hl
        have hfirst := hl first rfl least ((hm least).1 List.mem_cons_self)
        exact congrArg some (Nat.le_antisymm (hleast first List.mem_cons_self) hfirst)

/-- The identity of the record that the first of some entries names. -/
def leading? (registry : Registry) (entries : List (String × Nat)) : Option TypeIdentity :=
  (registry.recordAt? (entries.head?.map Prod.snd)).map Record.identity

theorem leading?_of_snapshot_eq {after : Registry} (h : after.snapshot = registry.snapshot)
    (entries : List (String × Nat)) : after.leading? entries = registry.leading? entries := by
  have hat : ∀ index : Nat, (after.records[index]?).map Record.identity =
      (registry.records[index]?).map Record.identity := by
    intro index
    have := congrArg (fun kept => (kept[index]?).map SnapshotEntry.identity) h
    simpa [snapshot, List.getElem?_map, Function.comp_def] using this
  unfold leading? recordAt?
  cases entries.head? with
  | none => rfl
  | some first => exact hat first.2

/-- Entries lead to the same identity only through the same record. -/
theorem leading?_eq_iff (h : registry.Consistent) {entries others : List (String × Nat)}
    (he : ∀ entry ∈ entries, entry.2 < registry.records.length)
    (ho : ∀ entry ∈ others, entry.2 < registry.records.length) :
    registry.leading? entries = registry.leading? others ↔
      entries.head?.map Prod.snd = others.head?.map Prod.snd := by
  refine ⟨fun hsame => ?_, fun hhead => by unfold leading?; rw [hhead]⟩
  have hfound : ∀ list : List (String × Nat),
      (∀ entry ∈ list, entry.2 < registry.records.length) →
        (registry.leading? list).bind (registry.byId.lookup ·.persistentId) =
          list.head?.map Prod.snd := by
    intro list hl
    cases list with
    | nil => rfl
    | cons first rest =>
      have hat := congrArg (Option.map Record.identity)
        (List.getElem?_eq_getElem (hl first List.mem_cons_self))
      unfold leading? recordAt?
      exact (congrArg (fun found => found.bind fun identity : TypeIdentity =>
        registry.byId.lookup identity.persistentId) hat).trans (lookup_id_of_identity h hat)
  rw [← hfound entries he, ← hfound others ho, hsame]

theorem leading?_reopened_iff (h : registry.Consistent) (suffixLength : Nat)
    {entries kept : List (String × Nat)} (hm : ∀ entry, entry ∈ kept ↔ entry ∈ entries)
    (hs : kept.Pairwise (·.2 ≤ ·.2)) (hl : ∀ entry ∈ entries, entry.2 < registry.records.length) :
    (registry.reopened suffixLength).leading? kept = registry.leading? entries ↔
      LowestFirst entries := by
  rw [leading?_of_snapshot_eq (snapshot_reopened h suffixLength),
    leading?_eq_iff h (fun entry he => hl entry ((hm entry).1 he)) hl,
    head_eq_iff_lowestFirst hm hs]

/-- The entries of a name among which a source looks: its own ones, or all where it has none. -/
def audible (registry : Registry) (name source : String) : List (String × Nat) :=
  let own := (registry.declarationsOf name).filter (·.1 == source)
  if own.isEmpty then registry.declarationsOf name else own

theorem resolveDeclaredIn?_eq (registry : Registry) (name source : String) :
    registry.resolveDeclaredIn? name source = registry.leading? (registry.audible name source) := by
  unfold resolveDeclaredIn? leading? audible
  dsimp only
  rw [← List.head?_filter]
  split
  · rename_i hempty
    rw [List.isEmpty_iff.1 hempty]
    rfl
  · rename_i hne
    cases hown : (registry.declarationsOf name).filter (·.1 == source) with
    | nil => exact absurd (by rw [hown]; rfl) hne
    | cons first rest => rfl

theorem audible_of_same {after : Registry} {name : String}
    (hm : ∀ entry, entry ∈ after.declarationsOf name ↔ entry ∈ registry.declarationsOf name)
    (source : String) (entry : String × Nat) :
    entry ∈ after.audible name source ↔ entry ∈ registry.audible name source := by
  have hown : ((after.declarationsOf name).filter (·.1 == source)).isEmpty =
      ((registry.declarationsOf name).filter (·.1 == source)).isEmpty := by
    rw [Bool.eq_iff_iff, List.isEmpty_iff, List.isEmpty_iff, List.filter_eq_nil_iff,
      List.filter_eq_nil_iff]
    exact forall_congr' fun entry => imp_congr_left (hm entry)
  unfold audible
  dsimp only
  rw [hown]
  split
  · exact hm entry
  · rw [List.mem_filter, List.mem_filter, hm]

theorem audible_sublist (registry : Registry) (name source : String) :
    (registry.audible name source).Sublist (registry.declarationsOf name) := by
  unfold audible
  dsimp only
  split
  · exact List.Sublist.refl _
  · exact List.filter_sublist

/-- A name leads to the same identity again if and only if, of the records that are declared under
it, the earliest has been declared first. -/
theorem resolveDeclared_reopened_iff (h : registry.Consistent) (suffixLength : Nat)
    (name : String) :
    (registry.reopened suffixLength).resolveDeclared? name = registry.resolveDeclared? name ↔
      LowestFirst (registry.declarationsOf name) :=
  leading?_reopened_iff h suffixLength (fun _ => mem_declarationsOf_reopened h suffixLength)
    (grouped_reopened registry suffixLength name) fun _ => h.lt_length

/-- The same for a name in a source. -/
theorem resolveDeclaredIn_reopened_iff (h : registry.Consistent) (suffixLength : Nat)
    (name source : String) :
    (registry.reopened suffixLength).resolveDeclaredIn? name source =
        registry.resolveDeclaredIn? name source ↔
      LowestFirst (registry.audible name source) := by
  rw [resolveDeclaredIn?_eq, resolveDeclaredIn?_eq]
  refine leading?_reopened_iff h suffixLength
    (audible_of_same (fun _ => mem_declarationsOf_reopened h suffixLength) source)
    ((grouped_reopened registry suffixLength name).sublist (audible_sublist _ _ _)) ?_
  exact fun entry hm => h.lt_length ((audible_sublist _ _ _).subset hm)

end UniformLayout.Registry
