import UniformLayout.Proofs.Registry.Operations

/-!
# Undoing registrations

A rollback takes back exactly what the registrations of a unit have changed, also when some of the
types were written in between.

* `SameAliases`: two registries list the same aliases, in the same order, by name and by record.
* `sameAliases_removeAlias`: removing an alias that was added last restores the aliases.
* `register_spec`, `registerAll_spec`: what registering adds to the records, and how undoing the
  registrations in reverse order takes it back.

Main statement: `rollBack_spec`.
-/

namespace UniformLayout.Registry

variable {registry : Registry}

/-! ## Aliases -/

/-- The aliases of the record at a position. -/
def aliasesAt (registry : Registry) (index : Nat) : List Alias :=
  (registry.records[index]?).elim [] Record.declared

/-- Both registries list the same aliases, by name and by record. -/
structure SameAliases (a b : Registry) : Prop where
  byDeclaredName : a.byDeclaredName = b.byDeclaredName
  aliasesAt : ∀ index, a.aliasesAt index = b.aliasesAt index

theorem SameAliases.refl (registry : Registry) : SameAliases registry registry :=
  ⟨rfl, fun _ => rfl⟩

theorem SameAliases.trans {a b c : Registry} (h : SameAliases a b) (k : SameAliases b c) :
    SameAliases a c :=
  ⟨h.byDeclaredName.trans k.byDeclaredName,
    fun index => (h.aliasesAt index).trans (k.aliasesAt index)⟩

theorem mem_aliasesAt_iff {index : Nat} {alias_ : Alias} :
    alias_ ∈ registry.aliasesAt index ↔ registry.Carries index alias_ := by
  unfold aliasesAt Carries
  cases registry.records[index]? with
  | none => simp
  | some record => simp

theorem aliasesAt_of_length_le {index : Nat} (h : registry.records.length ≤ index) :
    registry.aliasesAt index = [] := by
  unfold aliasesAt
  rw [List.getElem?_eq_none h]
  rfl

/-- A change of one record changes its aliases only. -/
theorem aliasesAt_setRecord (registry : Registry) {index : Nat} (i : Nat)
    {change : Record → Record} (relabel : List Alias → List Alias)
    (hc : ∀ record, (change record).declared = relabel record.declared)
    (hn : index < registry.records.length ∨ relabel [] = []) :
    (registry.setRecord index change).aliasesAt i =
      if index = i then relabel (registry.aliasesAt i) else registry.aliasesAt i := by
  unfold aliasesAt
  rw [getElem?_setRecord]
  split
  · rename_i he
    subst he
    cases hr : registry.records[index]? with
    | none =>
      rcases hn with hlt | hn
      · rw [List.getElem?_eq_getElem hlt] at hr
        cases hr
      · exact hn.symm
    | some record => exact hc record
  · rfl

theorem sameAliases_addRecord (registry : Registry) (identity : TypeIdentity) :
    SameAliases (registry.addRecord identity) registry := by
  refine ⟨rfl, fun i => ?_⟩
  unfold aliasesAt addRecord
  dsimp only
  rcases Nat.lt_trichotomy i registry.records.length with h | rfl | h
  · rw [List.getElem?_append_left h]
  · rw [List.getElem?_concat_length, List.getElem?_eq_none (Nat.le_refl _)]
    rfl
  · rw [List.getElem?_eq_none (by rw [List.length_append]; exact h),
      List.getElem?_eq_none (Nat.le_of_lt h)]

theorem filter_ne_concat {α : Type} [BEq α] [LawfulBEq α] {list : List α} {a : α} (h : a ∉ list) :
    (list ++ [a]).filter (· != a) = list := by
  rw [List.filter_append, List.filter_eq_self.2, List.filter_cons_of_neg (by simp)]
  · exact List.append_nil _
  · intro entry hm
    exact bne_iff_ne.2 fun he => h (he ▸ hm)

section

variable {index : Nat} {alias_ : Alias} {grown : Registry}

/-- Taking a new alias away again leaves the index by declared name as it was. -/
theorem byDeclaredName_removeAlias (h : registry.WellFormed)
    (hnew : registry.hasAlias index alias_ = false) (ho : grown.Ordered)
    (hs : SameAliases grown (registry.addAlias index alias_)) :
    (grown.removeAlias index alias_).byDeclaredName = registry.byDeclaredName := by
  have hname : ∀ name, grown.byDeclaredName.lookup name =
      if name = alias_.name then
        some (registry.declarationsOf alias_.name ++ [(alias_.source, index)])
      else registry.byDeclaredName.lookup name := by
    intro name
    rw [hs.byDeclaredName, addAlias_of_new hnew]
    split
    · rename_i he
      rw [he]
      exact Table.lookup_insert_self _ _ _
    · rename_i hne
      exact Table.lookup_insert_of_ne hne _ _
  apply Table.Sorted.ext (ordered_removeAlias ho index alias_).byDeclaredName
    h.ordered.byDeclaredName
  intro name
  rw [lookup_removeAlias ho, hname]
  split
  · rename_i he
    subst he
    have hlisted : grown.declarationsOf alias_.name =
        registry.declarationsOf alias_.name ++ [(alias_.source, index)] := by
      unfold declarationsOf
      rw [hname, if_pos rfl]
      rfl
    rw [hlisted, filter_ne_concat (not_mem_declarationsOf hnew), Option.filter_some]
    unfold declarationsOf
    cases hl : registry.byDeclaredName.lookup alias_.name with
    | none => rfl
    | some entries =>
      rw [Option.getD_some, if_pos]
      simp only [Bool.not_eq_true', List.isEmpty_eq_false_iff]
      rintro rfl
      exact h.consistent.no_empty _ hl
  · rfl

/-- Taking a new alias away again leaves the aliases as they were. -/
theorem sameAliases_removeAlias (h : registry.WellFormed) (hi : index < registry.records.length)
    (hnew : registry.hasAlias index alias_ = false) (ho : grown.Ordered)
    (hs : SameAliases grown (registry.addAlias index alias_)) :
    SameAliases (grown.removeAlias index alias_) registry := by
  refine ⟨byDeclaredName_removeAlias h hnew ho hs, fun i => ?_⟩
  have hremoved : (grown.removeAlias index alias_).aliasesAt i =
      if index = i then (grown.aliasesAt i).filter (· != alias_) else grown.aliasesAt i :=
    aliasesAt_setRecord grown i (·.filter (· != alias_)) (fun _ => rfl) (Or.inr rfl)
  have hadded : grown.aliasesAt i =
      if index = i then registry.aliasesAt i ++ [alias_] else registry.aliasesAt i := by
    rw [hs.aliasesAt, addAlias_of_new hnew]
    exact aliasesAt_setRecord registry i (· ++ [alias_]) (fun _ => rfl) (Or.inl hi)
  rw [hremoved, hadded]
  split
  · rename_i he
    subst he
    apply filter_ne_concat
    intro hm
    exact not_mem_declarationsOf hnew ((h.consistent.declared _ _ _).2 (mem_aliasesAt_iff.1 hm))
  · rfl

end

/-! ## One registration -/

theorem byId_undoAlias (registry : Registry) (registration : Registration) :
    (registry.undoAlias registration).byId = registry.byId := by
  unfold undoAlias
  split
  · rfl
  · rfl

theorem byId_undoAliases (registry : Registry) (picks : List Registration) :
    (picks.foldl undoAlias registry).byId = registry.byId :=
  undoAliases_induction (P := fun after => after.byId = registry.byId) picks rfl
    fun after registration hr => (byId_undoAlias after registration).trans hr

theorem cores_addAlias (registry : Registry) (index : Nat) (alias_ : Alias) :
    (registry.addAlias index alias_).cores = registry.cores := by
  unfold addAlias
  split
  · rfl
  · exact map_setRecord _ fun _ => rfl

theorem byId_addAlias (registry : Registry) (index : Nat) (alias_ : Alias) :
    (registry.addAlias index alias_).byId = registry.byId := by
  unfold addAlias
  split
  · rfl
  · rfl

theorem byHash_addAlias (registry : Registry) (index : Nat) (alias_ : Alias) :
    (registry.addAlias index alias_).byHash = registry.byHash := by
  unfold addAlias
  split
  · rfl
  · rfl

/-- What a registration has done: the record of the hash is known, or was added behind the others,
and undoing the registration restores the aliases. -/
structure Registers (before after : Registry) (hash : String) (registration : Registration)
    (index : Nat) : Prop where
  byHash : after.byHash.lookup hash = some index
  byId : after.byId.lookup registration.identity.persistentId = some index
  ids : ∀ id i, before.byId.lookup id = some i → after.byId.lookup id = some i
  hashes : ∀ other i, before.byHash.lookup other = some i → after.byHash.lookup other = some i
  cores : after.cores = before.cores ++
    if registration.minted then [(registration.identity, .pending, none)] else []
  minted : registration.minted = true → index = before.records.length
  undo : ∀ grown : Registry, grown.Ordered → SameAliases grown after →
    grown.byId.lookup registration.identity.persistentId = some index →
      SameAliases (grown.undoAlias registration) before

theorem hasAlias_addRecord (h : registry.Consistent) (identity : TypeIdentity) (alias_ : Alias) :
    (registry.addRecord identity).hasAlias registry.records.length alias_ = false := by
  rw [Bool.eq_false_iff]
  intro hm
  have hc := (h.declared _ _ _).1 ((hasAlias_iff _ _ _).1 hm)
  obtain ⟨record, hr, -⟩ := hc
  rw [List.getElem?_eq_none (Nat.le_refl _)] at hr
  cases hr

/-- A type with a known hash adds an alias to the record of this hash. -/
theorem registers_of_known (h : registry.WellFormed) (decl : TypeDeclaration) {hash : String}
    {index : Nat} (hl : registry.byHash.lookup hash = some index) :
    Registers registry (registry.register decl hash).2 hash (registry.register decl hash).1
      index := by
  obtain ⟨record, hr, hhash⟩ := h.consistent.getElem?_of_lookup_hash hl
  have hid : registry.byId.lookup record.identity.persistentId = some index := by
    rw [h.consistent.byId, ids, List.getElem?_map, hr]
    rfl
  rw [register_of_lookup hl hr]
  refine ⟨?_, ?_, ?_, ?_, ?_, ?_, ?_⟩
  · rw [byHash_addAlias]
    exact hl
  · rw [byId_addAlias]
    exact hid
  · intro id i hi
    rwa [byId_addAlias]
  · intro other i hi
    rwa [byHash_addAlias]
  · rw [cores_addAlias]
    exact (List.append_nil _).symm
  · intro hm
    cases hm
  · intro grown ho hs hi
    unfold undoAlias
    dsimp only at hi ⊢
    rw [hi]
    cases hn : registry.hasAlias index (aliasOf decl) with
    | true =>
      unfold addAlias at hs
      rw [hn] at hs
      exact hs
    | false => exact sameAliases_removeAlias h (List.getElem?_eq_some_iff.1 hr).1 hn ho hs

/-- A type with a new hash adds a record, with its alias. -/
theorem registers_of_unknown (h : registry.WellFormed) (decl : TypeDeclaration) {hash : String}
    (hl : registry.byHash.lookup hash = none) (hf : registry.HasFreeId hash) :
    Registers registry (registry.register decl hash).2 hash (registry.register decl hash).1
      registry.records.length := by
  have hnew : registry.byId.lookup (registry.mintId hash) = none := lookup_mintId hf
  have hadded : (registry.addRecord (registry.mintIdentity decl hash)).WellFormed :=
    ⟨consistent_addRecord h.consistent hl hnew (lookup_mintName _ _),
      ordered_addRecord h.ordered _⟩
  rw [register_of_unknown hl]
  refine ⟨?_, ?_, ?_, ?_, ?_, ?_, ?_⟩
  · rw [byHash_addAlias]
    exact Table.lookup_insert_self _ _ _
  · rw [byId_addAlias]
    exact Table.lookup_insert_self _ _ _
  · intro id i hi
    rw [byId_addAlias]
    refine (Table.lookup_insert_of_ne ?_ _ _).trans hi
    rintro rfl
    cases hi.symm.trans hnew
  · intro other i hi
    rw [byHash_addAlias]
    refine (Table.lookup_insert_of_ne ?_ _ _).trans hi
    rintro rfl
    cases hi.symm.trans hl
  · rw [cores_addAlias]
    exact List.map_append
  · intro _
    rfl
  · intro grown ho hs hi
    unfold undoAlias
    dsimp only at hi ⊢
    rw [hi]
    have hlt : registry.records.length <
        (registry.addRecord (registry.mintIdentity decl hash)).records.length := by
      rw [length_addRecord]
      exact Nat.lt_succ_self _
    exact (sameAliases_removeAlias hadded hlt (hasAlias_addRecord h.consistent _ _) ho hs).trans
      (sameAliases_addRecord registry _)

theorem register_spec (h : registry.WellFormed) (decl : TypeDeclaration) {hash : String}
    (hf : registry.byHash.lookup hash = none → registry.HasFreeId hash) :
    ∃ index, Registers registry (registry.register decl hash).2 hash
      (registry.register decl hash).1 index := by
  cases hl : registry.byHash.lookup hash with
  | some index => exact ⟨index, registers_of_known h decl hl⟩
  | none => exact ⟨_, registers_of_unknown h decl hl (hf hl)⟩

/-! ## All registrations of a unit -/

/-- Every hash that is new when its turn comes finds an id that is not in use. -/
def FindsIds (registry : Registry) : List (TypeDeclaration × String) → Prop
  | [] => True
  | (decl, hash) :: rest =>
    (registry.byHash.lookup hash = none → registry.HasFreeId hash) ∧
      (registry.register decl hash).2.FindsIds rest

/-- A fold that adds to a list: what has been added before stays in front. -/
theorem foldl_collect {α β σ : Type} {step : List β × σ → α → List β × σ}
    (h : ∀ done state a, step (done, state) a =
      (done ++ (step ([], state) a).1, (step ([], state) a).2))
    (list : List α) (done : List β) (state : σ) :
    list.foldl step (done, state) =
      (done ++ (list.foldl step ([], state)).1, (list.foldl step ([], state)).2) := by
  induction list generalizing done state with
  | nil => simp
  | cons a rest ih =>
    rw [List.foldl_cons, List.foldl_cons, h, ih, ih (step ([], state) a).1, List.append_assoc]

theorem registerAll_cons (registry : Registry) (decl : TypeDeclaration) (hash : String)
    (rest : List (TypeDeclaration × String)) :
    registry.registerAll ((decl, hash) :: rest) =
      ((registry.register decl hash).1 :: ((registry.register decl hash).2.registerAll rest).1,
        ((registry.register decl hash).2.registerAll rest).2) := by
  unfold registerAll
  rw [List.foldl_cons]
  apply foldl_collect
  intro done registry pair
  rfl

/-- What the registrations of a unit have done. -/
structure RegistersAll (before after : Registry) (pairs : List (TypeDeclaration × String))
    (registrations : List Registration) : Prop where
  wellFormed : after.WellFormed
  ids : ∀ id i, before.byId.lookup id = some i → after.byId.lookup id = some i
  hashes : ∀ hash i, before.byHash.lookup hash = some i → after.byHash.lookup hash = some i
  known : ∀ pair ∈ pairs, (after.byHash.lookup pair.2).isSome
  cores : ∃ minted : List TypeIdentity,
    after.cores = before.cores ++ minted.map fun identity => (identity, .pending, none)
  minted : ∀ registration ∈ registrations, registration.minted = true →
    ∃ index, before.records.length ≤ index ∧
      after.byId.lookup registration.identity.persistentId = some index
  covered : ∀ index, before.records.length ≤ index → index < after.records.length →
    ∃ registration ∈ registrations, registration.minted = true ∧
      after.byId.lookup registration.identity.persistentId = some index
  undo : ∀ grown : Registry, grown.WellFormed → SameAliases grown after →
    (∀ id i, after.byId.lookup id = some i → grown.byId.lookup id = some i) →
      SameAliases (registrations.reverse.foldl undoAlias grown) before

theorem RegistersAll.nil (h : registry.WellFormed) : RegistersAll registry registry [] [] where
  wellFormed := h
  ids _ _ hi := hi
  hashes _ _ hi := hi
  known := by simp
  cores := ⟨[], (List.append_nil _).symm⟩
  minted registration hm := by cases hm
  covered index hle hlt := absurd hle (Nat.not_le.2 hlt)
  undo grown _ hs _ := hs

/-- One registration, and then all others. -/
theorem Registers.cons {before next after : Registry} {decl : TypeDeclaration} {hash : String}
    {registration : Registration} {index : Nat} {rest : List (TypeDeclaration × String)}
    {registrations : List Registration} (hone : Registers before next hash registration index)
    (hall : RegistersAll next after rest registrations) :
    RegistersAll before after ((decl, hash) :: rest) (registration :: registrations) := by
  have hlength : next.records.length =
      before.records.length + if registration.minted then 1 else 0 := by
    have := congrArg List.length hone.cores
    rw [length_cores, List.length_append, length_cores] at this
    rw [this]
    split
    · rfl
    · rfl
  refine ⟨hall.wellFormed, ?_, ?_, ?_, ?_, ?_, ?_, ?_⟩
  · exact fun id i hi => hall.ids id i (hone.ids id i hi)
  · exact fun hash i hi => hall.hashes hash i (hone.hashes hash i hi)
  · refine List.forall_mem_cons.2 ⟨?_, hall.known⟩
    rw [hall.hashes hash index hone.byHash]
    rfl
  · obtain ⟨minted, hm⟩ := hall.cores
    rw [hm, hone.cores]
    split
    · exact ⟨registration.identity :: minted, by simp⟩
    · exact ⟨minted, by simp⟩
  · refine List.forall_mem_cons.2 ⟨fun hm => ?_, fun other ho hm => ?_⟩
    · exact ⟨index, Nat.le_of_eq (hone.minted hm).symm, hall.ids _ _ hone.byId⟩
    · obtain ⟨i, hle, hi⟩ := hall.minted other ho hm
      exact ⟨i, by omega, hi⟩
  · intro i hle hlt
    rcases Nat.lt_or_ge i next.records.length with hi | hi
    · have hm : registration.minted = true := by
        by_contra hc
        rw [if_neg hc] at hlength
        omega
      have hindex := hone.minted hm
      rw [if_pos hm] at hlength
      obtain rfl : i = index := by omega
      exact ⟨registration, List.mem_cons_self, hm, hall.ids _ _ hone.byId⟩
    · obtain ⟨other, ho, hm, hi⟩ := hall.covered i hi hlt
      exact ⟨other, List.mem_cons_of_mem _ ho, hm, hi⟩
  · intro grown ho hs hids
    rw [List.reverse_cons, List.foldl_append]
    apply hone.undo _ (wellFormed_undoAliases ho _).ordered (hall.undo grown ho hs hids)
    rw [byId_undoAliases]
    exact hids _ _ (hall.ids _ _ hone.byId)

theorem registerAll_spec (h : registry.WellFormed) {pairs : List (TypeDeclaration × String)}
    (hf : registry.FindsIds pairs) :
    RegistersAll registry (registry.registerAll pairs).2 pairs (registry.registerAll pairs).1 := by
  induction pairs generalizing registry with
  | nil => exact .nil h
  | cons pair rest ih =>
    obtain ⟨decl, hash⟩ := pair
    obtain ⟨hfree, hrest⟩ := hf
    obtain ⟨index, hone⟩ := register_spec h decl hfree
    rw [registerAll_cons]
    exact hone.cons (ih (wellFormed_register h decl hfree) hrest)

/-! ## The rollback -/

theorem getElem?_rollBack (registry : Registry) (registrations : List Registration)
    {place : Nat} {record : Record} :
    (registry.rollBack registrations).records[place]? = some record ↔
      ∃ i, keepIndex? (registrations.filterMap
          (registrations.reverse.foldl undoAlias registry).doomedBy?) i = some place ∧
        (registrations.reverse.foldl undoAlias registry).records[i]? = some record := by
  unfold rollBack
  dsimp only
  split
  · rename_i hempty
    rw [List.isEmpty_iff.1 hempty]
    have hself : ∀ i, keepIndex? [] i = some i := fun i => keepIndex?_eq_self (by simp)
    simp [hself]
  · exact getElem?_survivors

/-- The records before all that are removed stay where they are. -/
theorem getElem?_rollBack_of_lt {registrations : List Registration} {length i : Nat}
    (hd : ∀ j ∈ registrations.filterMap
      (registrations.reverse.foldl undoAlias registry).doomedBy?, length ≤ j) (hi : i < length) :
    (registry.rollBack registrations).records[i]? =
      (registrations.reverse.foldl undoAlias registry).records[i]? := by
  have hself := keepIndex?_eq_self fun j hj => Nat.lt_of_lt_of_le hi (hd j hj)
  ext record
  rw [getElem?_rollBack]
  constructor
  · rintro ⟨j, hj, hrecord⟩
    rwa [keepIndex?_injective hj hself] at hrecord
  · intro hrecord
    exact ⟨i, hself, hrecord⟩

theorem byDeclaredName_rollBack {registrations : List Registration} {length : Nat}
    (h : (registrations.reverse.foldl undoAlias registry).WellFormed)
    (hd : ∀ i ∈ registrations.filterMap
      (registrations.reverse.foldl undoAlias registry).doomedBy?, length ≤ i)
    (hl : ∀ i, length ≤ i → (registrations.reverse.foldl undoAlias registry).aliasesAt i = []) :
    (registry.rollBack registrations).byDeclaredName =
      (registrations.reverse.foldl undoAlias registry).byDeclaredName := by
  unfold rollBack
  dsimp only
  generalize registrations.reverse.foldl undoAlias registry = unaliased at h hd hl ⊢
  generalize registrations.filterMap unaliased.doomedBy? = doomed at hd ⊢
  split
  · rfl
  · apply Table.Sorted.ext (ordered_removeRecords h.ordered doomed).byDeclaredName
      h.ordered.byDeclaredName
    intro name
    -- The listed positions are those of records with aliases, and these stay where they are.
    have hstay : follow doomed (unaliased.declarationsOf name) = unaliased.declarationsOf name := by
      unfold follow
      rw [List.filterMap_congr (g := some), List.filterMap_some]
      rintro ⟨source, i⟩ hm
      have hcarries := (h.consistent.declared name source i).1 hm
      have hlt : i < length := by
        by_contra hc
        have := mem_aliasesAt_iff.2 hcarries
        rw [hl i (Nat.not_lt.1 hc)] at this
        cases this
      rw [keepIndex?_eq_self fun j hj => Nat.lt_of_lt_of_le hlt (hd j hj)]
      rfl
    rw [lookup_removeRecords h.ordered]
    unfold declarationsOf at hstay
    cases hlookup : unaliased.byDeclaredName.lookup name with
    | none => rfl
    | some entries =>
      rw [hlookup, Option.getD_some] at hstay
      rw [Option.map_some, hstay, Option.filter_some, if_pos]
      simp only [Bool.not_eq_true', List.isEmpty_eq_false_iff]
      rintro rfl
      exact h.consistent.no_empty name hlookup

section

variable {before after grown : Registry} {pairs : List (TypeDeclaration × String)}
  {registrations : List Registration}

theorem core_undoAliases (grown : Registry) (picks : List Registration) (i : Nat) :
    ((picks.foldl undoAlias grown).records[i]?).map core = (grown.records[i]?).map core := by
  have := congrArg (fun list => list[i]?) (cores_undoAliases grown picks)
  simpa only [cores, List.getElem?_map] using this

/-- Without the aliases of the unit, the records that have been added since have none. -/
theorem RegistersAll.aliasesAt_undone (hr : RegistersAll before after pairs registrations)
    (ho : grown.WellFormed) (hs : SameAliases grown after) (hids : grown.byId = after.byId) {i : Nat}
    (hi : before.records.length ≤ i) :
    (registrations.reverse.foldl undoAlias grown).aliasesAt i = [] := by
  rw [(hr.undo grown ho hs fun id i hi => by rwa [hids]).aliasesAt]
  exact aliasesAt_of_length_le hi

/-- What is removed has been added since. -/
theorem RegistersAll.le_of_doomed (hr : RegistersAll before after pairs registrations)
    (hids : grown.byId = after.byId) : ∀ i ∈ registrations.filterMap
      (registrations.reverse.foldl undoAlias grown).doomedBy?, before.records.length ≤ i := by
  intro i hm
  obtain ⟨registration, hreg, hd⟩ := List.mem_filterMap.1 hm
  obtain ⟨-, -, -, -, hminted, hi⟩ := pending_of_doomedBy? hd
  obtain ⟨index, hle, hindex⟩ := hr.minted registration hreg hminted
  rw [byId_undoAliases, hids, hindex] at hi
  exact Option.some.inj hi ▸ hle

/-- What has been added since and is not removed has been begun. -/
theorem RegistersAll.begun_of_kept (hr : RegistersAll before after pairs registrations)
    (ho : grown.WellFormed) (hs : SameAliases grown after) (hids : grown.byId = after.byId)
    (hlen : grown.records.length = after.records.length) {i : Nat} {record : Record}
    (hi : before.records.length ≤ i)
    (hrecord : (grown.rollBack registrations).records[i]? = some record) :
    record.declared = [] ∧ record.state ≠ .pending ∧
      ∃ j, before.records.length ≤ j ∧ (grown.records[j]?).map core = some (core record) := by
  obtain ⟨j, hj, hrecord⟩ := (getElem?_rollBack grown registrations).1 hrecord
  have hle : before.records.length ≤ j := Nat.le_trans hi (keepIndex?_lt hj)
  have hdeclared : record.declared = [] := by
    have := hr.aliasesAt_undone ho hs hids hle
    unfold aliasesAt at this
    rwa [hrecord] at this
  refine ⟨hdeclared, fun hpending => ?_, j, hle, ?_⟩
  · have hlt : j < after.records.length := by
      rw [← hlen, ← length_cores, ← cores_undoAliases grown registrations.reverse, length_cores]
      exact (List.getElem?_eq_some_iff.1 hrecord).1
    obtain ⟨registration, hreg, hminted, hlookup⟩ := hr.covered j hle hlt
    have hbyId := (byId_undoAliases grown registrations.reverse).trans hids
    generalize registrations.reverse.foldl undoAlias grown = unaliased at hj hrecord hbyId
    refine (keepIndex?_eq_some_iff.1 hj).1 (List.mem_filterMap.2 ⟨registration, hreg, ?_⟩)
    simp [doomedBy?, hbyId, hlookup, hrecord, hminted, hpending, hdeclared]
  · rw [← core_undoAliases grown registrations.reverse, hrecord]
    rfl

/-- Rolling back the registrations of a unit restores the aliases. The records from before stay
where they are, and of the others only those stay whose host type has been begun. -/
theorem rollBack_spec (hr : RegistersAll before after pairs registrations)
    (ho : grown.WellFormed) (hs : SameAliases grown after) (hids : grown.byId = after.byId)
    (hlen : grown.records.length = after.records.length) :
    SameAliases (grown.rollBack registrations) before ∧
      (∀ i < before.records.length,
        ((grown.rollBack registrations).records[i]?).map core = (grown.records[i]?).map core) ∧
      ∀ i record, before.records.length ≤ i →
        (grown.rollBack registrations).records[i]? = some record →
          record.declared = [] ∧ record.state ≠ .pending ∧
            ∃ j, before.records.length ≤ j ∧ (grown.records[j]?).map core = some (core record) := by
  have hback := hr.undo grown ho hs fun id i hi => by rwa [hids]
  have hdoomed := hr.le_of_doomed hids
  have hnew := fun i record => @RegistersAll.begun_of_kept _ _ _ _ _ hr ho hs hids hlen i record
  refine ⟨⟨?_, fun i => ?_⟩, fun i hi => ?_, hnew⟩
  · exact (byDeclaredName_rollBack (wellFormed_undoAliases ho _) hdoomed fun i hi =>
      hr.aliasesAt_undone ho hs hids hi).trans hback.byDeclaredName
  · rcases Nat.lt_or_ge i before.records.length with hi | hi
    · rw [← hback.aliasesAt]
      unfold aliasesAt
      rw [getElem?_rollBack_of_lt hdoomed hi]
    · rw [aliasesAt_of_length_le hi]
      unfold aliasesAt
      cases hrecord : (grown.rollBack registrations).records[i]? with
      | none => rfl
      | some record => exact (hnew i record hi hrecord).1
  · rw [getElem?_rollBack_of_lt hdoomed hi]
    exact core_undoAliases grown registrations.reverse i

end

end UniformLayout.Registry
