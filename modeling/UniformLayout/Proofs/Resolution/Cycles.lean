import UniformLayout.Proofs.Registry.Reachable
import UniformLayout.Proofs.Resolution.Chains
import UniformLayout.Proofs.Resolution.Parts

/-!
# Waves and cycles

A wave takes the pending declarations all of whose chains are short enough, so that wave `k` holds
those whose longest chain has `k` links. Where no declaration is left for the next wave, every
pending one runs into a cycle.

* `deduplicate_of_sameShape`, `resolveReferences_of_known`: what the waves start from.
* `resolveWaves_of_stage`: the induction along the waves, with `Stage` as the invariant.
* `resolve_eq_ok_iff_acyclic`: when a unit resolves, in which waves, and which names a cycle stops.
-/

namespace UniformLayout

open Relation

/-- The declarations without later copies of a name. -/
def firstOfEachName : List TypeDeclaration → List TypeDeclaration
  | [] => []
  | decl :: rest => decl :: (firstOfEachName rest).filter (·.name != decl.name)

/-! ## What the waves start from -/

theorem firstOfEachName_nodup (decls : List TypeDeclaration) :
    (declaredNames (firstOfEachName decls)).Nodup := by
  induction decls with
  | nil => exact List.nodup_nil
  | cons decl rest ih =>
    refine List.nodup_cons.2 ⟨fun hm => ?_, ih.sublist (List.filter_sublist.map _)⟩
    obtain ⟨other, ho, he⟩ := List.mem_map.1 hm
    exact bne_iff_ne.1 (List.mem_filter.1 ho).2 he

theorem firstOfEachName_of_nodup {decls : List TypeDeclaration} (h : (declaredNames decls).Nodup) :
    firstOfEachName decls = decls := by
  induction decls with
  | nil => rfl
  | cons decl rest ih =>
    obtain ⟨hnew, hrest⟩ := List.nodup_cons.1 h
    rw [firstOfEachName, ih hrest, List.filter_eq_self.2]
    intro other ho
    exact bne_iff_ne.2 fun he => hnew (he ▸ List.mem_map_of_mem ho)

theorem addDistinct_of_new {key : String} {distinct : List TypeDeclaration} {decl : TypeDeclaration}
    (h : decl.name ∉ declaredNames distinct) :
    (addDistinct key distinct decl).result = .ok (distinct ++ [decl]) := by
  have hf : distinct.find? (·.name == decl.name) = none := by
    refine List.find?_eq_none.2 fun other ho he => h ?_
    exact eq_of_beq he ▸ List.mem_map_of_mem ho
  simp only [addDistinct, hf]
  rfl

theorem addDistinct_of_copy {key : String} {distinct : List TypeDeclaration}
    {decl : TypeDeclaration} (hm : decl.name ∈ declaredNames distinct)
    (h : ∀ first ∈ distinct, first.name = decl.name → first.sameShape decl = true) :
    (addDistinct key distinct decl).result = .ok distinct := by
  obtain ⟨other, ho, he⟩ := List.mem_map.1 hm
  have hsome : (distinct.find? (·.name == decl.name)).isSome :=
    List.find?_isSome.2 ⟨other, ho, beq_iff_eq.2 he⟩
  obtain ⟨first, hf⟩ := Option.isSome_iff_exists.1 hsome
  have hs := h first (List.mem_of_find?_eq_some hf) (eq_of_beq (List.find?_some hf :))
  simp only [addDistinct, hf, hs]
  rfl

/-- Where copies of a name have the same shape, the later ones are dropped. The induction is on the
declarations that are still to come. -/
theorem foldlM_addDistinct {key : String} {kept rest : List TypeDeclaration}
    (h : ∀ first ∈ kept ++ rest, ∀ copy ∈ kept ++ rest,
      first.name = copy.name → first.sameShape copy = true) :
    (rest.foldlM (addDistinct key) kept).result =
      .ok (kept ++ (firstOfEachName rest).filter (·.name ∉ declaredNames kept)) := by
  induction rest generalizing kept with
  | nil =>
    rw [firstOfEachName, List.filter_nil, List.append_nil]
    rfl
  | cons decl rest ih =>
    rw [List.foldlM_cons, Logged.result_bind_eq_ok_iff, firstOfEachName]
    by_cases hold : decl.name ∈ declaredNames kept
    · have hsub : ∀ other ∈ kept ++ rest, other ∈ kept ++ decl :: rest := by
        intro other ho
        rcases List.mem_append.1 ho with ho | ho
        · exact List.mem_append_left _ ho
        · exact List.mem_append_right _ (List.mem_cons_of_mem _ ho)
      refine ⟨kept, addDistinct_of_copy hold fun first hm he => ?_, ?_⟩
      · exact h first (List.mem_append_left _ hm) decl (by simp) he
      · rw [ih fun a ha b hb => h a (hsub a ha) b (hsub b hb),
          List.filter_cons_of_neg (by simpa using hold), List.filter_filter]
        congr 2
        apply List.filter_congr
        intro other _
        by_cases he : other.name = decl.name
        · simp [he, hold]
        · simp [he]
    · refine ⟨kept ++ [decl], addDistinct_of_new hold, ?_⟩
      rw [ih (by simpa using h), List.filter_cons_of_pos (by simpa using hold), List.append_assoc,
        List.singleton_append, List.filter_filter]
      congr 3
      apply List.filter_congr
      intro other _
      rw [Bool.eq_iff_iff]
      simp

theorem deduplicate_of_sameShape {decls : List TypeDeclaration} (key : String)
    (h : ∀ first ∈ decls, ∀ copy ∈ decls, first.name = copy.name → first.sameShape copy = true) :
    (deduplicate key decls).result = .ok (firstOfEachName decls) := by
  unfold deduplicate
  rw [foldlM_addDistinct (by simpa using h)]
  simp

/-- What is known has been taken from the registry, under its name. -/
def Resolution.KnowsReused (resolution : Resolution) : Prop :=
  ∀ name, resolution.knows name = true → name ∈ resolution.reused.map ReusedType.name

theorem resolveReference_of_known {registry : Registry} {key name : String}
    (owner : TypeDeclaration) {resolution : Resolution} {identity : TypeIdentity}
    (h : resolution.KnowsReused) (hi : registry.resolveDeclaredIn? name key = some identity)
    (hd : (registry.descriptorOfHash? identity.contentHash).isSome) :
    ∃ after, resolveReference registry key owner resolution name = .ok after ∧
      after.KnowsReused ∧ after.knows name = true ∧
      ∀ other, resolution.knows other = true → after.knows other = true := by
  obtain ⟨descriptor, hd⟩ := Option.isSome_iff_exists.1 hd
  unfold resolveReference
  split
  · rename_i hk
    exact ⟨resolution, rfl, h, hk, fun _ ho => ho⟩
  · refine ⟨_, by simp only [hi, Option.bind_some, hd]; rfl, ?_, ?_, ?_⟩
    · intro other ho
      rw [List.map_append, List.mem_append]
      by_cases he : other = name
      · exact Or.inr (List.mem_singleton.2 he)
      · refine Or.inl (h other ?_)
        rwa [Resolution.knows, Table.lookup_insert_of_ne he] at ho
    · rw [Resolution.knows, Table.lookup_insert_self]
      rfl
    · intro other ho
      by_cases he : other = name
      · rw [Resolution.knows, he, Table.lookup_insert_self]
        rfl
      · rwa [Resolution.knows, Table.lookup_insert_of_ne he]

/-- The registry has generated what the name leads to from the source. -/
def Registry.HasType (registry : Registry) (key name : String) : Prop :=
  ∃ identity, registry.resolveDeclaredIn? name key = some identity ∧
    (registry.descriptorOfHash? identity.contentHash).isSome

theorem resolveReferences_of_known {registry : Registry} {key : String}
    {decls : List TypeDeclaration} (h : ∀ decl ∈ decls, ∀ name ∈ decl.dependencies,
      name ∉ declaredNames decls → registry.HasType key name) :
    ∃ referenced, resolveReferences registry key decls = .ok referenced ∧
      referenced.KnowsReused ∧ ∀ decl ∈ decls, ∀ name ∈ decl.dependencies,
        name ∉ declaredNames decls → referenced.knows name = true := by
  have hfold : ∀ (references : List (TypeDeclaration × String)) (before : Resolution),
      before.KnowsReused → (∀ reference ∈ references, registry.HasType key reference.2) →
      ∃ after, references.foldlM (fun resolution reference =>
          resolveReference registry key reference.1 resolution reference.2) before = .ok after ∧
        after.KnowsReused ∧ (∀ reference ∈ references, after.knows reference.2 = true) ∧
        ∀ name, before.knows name = true → after.knows name = true := by
    intro references
    induction references with
    | nil =>
      intro before hb _
      exact ⟨before, rfl, hb, by simp, fun _ hk => hk⟩
    | cons reference rest ih =>
      intro before hb hall
      obtain ⟨⟨identity, hi, hd⟩, hrest⟩ := List.forall_mem_cons.1 hall
      obtain ⟨next, hn, hnext, hknown, hkeep⟩ :=
        resolveReference_of_known reference.1 hb hi hd
      obtain ⟨after, ha, hafter, hknows, hkeeps⟩ := ih next hnext hrest
      refine ⟨after, ?_, hafter, ?_, fun name hk => hkeeps name (hkeep name hk)⟩
      · rw [List.foldlM_cons, hn, ok_bind]
        exact ha
      · exact List.forall_mem_cons.2 ⟨hkeeps _ hknown, hknows⟩
  unfold resolveReferences
  obtain ⟨referenced, hr, hcovered, hknows, -⟩ := hfold (decls.flatMap fun decl =>
    (decl.dependencies.filter (!(decls.map TypeDeclaration.name).contains ·)).map (decl, ·)) {}
    (fun _ hk => by cases hk) (by
      intro reference hm
      obtain ⟨decl, hdecl, hm⟩ := List.mem_flatMap.1 hm
      obtain ⟨name, hname, rfl⟩ := List.mem_map.1 hm
      obtain ⟨hdependency, hnot⟩ := List.mem_filter.1 hname
      exact h decl hdecl name hdependency (by simpa [declaredNames] using hnot))
  refine ⟨referenced, hr, hcovered, fun decl hm name hn hnot => ?_⟩
  refine hknows (decl, name) (List.mem_flatMap.2 ⟨decl, hm, List.mem_map.2 ⟨name, ?_, rfl⟩⟩)
  exact List.mem_filter.2 ⟨hn, by simpa [declaredNames] using hnot⟩

/-! ## The waves -/

/-- The declarations that are pending when all chains with fewer links have been handled. -/
structure Pending (decls : List TypeDeclaration) (links : Nat) (pending : List TypeDeclaration) :
    Prop where
  sublist : pending.Sublist decls
  mem_iff : ∀ decl ∈ decls, decl ∈ pending ↔ ¬ Below decls links decl.name

/-- A wave holds the names whose longest chain has the given number of links, in source order. -/
def IsWave (decls : List TypeDeclaration) (links : Nat) (wave : List String) : Prop :=
  wave.Sublist (declaredNames decls) ∧
    ∀ name ∈ declaredNames decls, name ∈ wave ↔ LongestChain decls name links

/-- What a resolution holds after a number of waves. -/
structure Stage (decls : List TypeDeclaration) (links : Nat) (resolution : Resolution) : Prop where
  length : resolution.waves.length = links
  waves : ∀ k wave, resolution.waves[k]? = some wave → IsWave decls k wave
  knows : ∀ decl ∈ decls, ∀ name ∈ decl.dependencies,
    resolution.knows name = true ↔ name ∉ declaredNames decls ∨ Below decls links name

section Waves

variable {registry : Registry} {key : String} {decls pending : List TypeDeclaration} {links : Nat}
  {resolution : Resolution}

theorem eq_of_name_eq (hn : (declaredNames decls).Nodup) {decl other : TypeDeclaration}
    (hd : decl ∈ decls) (ho : other ∈ decls) (he : decl.name = other.name) : decl = other :=
  List.inj_on_of_nodup_map hn hd ho he

theorem uses_iff (hn : (declaredNames decls).Nodup) {decl : TypeDeclaration} (hd : decl ∈ decls)
    {name : String} :
    Uses decls decl.name name ↔ name ∈ declaredNames decls ∧ name ∈ decl.dependencies := by
  constructor
  · rintro ⟨hdeclared, other, ho, he, hm⟩
    rw [eq_of_name_eq hn ho hd he] at hm
    exact ⟨hdeclared, hm⟩
  · rintro ⟨hdeclared, hm⟩
    exact ⟨hdeclared, decl, hd, rfl, hm⟩

/-- A declaration is ready when all its chains are short enough for the next wave. -/
theorem Stage.isReady_iff (h : Stage decls links resolution) (hn : (declaredNames decls).Nodup)
    {decl : TypeDeclaration} (hd : decl ∈ decls) :
    resolution.isReady decl = true ↔ Below decls (links + 1) decl.name := by
  rw [Resolution.isReady, List.all_eq_true, below_succ_iff]
  constructor
  · intro hall next huses
    obtain ⟨hdeclared, hm⟩ := (uses_iff hn hd).1 huses
    exact ((h.knows decl hd next hm).1 (hall next hm)).resolve_left fun hnot => hnot hdeclared
  · intro hall name hm
    refine (h.knows decl hd name hm).2 ?_
    by_cases hdeclared : name ∈ declaredNames decls
    · exact Or.inr (hall name ((uses_iff hn hd).2 ⟨hdeclared, hm⟩))
    · exact Or.inl hdeclared

/-- The declarations of the next wave are those whose longest chain has one link more than the
longest ones of the wave before. -/
theorem mem_ready_iff (h : Stage decls links resolution) (hp : Pending decls links pending)
    (hn : (declaredNames decls).Nodup) {decl : TypeDeclaration} (hd : decl ∈ decls) :
    decl ∈ resolution.ready pending ↔ LongestChain decls decl.name links := by
  rw [Resolution.ready, List.mem_filter, hp.mem_iff decl hd, h.isReady_iff hn hd, longestChain_iff]

theorem mem_map_name_iff (hn : (declaredNames decls).Nodup) (hs : pending ⊆ decls)
    {decl : TypeDeclaration} (hd : decl ∈ decls) :
    decl.name ∈ declaredNames pending ↔ decl ∈ pending := by
  constructor
  · intro hm
    obtain ⟨other, ho, he⟩ := List.mem_map.1 hm
    rwa [← eq_of_name_eq hn (hs ho) hd he]
  · exact fun hm => List.mem_map_of_mem hm

/-- The names of the next wave. -/
theorem isWave_ready (h : Stage decls links resolution) (hp : Pending decls links pending)
    (hn : (declaredNames decls).Nodup) :
    IsWave decls links (declaredNames (resolution.ready pending)) := by
  have hsub : (resolution.ready pending).Sublist decls := List.filter_sublist.trans hp.sublist
  refine ⟨hsub.map _, fun name hm => ?_⟩
  obtain ⟨decl, hd, rfl⟩ := List.mem_map.1 hm
  rw [mem_map_name_iff hn hsub.subset hd, mem_ready_iff h hp hn hd]

theorem knows_addAll (registry : Registry) {ready : List TypeDeclaration} {name : String} :
    (resolution.addAll registry ready).knows name = true ↔
      resolution.knows name = true ∨ name ∈ declaredNames ready := by
  induction ready generalizing resolution with
  | nil => simp [Resolution.addAll]
  | cons decl rest ih =>
    refine ih.trans ?_
    rw [knows_addDeclaration, declaredNames_cons, List.mem_cons]
    exact or_assoc.trans or_left_comm

/-- A wave leads to the next stage. -/
theorem Stage.addWave (h : Stage decls links resolution) (hp : Pending decls links pending)
    (hn : (declaredNames decls).Nodup) (registry : Registry) :
    Stage decls (links + 1) (resolution.addWave registry (resolution.ready pending)) := by
  have hwave := isWave_ready h hp hn
  have hwaves : (resolution.addWave registry (resolution.ready pending)).waves =
      resolution.waves ++ [declaredNames (resolution.ready pending)] :=
    congrArg (· ++ _) (waves_addAll registry resolution _)
  refine ⟨?_, ?_, ?_⟩
  · rw [hwaves, List.length_append, h.length, List.length_singleton]
  · intro k wave hk
    rw [hwaves] at hk
    rcases Nat.lt_or_ge k resolution.waves.length with hlt | hge
    · rw [List.getElem?_append_left hlt] at hk
      exact h.waves k wave hk
    · rw [List.getElem?_append_right hge, List.getElem?_singleton] at hk
      split at hk
      · obtain rfl := Option.some.inj hk
        rw [h.length] at hge
        obtain rfl : k = links := by
          have := h.length
          omega
        exact hwave
      · cases hk
  · intro decl hd name hm
    refine (knows_addAll registry).trans ?_
    rw [h.knows decl hd name hm]
    by_cases hdeclared : name ∈ declaredNames decls
    · rw [hwave.2 name hdeclared, longestChain_iff]
      constructor
      · rintro ((hnot | hbelow) | ⟨-, hbelow⟩)
        · exact Or.inl hnot
        · exact Or.inr hbelow.succ
        · exact Or.inr hbelow
      · rintro (hnot | hbelow)
        · exact Or.inl (Or.inl hnot)
        · by_cases hold : Below decls links name
          · exact Or.inl (Or.inr hold)
          · exact Or.inr ⟨hold, hbelow⟩
    · exact iff_of_true (Or.inl (Or.inl hdeclared)) (Or.inl hdeclared)

theorem Pending.blocked (h : Stage decls links resolution) (hp : Pending decls links pending)
    (hn : (declaredNames decls).Nodup) :
    Pending decls (links + 1) (resolution.blocked pending) := by
  refine ⟨List.filter_sublist.trans hp.sublist, fun decl hd => ?_⟩
  rw [Resolution.blocked, List.mem_filter, hp.mem_iff decl hd, Bool.not_eq_true',
    ← Bool.not_eq_true, h.isReady_iff hn hd]
  exact and_iff_right_of_imp fun hnot hbelow => hnot hbelow.succ

/-- Where no pending declaration is ready, each of them uses another one, so that their chains go on
for ever. -/
theorem reachesCycle_iff_of_stuck (h : Stage decls links resolution)
    (hp : Pending decls links pending) (hn : (declaredNames decls).Nodup)
    (hstuck : resolution.ready pending = []) {decl : TypeDeclaration} (hd : decl ∈ decls) :
    ReachesCycle decls decl.name ↔ decl ∈ pending := by
  have hnext : ∀ name ∈ declaredNames decls, ¬ Below decls links name →
      ∀ more, ¬ Below decls (links + more) name := by
    intro name hm hnot more
    induction more generalizing name with
    | zero => exact hnot
    | succ more ih =>
      intro hbelow
      have hlong : ¬ LongestChain decls name links := by
        obtain ⟨other, ho, rfl⟩ := List.mem_map.1 hm
        rw [← mem_ready_iff h hp hn ho, hstuck]
        exact List.not_mem_nil
      rw [longestChain_iff, not_and] at hlong
      have hone := hlong hnot
      rw [below_succ_iff] at hone
      push Not at hone
      obtain ⟨next, huses, hnot⟩ := hone
      exact ih next huses.1 hnot (below_succ_iff.1 hbelow next huses)
  rw [hp.mem_iff decl hd]
  constructor
  · exact not_below_of_reachesCycle
  · intro hnot
    have hlong := hnext decl.name (List.mem_map_of_mem hd) hnot (decls.length + 1)
    unfold Below at hlong
    push Not at hlong
    obtain ⟨k, hk, hle⟩ := hlong
    exact reachesCycle_of_hasChain (hk.of_le (by omega))

/-- The waves end when nothing is pending, or when all that is pending runs into a cycle. The
induction follows the waves. -/
theorem resolveWaves_of_stage (hn : (declaredNames decls).Nodup)
    (h : Stage decls links resolution) (hp : Pending decls links pending) :
    (∃ after, resolveWaves registry key resolution pending = .ok after ∧
        (∀ decl ∈ decls, ¬ ReachesCycle decls decl.name) ∧
        ∀ k wave, after.waves[k]? = some wave → IsWave decls k wave) ∨
      ∃ stuck, resolveWaves registry key resolution pending =
          .error (.circularDependency key (declaredNames stuck)) ∧
        stuck.Sublist decls ∧ (∃ decl ∈ decls, ReachesCycle decls decl.name) ∧
        ∀ decl ∈ decls, decl ∈ stuck ↔ ReachesCycle decls decl.name := by
  induction hl : pending.length using Nat.strongRecOn generalizing links resolution pending with
  | _ length ih =>
    subst hl
    rw [resolveWaves]
    by_cases hempty : pending = []
    · left
      subst hempty
      refine ⟨resolution, rfl, fun decl hd hc => ?_, h.waves⟩
      exact List.not_mem_nil ((hp.mem_iff decl hd).2 (not_below_of_reachesCycle hc))
    · rw [if_neg (by simpa using hempty)]
      by_cases hready : resolution.ready pending = []
      · right
        rw [dif_pos hready]
        have hiff := fun decl (hd : decl ∈ decls) =>
          reachesCycle_iff_of_stuck h hp hn hready hd
        refine ⟨pending, rfl, hp.sublist, ?_, fun decl hd => (hiff decl hd).symm⟩
        obtain ⟨decl, hm⟩ := List.exists_mem_of_ne_nil _ hempty
        have hd := hp.sublist.subset hm
        exact ⟨decl, hd, (hiff decl hd).2 hm⟩
      · rw [dif_neg hready]
        exact ih _ (blocked_length_lt hready) (h.addWave hp hn registry) (hp.blocked h hn) rfl

/-- The waves of a unit start from what it refers to. -/
theorem stage_references {referenced : Resolution}
    (hr : resolveReferences registry key decls = .ok referenced)
    (hk : ∀ decl ∈ decls, ∀ name ∈ decl.dependencies,
      name ∉ declaredNames decls → referenced.knows name = true) : Stage decls 0 referenced := by
  have hwaves := (resolveReferences_spec hr).waves
  refine ⟨by rw [hwaves]; rfl, fun k wave h => ?_, fun decl hd name hm => ?_⟩
  · rw [hwaves] at h
    cases h
  · constructor
    · exact fun h => Or.inl ((resolveReferences_borrows hr).undeclared name h).1
    · rintro (hnot | hbelow)
      · exact hk decl hd name hm hnot
      · exact absurd hbelow (not_below_zero decls name)

theorem pending_all (decls : List TypeDeclaration) : Pending decls 0 decls :=
  ⟨List.Sublist.refl _, fun decl hd => iff_of_true hd (not_below_zero decls decl.name)⟩

end Waves

/-! ## Resolved units -/

/-- A unit of the given declarations, each with its own name, that is resolved in waves. -/
structure Resolution.Layered (decls : List TypeDeclaration) (resolution : Resolution) : Prop where
  /-- Each declared name is in one wave. -/
  once : resolution.waves.flatten.Perm (declaredNames decls)
  waves : ∀ k wave, resolution.waves[k]? = some wave → IsWave decls k wave
  /-- Each declaration gets a layout or is reused, and not both. -/
  placed : (resolution.order.map ResolvedType.declaration ++
    resolution.reused.filterMap ReusedType.declaration).Perm decls
  earlier : ∀ before entry after, resolution.order = before ++ entry :: after →
    ∀ name ∈ entry.declaration.dependencies, name ∈ resolution.reused.map ReusedType.name ∨
      name ∈ before.map (·.declaration.name)

section Parts

variable {registry : Registry} {hash : TypeDeclaration → String}

theorem declaration_newTypes (decls : List TypeDeclaration) :
    (newTypes registry hash decls).map ResolvedType.declaration =
      decls.filter fun decl => !(registry.descriptorOfHash? (hash decl)).isSome := by
  induction decls with
  | nil => rfl
  | cons decl rest ih =>
    unfold newTypes at ih ⊢
    rw [List.filterMap_cons, List.filter_cons]
    cases (registry.descriptorOfHash? (hash decl)).isSome with
    | true => exact ih
    | false => exact congrArg (decl :: ·) ih

theorem declaration_knownTypes (decls : List TypeDeclaration) :
    (knownTypes registry hash decls).filterMap ReusedType.declaration =
      decls.filter fun decl => (registry.descriptorOfHash? (hash decl)).isSome := by
  unfold knownTypes
  rw [List.filterMap_filterMap, ← List.filterMap_eq_filter]
  congr 1
  funext decl
  cases hd : registry.descriptorOfHash? (hash decl) with
  | none => simp [Option.guard, hd]
  | some descriptor => simp [Option.guard, hd]

/-- What stands before a declaration that needs a layout is laid out before it, or is known. -/
theorem newTypes_eq_append {decls : List TypeDeclaration} {before after : List ResolvedType}
    {entry : ResolvedType} (h : newTypes registry hash decls = before ++ entry :: after) :
    ∃ front back, decls = front ++ entry.declaration :: back ∧
      newTypes registry hash front = before := by
  unfold newTypes at h ⊢
  obtain ⟨front, rest, rfl, hfront, hrest⟩ := List.filterMap_eq_append_iff.1 h
  obtain ⟨skipped, decl, back, rfl, hskipped, hentry, -⟩ := List.filterMap_eq_cons_iff.1 hrest
  refine ⟨front ++ skipped, back, ?_, ?_⟩
  · split at hentry
    · cases hentry
    · obtain rfl := Option.some.inj hentry
      exact (List.append_assoc _ _ _).symm
  · rw [List.filterMap_append, hfront, List.filterMap_eq_nil_iff.2 hskipped, List.append_nil]

theorem mem_types_of_mem (registry : Registry) (hash : TypeDeclaration → String)
    {decls : List TypeDeclaration} {name : String} (h : name ∈ declaredNames decls) :
    name ∈ (knownTypes registry hash decls).map ReusedType.name ∨
      name ∈ (newTypes registry hash decls).map (·.declaration.name) := by
  obtain ⟨decl, hd, rfl⟩ := List.mem_map.1 h
  cases hk : registry.descriptorOfHash? (hash decl) with
  | some descriptor =>
    refine Or.inl (List.mem_map.2 ⟨⟨decl.name, descriptor, some decl⟩, ?_, rfl⟩)
    exact List.mem_filterMap.2 ⟨decl, hd, by rw [hk]; rfl⟩
  | none =>
    refine Or.inr (List.mem_map.2 ⟨⟨decl, hash decl⟩, ?_, rfl⟩)
    exact List.mem_filterMap.2 ⟨decl, hd, by rw [hk]; rfl⟩

end Parts

section Units

variable {registry : Registry} {key : String} {decls distinct handled : List TypeDeclaration}
  {resolution referenced : Resolution}

theorem Resolution.Course.layered
    (hc : resolution.Course registry key decls distinct handled referenced)
    (hk : referenced.KnowsReused)
    (hw : ∀ k wave, resolution.waves[k]? = some wave → IsWave distinct k wave) :
    resolution.Layered distinct := by
  obtain ⟨horder, hreused⟩ := hc.parts
  have hrefers := resolveReferences_spec hc.references
  refine ⟨?_, hw, ?_, ?_⟩
  · rw [hc.waves]
    exact hc.perm.map _
  · have hnone : referenced.reused.filterMap ReusedType.declaration = [] :=
      List.filterMap_eq_nil_iff.2 fun entry hm => (hrefers.reused entry hm).1
    rw [horder, hreused, List.filterMap_append, hnone, List.nil_append, declaration_newTypes,
      declaration_knownTypes]
    refine List.Perm.trans ?_ hc.perm
    exact List.perm_append_comm.trans (List.filter_append_perm _ handled)
  · intro before entry after hsplit name hm
    rw [horder] at hsplit
    obtain ⟨front, back, rfl, hfront⟩ := newTypes_eq_append hsplit
    rw [hreused, List.map_append, List.mem_append]
    rcases handles_order hc.handles name hm with hknown | hfirst
    · exact Or.inl (Or.inl (hk name hknown))
    · rcases mem_types_of_mem registry resolution.hashOf hfirst with hname | hname
      · refine Or.inl (Or.inr ?_)
        unfold knownTypes at hname ⊢
        rw [List.filterMap_append, List.map_append]
        exact List.mem_append_left _ hname
      · rw [hfront] at hname
        exact Or.inr hname

/-- Let copies of a name have the same shape, and let the registry have generated every type that the
unit uses and does not declare. Then the unit resolves exactly when no declared name depends on
itself. The waves follow the longest chains; what gets a layout comes after all that it uses; and
where there is a cycle, the error lists the names from which a path runs into one, in source order.
Either way the registry is only read. -/
theorem resolve_eq_ok_iff_acyclic
    (hcopies : ∀ first ∈ decls, ∀ copy ∈ decls,
      first.name = copy.name → first.sameShape copy = true)
    (hknown : ∀ decl ∈ firstOfEachName decls, ∀ field ∈ decl.fields, field.baseType? = none →
      field.typeName ∉ declaredNames (firstOfEachName decls) →
        ∃ identity, registry.resolveDeclaredIn? field.typeName key = some identity ∧
          (registry.descriptorOfHash? identity.contentHash).isSome) :
    ((∃ resolution, (resolve registry key decls).result = .ok resolution) ↔
        ∀ name, ¬ TransGen (Uses (firstOfEachName decls)) name name) ∧
      (∀ resolution, (resolve registry key decls).result = .ok resolution →
        resolution.Layered (firstOfEachName decls)) ∧
      ((∃ name, TransGen (Uses (firstOfEachName decls)) name name) →
        ∃ names, (resolve registry key decls).result = .error (.circularDependency key names) ∧
          names.Sublist (declaredNames (firstOfEachName decls)) ∧
          ∀ name ∈ declaredNames (firstOfEachName decls),
            name ∈ names ↔ ReachesCycle (firstOfEachName decls) name) := by
  have hdistinct := deduplicate_of_sameShape key hcopies
  have hn := firstOfEachName_nodup decls
  have hneeds : ∀ decl ∈ firstOfEachName decls, ∀ name ∈ decl.dependencies,
      name ∉ declaredNames (firstOfEachName decls) → registry.HasType key name := by
    intro decl hd name hm
    obtain ⟨field, hf, hb, rfl⟩ := mem_dependencies.1 hm
    exact hknown decl hd field hf hb
  obtain ⟨referenced, hr, hreused, hk⟩ := resolveReferences_of_known hneeds
  have hresult : (resolve registry key decls).result =
      resolveWaves registry key referenced (firstOfEachName decls) := by
    unfold resolve
    rw [Logged.result_bind_of_ok hdistinct, Logged.result_bind_of_ok hr]
    rfl
  rw [hresult]
  rcases resolveWaves_of_stage hn (stage_references hr hk) (pending_all _) with
    ⟨resolution, hw, hacyclic, hwaves⟩ | ⟨stuck, hw, hsub, ⟨decl, hd, hc⟩, hiff⟩
  · have hnone : ∀ name, ¬ TransGen (Uses (firstOfEachName decls)) name name := by
      intro name hcycle
      obtain ⟨next, huses, -⟩ := TransGen.head'_iff.1 hcycle
      obtain ⟨decl, hd, rfl⟩ := List.mem_map.1 huses.declared
      exact hacyclic decl hd ⟨decl.name, ReflTransGen.refl, hcycle⟩
    refine ⟨iff_of_true ⟨resolution, hw⟩ hnone, fun other ho => ?_,
      fun ⟨name, hcycle⟩ => absurd hcycle (hnone name)⟩
    obtain rfl := Except.ok.inj (hw.symm.trans ho)
    obtain ⟨handled, hperm, hhandles, hflat, hafter⟩ := resolveWaves_eq_ok hw
    rw [(resolveReferences_spec hr).waves] at hflat
    have hcourse : resolution.Course registry key decls _ handled referenced :=
      ⟨deduplicate_spec hdistinct, hr, hperm, hhandles, hflat, hafter⟩
    exact hcourse.layered hreused hwaves
  · have hcycle : ∃ name, TransGen (Uses (firstOfEachName decls)) name name := by
      obtain ⟨name, -, hcycle⟩ := hc
      exact ⟨name, hcycle⟩
    refine ⟨iff_of_false ?_ fun hnone => ?_, fun resolution ho => ?_, fun _ => ?_⟩
    · rintro ⟨resolution, ho⟩
      rw [hw] at ho
      cases ho
    · obtain ⟨name, hcycle⟩ := hcycle
      exact hnone name hcycle
    · rw [hw] at ho
      cases ho
    · refine ⟨_, hw, hsub.map _, fun name hm => ?_⟩
      obtain ⟨decl, hd, rfl⟩ := List.mem_map.1 hm
      rw [mem_map_name_iff hn hsub.subset hd, hiff decl hd]

/-- A struct whose fields are called by their types. -/
def structOf (name : String) (types : List String) : TypeDeclaration where
  name
  kind := .struct
  fields := types.map fun type => { typeName := type, name := type.toLower }

/-- A type that uses itself, one that uses this one, a copy of that, and one on its own. -/
def knot : List TypeDeclaration :=
  [structOf "Tail" ["Knot", "Lamp"], structOf "Knot" ["vec4", "Knot"],
    structOf "Tail" ["Knot", "Lamp"], structOf "Lone" ["Lamp", "vec4"]]

/-- A registry that has generated an empty struct `Lamp`. -/
def lampRegistry : Registry :=
  let identity := Registry.firstRegistration.1.identity
  Registry.firstRegistration.2.completeGeneration identity.persistentId
    { identity
      layout :=
        { name := "Lamp", kind := .struct, contentHash := "cafe", size := 16, alignment := 16,
          fields := [] } }

/-- The error names the cycle and what depends on it. -/
theorem resolve_eq_ok_iff_acyclic_knot :
    (∀ first ∈ knot, ∀ copy ∈ knot, first.name = copy.name → first.sameShape copy = true) ∧
      (∀ decl ∈ firstOfEachName knot, ∀ field ∈ decl.fields, field.baseType? = none →
        field.typeName ∉ declaredNames (firstOfEachName knot) →
          ∃ identity, lampRegistry.resolveDeclaredIn? field.typeName "knot.glsl" = some identity ∧
            (lampRegistry.descriptorOfHash? identity.contentHash).isSome) ∧
      ∃ names, (resolve lampRegistry "knot.glsl" knot).result =
          .error (.circularDependency "knot.glsl" names) ∧
        "Knot" ∈ names ∧ "Tail" ∈ names ∧ "Lone" ∉ names := by
  have hcopies : ∀ first ∈ knot, ∀ copy ∈ knot,
      first.name = copy.name → first.sameShape copy = true := by
    decide +kernel
  have hlamp : ∀ decl ∈ firstOfEachName knot, ∀ field ∈ decl.fields, field.baseType? = none →
      field.typeName ∉ declaredNames (firstOfEachName knot) → field.typeName = "Lamp" := by
    decide +kernel
  have hknown : ∀ decl ∈ firstOfEachName knot, ∀ field ∈ decl.fields, field.baseType? = none →
      field.typeName ∉ declaredNames (firstOfEachName knot) →
        ∃ identity, lampRegistry.resolveDeclaredIn? field.typeName "knot.glsl" = some identity ∧
          (lampRegistry.descriptorOfHash? identity.contentHash).isSome := by
    intro decl hd field hf hb hn
    rw [hlamp decl hd field hf hb hn]
    exact ⟨Registry.firstRegistration.1.identity, by decide +kernel, by decide +kernel⟩
  have hself : TransGen (Uses (firstOfEachName knot)) "Knot" "Knot" := by
    refine TransGen.single ⟨by decide +kernel, structOf "Knot" ["vec4", "Knot"], ?_⟩
    decide +kernel
  have htail : Uses (firstOfEachName knot) "Tail" "Knot" := by
    refine ⟨by decide +kernel, structOf "Tail" ["Knot", "Lamp"], ?_⟩
    decide +kernel
  have hlone : ¬ ReachesCycle (firstOfEachName knot) "Lone" := by
    have hnone : ∀ decl ∈ firstOfEachName knot, decl.name = "Lone" →
        ∀ next ∈ decl.dependencies, next ∉ declaredNames (firstOfEachName knot) := by
      decide +kernel
    intro hc
    obtain ⟨next, ⟨hdeclared, decl, hd, hname, hm⟩, -⟩ := hc.next
    exact hnone decl hd hname next hm hdeclared
  obtain ⟨names, herror, -, hiff⟩ :=
    (resolve_eq_ok_iff_acyclic hcopies hknown).2.2 ⟨"Knot", hself⟩
  refine ⟨hcopies, hknown, names, herror, ?_, ?_, ?_⟩
  · exact (hiff "Knot" (by decide +kernel)).2 ⟨"Knot", ReflTransGen.refl, hself⟩
  · exact (hiff "Tail" (by decide +kernel)).2 ⟨"Knot", ReflTransGen.single htail, hself⟩
  · exact fun hm => hlone ((hiff "Lone" (by decide +kernel)).1 hm)

end Units

end UniformLayout
