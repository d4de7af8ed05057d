import UniformLayout.Proofs.Resolution.Cycles
import Mathlib.Data.List.Perm.Basic

/-!
# Declarations in another order

The source order of declarations decides the order inside the waves and nothing else. What a unit refers
to is looked up in the registry name by name; a wave takes the declarations whose field types are known;
and each of them gets its hash from those of the waves before, as long as no declaration of a wave has
the name of a base type that another one in the wave uses.

* `Resolution.Reorders`, `Reordered`: two outcomes that differ in the order of declarations only.
* `Refers`: what a unit takes from the registry, whatever the order in which it refers to it.
* `WavesApart`: no declaration is named like a field type of another one in its wave.
* `Resolution.Reorders.addWave`: the step from one wave to the next; `resolveWaves_perm` is the run.

Main statement: `resolve_perm`.
-/

namespace UniformLayout

/-! ## Outcomes that differ in order -/

/-- The two resolutions have the same waves, types and hashes, in another order. -/
structure Resolution.Reorders (a b : Resolution) : Prop where
  waves : List.Forall₂ List.Perm a.waves b.waves
  order : a.order.Perm b.order
  reused : a.reused.Perm b.reused
  hashes : ∀ name, a.hashes.lookup name = b.hashes.lookup name

/-- Both outcomes are resolutions that differ in order, or errors of one kind. -/
inductive Reordered : Except CompileError Resolution → Except CompileError Resolution → Prop
  | ok {a b : Resolution} : a.Reorders b → Reordered (.ok a) (.ok b)
  | unknownType (key owner name owner' name' : String) :
      Reordered (.error (.unknownType key owner name)) (.error (.unknownType key owner' name'))
  | circularDependency (key : String) {names names' : List String} : names.Perm names' →
      Reordered (.error (.circularDependency key names)) (.error (.circularDependency key names'))

variable {registry : Registry} {key : String} {decls : List TypeDeclaration}

/-! ## What the unit refers to -/

/-- The layout that a name of another source has in the unit. -/
def Registry.layoutIn? (registry : Registry) (key name : String) : Option LayoutDescriptor :=
  (registry.resolveDeclaredIn? name key).bind fun identity =>
    registry.descriptorOfHash? identity.contentHash

/-- The names that are taken from the registry, each once, and their hashes. -/
structure Refers (registry : Registry) (key : String) (names : List String) (resolution : Resolution) :
    Prop where
  lookup : ∀ name hash, resolution.hashes.lookup name = some hash ↔
    name ∈ names ∧ ∃ descriptor, registry.layoutIn? key name = some descriptor ∧
      descriptor.identity.contentHash = hash
  nodup : (resolution.reused.map ReusedType.name).Nodup
  mem : ∀ entry, entry ∈ resolution.reused ↔ entry.name ∈ names ∧ entry.declaration = none ∧
    registry.layoutIn? key entry.name = some entry.descriptor

theorem refers_nothing (registry : Registry) (key : String) : Refers registry key [] {} where
  lookup _ _ := by simp
  nodup := List.nodup_nil
  mem _ := by simp

theorem Refers.knows_iff {names : List String} {resolution : Resolution}
    (h : Refers registry key names resolution) {name : String} :
    resolution.knows name ↔ name ∈ names ∧ (registry.layoutIn? key name).isSome := by
  rw [Resolution.knows, Option.isSome_iff_exists, Option.isSome_iff_exists]
  simp only [h.lookup]
  constructor
  · rintro ⟨hash, hname, descriptor, hd, -⟩
    exact ⟨hname, descriptor, hd⟩
  · rintro ⟨hname, descriptor, hd⟩
    exact ⟨_, hname, descriptor, hd, rfl⟩

/-- Only which names there are counts. -/
theorem Refers.congr {names names' : List String} {resolution : Resolution}
    (h : Refers registry key names resolution) (hn : ∀ name, name ∈ names' ↔ name ∈ names) :
    Refers registry key names' resolution where
  lookup name hash := by rw [h.lookup, hn]
  nodup := h.nodup
  mem entry := by rw [h.mem, hn]

theorem Refers.insert {names : List String} {resolution : Resolution}
    (h : Refers registry key names resolution) {name : String} (hnew : ¬ resolution.knows name)
    {descriptor : LayoutDescriptor} (hd : registry.layoutIn? key name = some descriptor) :
    Refers registry key (names ++ [name])
      { resolution with
        hashes := resolution.hashes.insert name descriptor.identity.contentHash
        reused := resolution.reused ++ [{ name, descriptor, declaration := none }] } := by
  have hnot : name ∉ names := fun hm => hnew (h.knows_iff.2 ⟨hm, by rw [hd]; rfl⟩)
  refine ⟨fun other hash => ?_, ?_, fun entry => ?_⟩
  · by_cases he : other = name
    · subst he
      rw [Table.lookup_insert_self, hd]
      simp
    · rw [Table.lookup_insert_of_ne he, h.lookup]
      simp [he]
  · rw [List.map_append, List.nodup_append]
    refine ⟨h.nodup, List.nodup_singleton _, ?_⟩
    rintro other hm last hl rfl
    obtain ⟨entry, hentry, rfl⟩ := List.mem_map.1 hm
    have he : entry.name = name := by simpa using hl
    exact hnot (he ▸ ((h.mem entry).1 hentry).1)
  · rw [List.mem_append, List.mem_append, h.mem, List.mem_singleton, List.mem_singleton]
    constructor
    · rintro (⟨hm, hrest⟩ | rfl)
      · exact ⟨Or.inl hm, hrest⟩
      · exact ⟨Or.inr rfl, rfl, hd⟩
    · rintro ⟨hm | he, hnone, hlayout⟩
      · exact Or.inl ⟨hm, hnone, hlayout⟩
      · obtain ⟨entryName, entryDescriptor, entryDeclaration⟩ := entry
        obtain rfl : entryName = name := he
        obtain rfl : entryDeclaration = none := hnone
        obtain rfl : descriptor = entryDescriptor := Option.some.inj (hd.symm.trans hlayout)
        exact Or.inr rfl

/-- A name is taken from the registry, unless it has been taken before. -/
theorem Refers.step {names : List String} {resolution : Resolution}
    (h : Refers registry key names resolution) (owner : TypeDeclaration) (name : String) :
    (∃ after, resolveReference registry key owner resolution name = .ok after ∧
        Refers registry key (names ++ [name]) after ∧ (registry.layoutIn? key name).isSome) ∨
      resolveReference registry key owner resolution name =
          .error (.unknownType key owner.name name) ∧ registry.layoutIn? key name = none := by
  unfold resolveReference
  by_cases hk : resolution.knows name
  · obtain ⟨hm, hsome⟩ := h.knows_iff.1 hk
    rw [if_pos hk]
    exact Or.inl ⟨resolution, rfl, h.congr (by simp [hm]), hsome⟩
  · rw [if_neg hk]
    cases hd : registry.layoutIn? key name with
    | none =>
      refine Or.inr ⟨?_, rfl⟩
      unfold Registry.layoutIn? at hd
      dsimp only
      rw [hd]
      rfl
    | some descriptor =>
      refine Or.inl ⟨_, ?_, h.insert hk hd, rfl⟩
      unfold Registry.layoutIn? at hd
      dsimp only
      rw [hd]
      rfl

/-- The field types that the unit does not declare, with the declarations that use them. -/
def referencesOf (decls : List TypeDeclaration) : List (TypeDeclaration × String) :=
  decls.flatMap fun decl =>
    (decl.dependencies.filter (!(decls.map TypeDeclaration.name).contains ·)).map (decl, ·)

/-- All names are taken from the registry, or one of them is not there. -/
theorem resolveReferences_cases (registry : Registry) (key : String) (decls : List TypeDeclaration) :
    (∃ referenced, resolveReferences registry key decls = .ok referenced ∧
        Refers registry key ((referencesOf decls).map Prod.snd) referenced ∧
        ∀ reference ∈ referencesOf decls, (registry.layoutIn? key reference.2).isSome) ∨
      (∃ owner name, resolveReferences registry key decls = .error (.unknownType key owner name)) ∧
        ∃ reference ∈ referencesOf decls, registry.layoutIn? key reference.2 = none := by
  have hfold : ∀ (references : List (TypeDeclaration × String)) (names : List String)
      (before : Resolution), Refers registry key names before →
      (∃ after, references.foldlM (fun resolution reference =>
          resolveReference registry key reference.1 resolution reference.2) before = .ok after ∧
        Refers registry key (names ++ references.map Prod.snd) after ∧
        ∀ reference ∈ references, (registry.layoutIn? key reference.2).isSome) ∨
      (∃ owner name, references.foldlM (fun resolution reference =>
          resolveReference registry key reference.1 resolution reference.2) before =
            .error (.unknownType key owner name)) ∧
        ∃ reference ∈ references, registry.layoutIn? key reference.2 = none := by
    intro references
    induction references with
    | nil => exact fun names before h => Or.inl ⟨before, rfl, by simpa using h, by simp⟩
    | cons reference rest ih =>
      intro names before h
      rw [List.foldlM_cons]
      rcases h.step reference.1 reference.2 with ⟨next, hn, hnext, hsome⟩ | ⟨hfail, hnone⟩
      · rw [hn, ok_bind]
        rcases ih _ next hnext with ⟨after, ha, hafter, hall⟩ | ⟨hfail, other, ho, hnone⟩
        · refine Or.inl ⟨after, ha, ?_, List.forall_mem_cons.2 ⟨hsome, hall⟩⟩
          rwa [List.append_assoc] at hafter
        · exact Or.inr ⟨hfail, other, List.mem_cons_of_mem _ ho, hnone⟩
      · rw [hfail]
        exact Or.inr ⟨⟨_, _, rfl⟩, reference, List.mem_cons_self, hnone⟩
  exact hfold (referencesOf decls) [] {} (refers_nothing registry key)

theorem referencesOf_perm {decls' : List TypeDeclaration} (h : decls'.Perm decls) :
    (referencesOf decls').Perm (referencesOf decls) := by
  have hnames : (decls'.map TypeDeclaration.name).contains =
      (decls.map TypeDeclaration.name).contains := by
    funext name
    rw [Bool.eq_iff_iff, List.contains_iff_mem, List.contains_iff_mem]
    exact (h.map _).mem_iff
  unfold referencesOf
  rw [hnames]
  exact h.flatMap_right _

/-- The references of a unit do not depend on the order of its declarations. -/
theorem resolveReferences_perm {decls' : List TypeDeclaration} (h : decls'.Perm decls) :
    Reordered (resolveReferences registry key decls) (resolveReferences registry key decls') := by
  have hperm := referencesOf_perm h
  rcases resolveReferences_cases registry key decls with
    ⟨referenced, hr, hrefers, hall⟩ | ⟨⟨owner, name, hr⟩, reference, hm, hnone⟩
  · rcases resolveReferences_cases registry key decls' with
      ⟨referenced', hr', hrefers', -⟩ | ⟨-, reference, hm, hnone⟩
    · have hrefers' := hrefers'.congr fun name => ((hperm.map Prod.snd).mem_iff (a := name)).symm
      rw [hr, hr']
      refine .ok ⟨?_, ?_, ?_, fun name => Option.ext fun hash => ?_⟩
      · rw [(resolveReferences_spec hr).waves, (resolveReferences_spec hr').waves]
        exact .nil
      · rw [(resolveReferences_spec hr).order, (resolveReferences_spec hr').order]
      · refine (List.perm_ext_iff_of_nodup hrefers.nodup.of_map hrefers'.nodup.of_map).2
          fun entry => ?_
        rw [hrefers.mem, hrefers'.mem]
      · rw [hrefers.lookup, hrefers'.lookup]
    · have hsome := hall reference (hperm.mem_iff.1 hm)
      rw [hnone] at hsome
      cases hsome
  · rcases resolveReferences_cases registry key decls' with
      ⟨-, -, -, hall⟩ | ⟨⟨owner', name', hr'⟩, -⟩
    · have hsome := hall reference (hperm.mem_iff.2 hm)
      rw [hnone] at hsome
      cases hsome
    · rw [hr, hr']
      exact .unknownType _ _ _ _ _

/-! ## Waves -/

/-- No declaration is named like a field type of another one. -/
def Separate (decls : List TypeDeclaration) : Prop :=
  ∀ a ∈ decls, ∀ b ∈ decls, a ≠ b → ∀ field ∈ a.fields, field.typeName ≠ b.name

/-- No declaration is named like a field type of another one whose longest chain has as many links. -/
def WavesApart (decls : List TypeDeclaration) : Prop :=
  ∀ a ∈ decls, ∀ b ∈ decls, a ≠ b →
    (∃ links, LongestChain decls a.name links ∧ LongestChain decls b.name links) →
      ∀ field ∈ a.fields, field.typeName ≠ b.name

/-- Waves are apart if no declaration has the name of a base type: the others are used a wave later. -/
theorem wavesApart_of_userNames (hn : (declaredNames decls).Nodup) (hu : UserNames decls) :
    WavesApart decls := by
  rintro a ha b hb - ⟨links, hla, hlb⟩ field hf he
  have hbase : field.baseType? = none := (congrArg BaseType.ofName? he).trans (hu b hb)
  have huses : Uses decls a.name b.name := (uses_iff hn ha).2
    ⟨List.mem_map_of_mem hb, mem_dependencies.2 ⟨field, hf, hbase, he⟩⟩
  have hbelow := below_succ_iff.1 (longestChain_iff.1 hla).2 b.name huses
  exact (longestChain_iff.1 hlb).1 hbelow

theorem lookup_addAll_of_not_mem {resolution : Resolution} {ready : List TypeDeclaration}
    {name : String} (h : name ∉ declaredNames ready) :
    (resolution.addAll registry ready).hashes.lookup name = resolution.hashes.lookup name := by
  induction ready generalizing resolution with
  | nil => rfl
  | cons decl rest ih =>
    rw [declaredNames_cons, List.mem_cons, not_or] at h
    refine (@ih (resolution.addDeclaration registry decl) h.2).trans ?_
    rw [hashes_addDeclaration, Table.lookup_insert_of_ne h.1]

/-- The declarations of a wave have their hashes on top of those of the waves before. -/
theorem lookup_addAll_of_mem {resolution : Resolution} {ready : List TypeDeclaration}
    (hn : (declaredNames ready).Nodup) (hs : Separate ready) : ∀ decl ∈ ready,
      (resolution.addAll registry ready).hashes.lookup decl.name =
        some (decl.contentHash resolution.hashes) := by
  induction ready generalizing resolution with
  | nil => simp
  | cons first rest ih =>
    obtain ⟨hfirst, hrest⟩ := List.nodup_cons.1 hn
    refine List.forall_mem_cons.2 ⟨?_, fun decl hm => ?_⟩
    · refine (lookup_addAll_of_not_mem hfirst).trans ?_
      rw [hashes_addDeclaration, Table.lookup_insert_self]
    · refine (ih hrest (fun a ha b hb => hs a (List.mem_cons_of_mem _ ha) b
        (List.mem_cons_of_mem _ hb)) decl hm).trans ?_
      refine congrArg some (contentHash_congr fun field hf => ?_)
      have hne : decl ≠ first := by
        rintro rfl
        exact hfirst (List.mem_map_of_mem hm)
      rw [hashes_addDeclaration, Table.lookup_insert_of_ne
        (hs decl (List.mem_cons_of_mem _ hm) first List.mem_cons_self hne field hf)]

namespace Resolution.Reorders

variable {resolution other : Resolution}

theorem knows (h : resolution.Reorders other) : other.knows = resolution.knows := by
  funext name
  rw [Resolution.knows, Resolution.knows, h.hashes]

theorem isReady (h : resolution.Reorders other) : other.isReady = resolution.isReady := by
  funext decl
  rw [Resolution.isReady, Resolution.isReady, h.knows]

theorem contentHash (h : resolution.Reorders other) (decl : TypeDeclaration) :
    decl.contentHash other.hashes = decl.contentHash resolution.hashes :=
  contentHash_congr fun field _ => (h.hashes field.typeName).symm

/-- A wave in another order leads to a resolution in another order. -/
theorem addWave (h : resolution.Reorders other) {ready ready' : List TypeDeclaration}
    (hp : ready'.Perm ready) (hn : (declaredNames ready).Nodup)
    (hnew : ∀ decl ∈ ready, ¬ resolution.knows decl.name) (hs : Separate ready) :
    (resolution.addWave registry ready).Reorders (other.addWave registry ready') := by
  have hn' : (declaredNames ready').Nodup := (hp.map _).nodup_iff.2 hn
  have hs' : Separate ready' := fun a ha b hb => hs a (hp.mem_iff.1 ha) b (hp.mem_iff.1 hb)
  have hnew' : ∀ decl ∈ ready', ¬ other.knows decl.name := by
    rw [h.knows]
    exact fun decl hm => hnew decl (hp.mem_iff.1 hm)
  have hhash : ∀ decl ∈ ready, (resolution.addAll registry ready).hashes.lookup decl.name =
      some (decl.contentHash resolution.hashes) := lookup_addAll_of_mem hn hs
  have hhash' : ∀ decl ∈ ready', (other.addAll registry ready').hashes.lookup decl.name =
      some (decl.contentHash resolution.hashes) := by
    intro decl hm
    rw [lookup_addAll_of_mem hn' hs' decl hm, h.contentHash]
  obtain ⟨horder, hreused⟩ := addAll_parts hn hnew hhash
  obtain ⟨horder', hreused'⟩ := addAll_parts hn' hnew' hhash'
  refine ⟨?_, ?_, ?_, fun name => ?_⟩
  · show List.Forall₂ List.Perm ((resolution.addAll registry ready).waves ++ _)
      ((other.addAll registry ready').waves ++ _)
    rw [waves_addAll, waves_addAll]
    exact List.rel_append h.waves (.cons (hp.map _).symm .nil)
  · show (resolution.addAll registry ready).order.Perm (other.addAll registry ready').order
    rw [horder, horder']
    exact h.order.append (hp.symm.filterMap _)
  · show (resolution.addAll registry ready).reused.Perm (other.addAll registry ready').reused
    rw [hreused, hreused']
    exact h.reused.append (hp.symm.filterMap _)
  · show (resolution.addAll registry ready).hashes.lookup name =
      (other.addAll registry ready').hashes.lookup name
    by_cases hm : name ∈ declaredNames ready
    · obtain ⟨decl, hd, rfl⟩ := List.mem_map.1 hm
      rw [hhash decl hd, hhash' decl (hp.mem_iff.2 hd)]
    · have hm' : name ∉ declaredNames ready' := fun hm' => hm ((hp.map _).mem_iff.1 hm')
      rw [lookup_addAll_of_not_mem hm, lookup_addAll_of_not_mem hm', h.hashes]

end Resolution.Reorders

/-- The waves in another order. The induction follows them. -/
theorem resolveWaves_perm {pending pending' : List TypeDeclaration} {links : Nat}
    {resolution other : Resolution} (hn : (declaredNames decls).Nodup) (hapart : WavesApart decls)
    (h : Stage decls links resolution) (hp : Pending decls links pending)
    (hnew : ∀ decl ∈ pending, ¬ resolution.knows decl.name) (hr : resolution.Reorders other)
    (hperm : pending'.Perm pending) :
    Reordered (resolveWaves registry key resolution pending)
      (resolveWaves registry key other pending') := by
  induction hl : pending.length using Nat.strongRecOn
    generalizing links resolution other pending pending' with
  | ind length ih =>
    subst hl
    have hready : (other.ready pending').Perm (resolution.ready pending) := by
      unfold Resolution.ready
      rw [hr.isReady]
      exact hperm.filter _
    have hblocked : (other.blocked pending').Perm (resolution.blocked pending) := by
      unfold Resolution.blocked
      rw [hr.isReady]
      exact hperm.filter _
    rw [resolveWaves.eq_1 registry key resolution, resolveWaves.eq_1 registry key other]
    by_cases hempty : pending = []
    · subst hempty
      obtain rfl := hperm.eq_nil
      exact .ok hr
    · have hempty' : pending' ≠ [] := fun he => hempty (he ▸ hperm).symm.eq_nil
      rw [if_neg (by simpa using hempty), if_neg (by simpa using hempty')]
      by_cases hstuck : resolution.ready pending = []
      · rw [dif_pos hstuck, dif_pos (hstuck ▸ hready).eq_nil]
        exact .circularDependency key (hperm.symm.map _)
      · have hstuck' : other.ready pending' ≠ [] := fun he => hstuck (he ▸ hready).symm.eq_nil
        rw [dif_neg hstuck, dif_neg hstuck']
        have hsub : (resolution.ready pending).Sublist decls := List.filter_sublist.trans hp.sublist
        have hnodup : (declaredNames pending).Nodup := hn.sublist (hp.sublist.map _)
        have hseparate : Separate (resolution.ready pending) := by
          intro a ha b hb hne
          exact hapart a (hsub.subset ha) b (hsub.subset hb) hne
            ⟨links, (mem_ready_iff h hp hn (hsub.subset ha)).1 ha,
              (mem_ready_iff h hp hn (hsub.subset hb)).1 hb⟩
        refine ih _ (blocked_length_lt hstuck) (h.addWave hp hn registry) (hp.blocked h hn) ?_
          (hr.addWave hready (hn.sublist (hsub.map _))
            (fun decl hm => hnew decl (List.mem_filter.1 hm).1) hseparate) hblocked rfl
        intro decl hm hk
        obtain ⟨hpending, hnot⟩ := List.mem_filter.1 hm
        rcases (knows_addAll registry).1 hk with hk | hk
        · exact hnew decl hpending hk
        · obtain ⟨ready, hready, he⟩ := List.mem_map.1 hk
          obtain ⟨hmem, hisReady⟩ := List.mem_filter.1 hready
          rw [eq_of_name_eq hnodup hpending hmem he.symm, hisReady] at hnot
          cases hnot

/-! ## Units -/

theorem mem_referencesOf {decl : TypeDeclaration} (hd : decl ∈ decls) {name : String}
    (hname : name ∈ decl.dependencies) (hnot : name ∉ declaredNames decls) :
    (decl, name) ∈ referencesOf decls := by
  refine List.mem_flatMap.2 ⟨decl, hd, List.mem_map.2 ⟨name, List.mem_filter.2 ⟨hname, ?_⟩, rfl⟩⟩
  simpa [declaredNames] using hnot

/-- Declarations with different names are all kept. -/
theorem deduplicate_of_nodup (key : String) (hn : (declaredNames decls).Nodup) :
    (deduplicate key decls).result = .ok decls := by
  rw [deduplicate_of_sameShape key fun first hfirst copy hcopy hname => ?_,
    firstOfEachName_of_nodup hn]
  obtain rfl := List.inj_on_of_nodup_map hn hfirst hcopy hname
  exact sameShape_self first

/-- A unit whose declarations come in another order is resolved in the same way: with the same hashes
and the same waves as sets, with the same names laid out and reused, or with an error of the same
kind. -/
theorem resolve_perm (registry : Registry) (key : String) {decls decls' : List TypeDeclaration}
    (hn : (declaredNames decls).Nodup) (hp : decls'.Perm decls) (hapart : WavesApart decls) :
    Reordered (resolve registry key decls).result (resolve registry key decls').result := by
  have hn' : (declaredNames decls').Nodup := (hp.map _).nodup_iff.2 hn
  have hreferences : Reordered (resolveReferences registry key decls)
      (resolveReferences registry key decls') := resolveReferences_perm hp
  unfold resolve
  rw [Logged.result_bind_of_ok (deduplicate_of_nodup key hn),
    Logged.result_bind_of_ok (deduplicate_of_nodup key hn')]
  generalize resolveReferences registry key decls' = outcome at hreferences ⊢
  rcases resolveReferences_cases registry key decls with
    ⟨referenced, hr, hrefers, hall⟩ | ⟨⟨owner, name, hr⟩, -⟩
  · rw [hr] at hreferences ⊢
    cases hreferences with
    | ok hreorders =>
      refine resolveWaves_perm hn hapart (stage_references hr fun decl hd name hm hnot => ?_)
        (pending_all decls) (fun decl hd hk => ?_) hreorders hp
      · have hmem := mem_referencesOf hd hm hnot
        exact hrefers.knows_iff.2 ⟨List.mem_map.2 ⟨_, hmem, rfl⟩, hall _ hmem⟩
      · exact ((resolveReferences_borrows hr).undeclared decl.name hk).1 (List.mem_map_of_mem hd)
  · rw [hr] at hreferences ⊢
    cases hreferences
    exact .unknownType _ _ _ _ _

/-- A type and two that use it. -/
def lampHouse : List TypeDeclaration :=
  [structOf "Lamp" ["vec4"], structOf "Room" ["Lamp"], structOf "Hall" ["Lamp", "float"]]

/-- The declarations of a house, from the last one to the first. -/
theorem resolve_perm_house : (declaredNames lampHouse).Nodup ∧ WavesApart lampHouse ∧
    ∃ a b, (resolve {} "house.glsl" lampHouse).result = .ok a ∧
      (resolve {} "house.glsl" lampHouse.reverse).result = .ok b ∧ a.Reorders b := by
  have hnodup : (declaredNames lampHouse).Nodup := by decide
  have hapart : WavesApart lampHouse := by
    refine wavesApart_of_userNames hnodup ?_
    unfold UserNames
    decide +kernel
  have hok : (resolve {} "house.glsl" lampHouse).result.isOk := by decide +kernel
  have hreordered := resolve_perm {} "house.glsl" hnodup lampHouse.reverse_perm hapart
  refine ⟨hnodup, hapart, ?_⟩
  generalize (resolve {} "house.glsl" lampHouse).result = outcome at hok hreordered ⊢
  generalize (resolve {} "house.glsl" lampHouse.reverse).result = outcome' at hreordered ⊢
  cases hreordered with
  | ok h => exact ⟨_, _, rfl, rfl, h⟩
  | unknownType => cases hok
  | circularDependency => cases hok

/-- A declaration with the name of a sampler gives its hash to a field of that type if it comes first. -/
theorem sampler_hash_by_order :
    (declaredNames [structOf "sampler3DShadow" ["vec4"],
        structOf "Scene" ["sampler3DShadow"]]).Nodup ∧
      (resolve {} "scene.glsl" [structOf "sampler3DShadow" ["vec4"],
          structOf "Scene" ["sampler3DShadow"]]).result.isOk = true ∧
      (resolve {} "scene.glsl" [structOf "Scene" ["sampler3DShadow"],
          structOf "sampler3DShadow" ["vec4"]]).result.isOk = true ∧
      (resolve {} "scene.glsl" [structOf "sampler3DShadow" ["vec4"],
          structOf "Scene" ["sampler3DShadow"]]).result.map (·.hashes.lookup "Scene") ≠
        (resolve {} "scene.glsl" [structOf "Scene" ["sampler3DShadow"],
          structOf "sampler3DShadow" ["vec4"]]).result.map (·.hashes.lookup "Scene") := by
  refine ⟨by decide, ?_, ?_, ?_⟩ <;> decide +kernel

end UniformLayout
