import UniformLayout.Proofs.Compilation.Refusals
import UniformLayout.Proofs.Compilation.Slots
import UniformLayout.Proofs.Resolution.Parts
import UniformLayout.Proofs.Source.Grammar

/-!
# Copies of declarations

A unit may declare a type more than once, if all its declarations are copies of each other; the first
one is kept. Only what later stages read of a declaration counts for this (`TypeDeclaration.bare`), so
the copies may be exchanged: the types of the unit, their layouts and the slots that are asked for stay
the same.

* `CopiesAgree`: declarations of one name and one shape have the same kind and the same qualifiers.
* `deduplicate_bare`, `resolveWaves_bare`, `plannedTypes_bare`: no stage reads more of a declaration.

Main statement: `copies_agree`.
-/

namespace UniformLayout

/-- The declaration without its attributes and its places in a source. -/
def TypeDeclaration.bare (decl : TypeDeclaration) : TypeDeclaration :=
  { decl.unplaced with attributes := [] }

def ResolvedType.bare (resolved : ResolvedType) : ResolvedType :=
  { resolved with declaration := resolved.declaration.bare }

def ReusedType.bare (entry : ReusedType) : ReusedType :=
  { entry with declaration := entry.declaration.map TypeDeclaration.bare }

def Resolution.bare (resolution : Resolution) : Resolution :=
  { resolution with
    order := resolution.order.map ResolvedType.bare
    reused := resolution.reused.map ReusedType.bare }

def PlannedType.bare (planned : PlannedType) : PlannedType :=
  { planned with declaration := planned.declaration.bare }

/-! ## What a declaration is read for -/

section Declarations

variable (a b decl : TypeDeclaration)

@[simp] theorem name_bare : decl.bare.name = decl.name := rfl

@[simp] theorem kind_bare : decl.bare.kind = decl.kind := rfl

theorem fields_bare : decl.bare.fields = decl.fields.map FieldDeclaration.unplaced := rfl

@[simp] theorem sameShape_bare : a.bare.sameShape b.bare = a.sameShape b := by
  unfold TypeDeclaration.sameShape
  rw [fields_bare, fields_bare, List.length_map, List.length_map, List.zip_map, List.all_map]
  rfl

@[simp] theorem dependencies_bare : decl.bare.dependencies = decl.dependencies := by
  unfold TypeDeclaration.dependencies
  rw [fields_bare, List.foldl_map]
  rfl

@[simp] theorem contentHash_bare (nested : HashTable) :
    decl.bare.contentHash nested = decl.contentHash nested := by
  unfold TypeDeclaration.contentHash TypeDeclaration.fingerprint
  rw [fields_bare, List.map_map]
  rfl

theorem layOutFields_unplaced (owner : String) (nested : LayoutTable) (cursor : Nat)
    (fields : List FieldDeclaration) :
    layOutFields owner nested cursor (fields.map FieldDeclaration.unplaced) =
      layOutFields owner nested cursor fields := by
  induction fields generalizing cursor with
  | nil => rfl
  | cons field rest ih =>
    simp only [List.map_cons, layOutFields, ih]
    rfl

@[simp] theorem layOut_bare (contentHash : String) (nested : LayoutTable) :
    decl.bare.layOut contentHash nested = decl.layOut contentHash nested := by
  unfold TypeDeclaration.layOut
  rw [fields_bare, layOutFields_unplaced]
  rfl

end Declarations

variable {registry : Registry} {key : String} {decls : List TypeDeclaration}

/-! ## Resolving -/

theorem find?_bare (name : String) : (decls.map TypeDeclaration.bare).find? (·.name == name) =
    (decls.find? (·.name == name)).map TypeDeclaration.bare := by
  rw [List.find?_map]
  rfl

theorem addDistinct_bare (key : String) (kept : List TypeDeclaration) (decl : TypeDeclaration) :
    (addDistinct key (kept.map TypeDeclaration.bare) decl.bare).result =
      (addDistinct key kept decl).result.map (List.map TypeDeclaration.bare) := by
  unfold addDistinct
  rw [name_bare, find?_bare]
  cases kept.find? (·.name == decl.name) with
  | none => simp [Except.map]
  | some first =>
    dsimp only [Option.map_some]
    rw [sameShape_bare]
    cases first.sameShape decl <;> rfl

theorem deduplicate_bare (key : String) (decls : List TypeDeclaration) :
    (deduplicate key (decls.map TypeDeclaration.bare)).result =
      (deduplicate key decls).result.map (List.map TypeDeclaration.bare) := by
  have hfold : ∀ kept, ((decls.map TypeDeclaration.bare).foldlM (addDistinct key)
      (kept.map TypeDeclaration.bare)).result =
        (decls.foldlM (addDistinct key) kept).result.map (List.map TypeDeclaration.bare) := by
    induction decls with
    | nil => exact fun _ => rfl
    | cons decl rest ih =>
      intro kept
      rw [List.map_cons, List.foldlM_cons, List.foldlM_cons]
      have hfirst := addDistinct_bare key kept decl
      generalize addDistinct key (kept.map TypeDeclaration.bare) decl.bare = bare at hfirst ⊢
      generalize addDistinct key kept decl = first at hfirst ⊢
      obtain ⟨notices, e | after⟩ := first <;> obtain ⟨notices', result⟩ := bare <;>
        obtain rfl : result = _ := hfirst
      · rfl
      · exact ih after
  exact hfold []

theorem resolveReferences_bare : resolveReferences registry key (decls.map TypeDeclaration.bare) =
    resolveReferences registry key decls := by
  have hnames : (decls.map TypeDeclaration.bare).map TypeDeclaration.name =
      decls.map TypeDeclaration.name := by
    rw [List.map_map]
    rfl
  have hreferences : ∀ p : String → Bool,
      (decls.map TypeDeclaration.bare).flatMap
          (fun decl => (decl.dependencies.filter p).map (decl, ·)) =
        (decls.flatMap fun decl => (decl.dependencies.filter p).map (decl, ·)).map
          fun reference => (reference.1.bare, reference.2) := by
    intro p
    rw [List.flatMap_map, List.map_flatMap]
    refine congrArg (decls.flatMap ·) (funext fun decl => ?_)
    rw [dependencies_bare, List.map_map]
    rfl
  unfold resolveReferences
  dsimp only
  rw [hnames, hreferences, List.foldlM_map]
  rfl

@[simp] theorem isReady_bare (resolution : Resolution) (decl : TypeDeclaration) :
    resolution.bare.isReady decl.bare = resolution.isReady decl := by
  unfold Resolution.isReady
  rw [dependencies_bare]
  rfl

theorem addDeclaration_bare (resolution : Resolution) (decl : TypeDeclaration) :
    resolution.bare.addDeclaration registry decl.bare =
      (resolution.addDeclaration registry decl).bare := by
  unfold Resolution.addDeclaration
  rw [contentHash_bare, show resolution.bare.hashes = resolution.hashes from rfl]
  dsimp only
  cases registry.descriptorOfHash? (decl.contentHash resolution.hashes) <;>
    simp [Resolution.bare, ReusedType.bare, ResolvedType.bare]

theorem addWave_bare (resolution : Resolution) (ready : List TypeDeclaration) :
    resolution.bare.addWave registry (ready.map TypeDeclaration.bare) =
      (resolution.addWave registry ready).bare := by
  have hfold : (ready.map TypeDeclaration.bare).foldl (Resolution.addDeclaration registry)
      resolution.bare = (ready.foldl (Resolution.addDeclaration registry) resolution).bare := by
    induction ready generalizing resolution with
    | nil => rfl
    | cons decl rest ih =>
      rw [List.map_cons, List.foldl_cons, List.foldl_cons, addDeclaration_bare, ih]
  unfold Resolution.addWave
  rw [hfold, List.map_map]
  rfl

theorem filter_bare (p : TypeDeclaration → Bool) (hp : ∀ decl, p (decl.bare) = p decl) :
    (decls.map TypeDeclaration.bare).filter p = (decls.filter p).map TypeDeclaration.bare := by
  rw [List.filter_map]
  exact congrArg _ (List.filter_congr fun decl _ => hp decl)

/-- The induction follows the waves. -/
theorem resolveWaves_bare (registry : Registry) (key : String) (resolution : Resolution)
    (pending : List TypeDeclaration) :
    resolveWaves registry key resolution.bare (pending.map TypeDeclaration.bare) =
      (resolveWaves registry key resolution pending).map Resolution.bare := by
  induction hn : pending.length using Nat.strongRecOn generalizing resolution pending with
  | ind n ih =>
    subst hn
    have hready : resolution.bare.ready (pending.map TypeDeclaration.bare) =
        (resolution.ready pending).map TypeDeclaration.bare :=
      filter_bare _ fun decl => isReady_bare resolution decl
    have hblocked : resolution.bare.blocked (pending.map TypeDeclaration.bare) =
        (resolution.blocked pending).map TypeDeclaration.bare :=
      filter_bare _ fun decl => congrArg (!·) (isReady_bare resolution decl)
    rw [resolveWaves.eq_1 registry key resolution.bare, resolveWaves.eq_1 registry key resolution,
      List.isEmpty_map]
    split
    · rfl
    · by_cases hnone : resolution.ready pending = []
      · rw [dif_pos hnone, dif_pos (by rw [hready, hnone]; rfl), List.map_map]
        rfl
      · rw [dif_neg hnone, dif_neg (by rwa [hready, List.map_eq_nil_iff])]
        dsimp only
        rw [hready, hblocked, addWave_bare]
        exact ih _ (blocked_length_lt hnone) _ _ rfl

/-- What a unit only refers to has no declaration. -/
theorem Resolution.OnlyRefers.bare_eq {resolution : Resolution} (h : resolution.OnlyRefers registry) :
    resolution.bare = resolution := by
  obtain ⟨waves, order, reused, hashes⟩ := resolution
  obtain rfl : order = [] := h.order
  have hreused : reused.map ReusedType.bare = reused := by
    refine (List.map_congr_left fun entry hm => ?_).trans reused.map_id
    rw [ReusedType.bare, (h.reused entry hm).1, Option.map_none, ← (h.reused entry hm).1]
    rfl
  rw [Resolution.bare, hreused]
  rfl

theorem resolve_bare : (resolve registry key (decls.map TypeDeclaration.bare)).result =
    (resolve registry key decls).result.map Resolution.bare := by
  unfold resolve
  have hdistinct := deduplicate_bare key decls
  generalize deduplicate key (decls.map TypeDeclaration.bare) = bare at hdistinct ⊢
  generalize deduplicate key decls = distinct at hdistinct ⊢
  obtain ⟨notices, e | kept⟩ := distinct <;> obtain ⟨notices', result⟩ := bare <;>
    obtain rfl : result = _ := hdistinct
  · rfl
  · dsimp only [Except.map]
    rw [Logged.bind_ok, Logged.bind_ok, resolveReferences_bare]
    cases hr : resolveReferences registry key kept with
    | error e => rfl
    | ok referenced =>
      have hwaves := resolveWaves_bare registry key referenced kept
      rw [(resolveReferences_spec hr).bare_eq] at hwaves
      exact hwaves

/-! ## Planning -/

/-- The types of a unit with these declarations. -/
def typesOf (registry : Registry) (key : String) (decls : List TypeDeclaration) :
    Except CompileError (List PlannedType) :=
  (resolve registry key decls).result >>= Resolution.plannedTypes

theorem layOutAll_bare (nested : LayoutTable) (order : List ResolvedType) :
    layOutAll nested (order.map ResolvedType.bare) =
      (layOutAll nested order).map (List.map PlannedType.bare) := by
  induction order generalizing nested with
  | nil => rfl
  | cons resolved rest ih =>
    obtain ⟨declaration, contentHash⟩ := resolved
    simp only [List.map_cons, ResolvedType.bare, layOutAll, layOut_bare, name_bare, ih]
    cases declaration.layOut contentHash nested with
    | error e => rfl
    | ok layout =>
      dsimp only [bind, Except.bind]
      cases layOutAll ((declaration.name, layout) :: nested) rest <;> rfl

theorem plannedTypes_bare (resolution : Resolution) :
    resolution.bare.plannedTypes = resolution.plannedTypes.map (List.map PlannedType.bare) := by
  have hlayouts : resolution.bare.reusedLayouts = resolution.reusedLayouts := by
    unfold Resolution.reusedLayouts Resolution.bare
    rw [List.map_map]
    rfl
  have htypes : resolution.bare.reusedTypes = resolution.reusedTypes.map PlannedType.bare := by
    unfold Resolution.reusedTypes Resolution.bare
    rw [List.filterMap_map, List.map_filterMap]
    refine List.filterMap_congr fun entry _ => ?_
    rw [Function.comp_apply, ReusedType.bare, Option.map_map, Option.map_map]
    rfl
  unfold Resolution.plannedTypes
  rw [hlayouts, htypes, show resolution.bare.order = resolution.order.map ResolvedType.bare from rfl,
    layOutAll_bare]
  cases layOutAll resolution.reusedLayouts resolution.order with
  | error e => rfl
  | ok fresh =>
    refine congrArg Except.ok ?_
    rw [← List.map_append, List.map_filterMap]
    refine List.filterMap_congr fun name _ => ?_
    rw [List.find?_map]
    rfl

theorem typesOf_bare : typesOf registry key (decls.map TypeDeclaration.bare) =
    (typesOf registry key decls).map (List.map PlannedType.bare) := by
  unfold typesOf
  rw [resolve_bare]
  cases (resolve registry key decls).result with
  | error e => rfl
  | ok resolution => exact plannedTypes_bare resolution

/-! ## Copies -/

theorem bare_eq_iff {a b : TypeDeclaration} : a.bare = b.bare ↔
    a.name = b.name ∧ a.sameShape b ∧ a.kind = b.kind ∧
      a.fields.map FieldDeclaration.qualifiers = b.fields.map FieldDeclaration.qualifiers := by
  have hfields : ∀ xs ys : List FieldDeclaration,
      xs.map FieldDeclaration.unplaced = ys.map FieldDeclaration.unplaced ↔
        xs.map FieldDeclaration.outline = ys.map FieldDeclaration.outline ∧
          xs.map FieldDeclaration.qualifiers = ys.map FieldDeclaration.qualifiers := by
    intro xs
    induction xs with
    | nil => intro ys; cases ys <;> simp
    | cons x xs ih =>
      intro ys
      cases ys with
      | nil => simp
      | cons y ys =>
        simp only [List.map_cons, List.cons.injEq, ih ys, FieldDeclaration.unplaced,
          FieldDeclaration.outline, FieldDeclaration.mk.injEq, Prod.mk.injEq]
        tauto
  rw [sameShape_iff]
  simp only [TypeDeclaration.bare, TypeDeclaration.unplaced, TypeDeclaration.mk.injEq, hfields]
  constructor
  · rintro ⟨hname, hkind, ⟨houtline, hqualifiers⟩, -⟩
    exact ⟨hname, ⟨congrArg _ hkind, houtline⟩, hkind, hqualifiers⟩
  · rintro ⟨hname, ⟨-, houtline⟩, hkind, hqualifiers⟩
    exact ⟨hname, hkind, ⟨houtline, hqualifiers⟩, trivial, trivial⟩

/-- Declarations of one name and one shape have the same kind, with the same slot and instance name,
and fields with the same qualifiers. -/
def CopiesAgree (decls : List TypeDeclaration) : Prop :=
  ∀ a ∈ decls, ∀ b ∈ decls, a.name = b.name → a.sameShape b → a.kind = b.kind ∧
    a.fields.map FieldDeclaration.qualifiers = b.fields.map FieldDeclaration.qualifiers

theorem CopiesAgree.bare_eq (h : CopiesAgree decls) {a b : TypeDeclaration} (ha : a ∈ decls)
    (hb : b ∈ decls) (hname : a.name = b.name) (hs : a.sameShape b) : a.bare = b.bare :=
  bare_eq_iff.2 ⟨hname, hs, h a ha b hb hname hs⟩

/-- Declarations are refused for two that have one name and not one shape. -/
theorem failsWith_deduplicate : (deduplicate key decls).FailsWith fun e =>
    ∃ c ∈ decls, ∃ d ∈ decls, c.name = d.name ∧ c.sameShape d = false ∧
      e = .duplicateDeclaration key c.name := by
  have hfold : ∀ (rest kept : List TypeDeclaration), rest ⊆ decls → kept ⊆ decls →
      (rest.foldlM (addDistinct key) kept).FailsWith fun e => ∃ c ∈ decls, ∃ d ∈ decls,
        c.name = d.name ∧ c.sameShape d = false ∧ e = .duplicateDeclaration key c.name := by
    intro rest
    induction rest with
    | nil => exact fun _ _ _ => Logged.failsWith_pure
    | cons decl rest ih =>
      intro kept hrest hkept
      obtain ⟨hdecl, hrest⟩ := List.cons_subset.1 hrest
      rw [List.foldlM_cons]
      refine Logged.FailsWith.bind ?_ fun after ha => ih after hrest ?_
      · unfold addDistinct
        split
        · exact Logged.failsWith_pure
        · rename_i first hf
          have hname : first.name = decl.name := eq_of_beq (List.find?_some hf :)
          split
          · exact Logged.failsWith_pure
          · rename_i hs
            exact Logged.failsWith_throw ⟨first, hkept (List.mem_of_find?_eq_some hf), decl, hdecl,
              hname, Bool.eq_false_iff.2 hs, by rw [hname]⟩
      · rcases addDistinct_eq_ok ha with ⟨rfl, -⟩ | ⟨rfl, -⟩
        · exact hkept
        · exact List.append_subset.2 ⟨hkept, List.cons_subset.2 ⟨hdecl, List.nil_subset _⟩⟩
  exact hfold decls [] (List.Subset.refl _) (List.nil_subset _)

theorem CopiesAgree.exists_bare_eq (h : CopiesAgree decls) {distinct : List TypeDeclaration}
    (hd : (deduplicate key decls).result = .ok distinct) :
    ∀ decl ∈ decls, ∃ kept ∈ distinct, kept.bare = decl.bare := by
  intro decl hm
  obtain ⟨kept, hk, hname, hs⟩ := exists_mem_deduplicate hd decl hm
  exact ⟨kept, hk, h.bare_eq (mem_of_declared ((deduplicate_spec hd).mem_iff.1 hk)) hm hname hs⟩

/-- Two declarations of one name that differ are refused, or two others before them. -/
theorem CopiesAgree.refused (h : CopiesAgree decls) (registry : Registry) (key : String)
    {a b : TypeDeclaration} (ha : a ∈ decls) (hb : b ∈ decls) (hname : a.name = b.name)
    (hne : a.bare ≠ b.bare) :
    ∃ c ∈ decls, ∃ d ∈ decls, c.name = d.name ∧ c.bare ≠ d.bare ∧
      (resolve registry key decls).result = .error (.duplicateDeclaration key c.name) := by
  cases hd : (deduplicate key decls).result with
  | ok distinct =>
    obtain ⟨kept, hk, hka⟩ := h.exists_bare_eq hd a ha
    obtain ⟨other, ho, hob⟩ := h.exists_bare_eq hd b hb
    have hkept : kept = other := by
      refine List.inj_on_of_nodup_map (deduplicate_spec hd).nodup hk ho ?_
      rw [← name_bare kept, hka, ← name_bare other, hob]
      exact hname
    exact absurd (hka.symm.trans (hkept ▸ hob)) hne
  | error e =>
    obtain ⟨c, hc, d, hdm, hcd, hs, rfl⟩ := failsWith_deduplicate e hd
    refine ⟨c, hc, d, hdm, hcd, fun hbare => ?_, ?_⟩
    · exact absurd ((bare_eq_iff.1 hbare).2.1) (Bool.eq_false_iff.1 hs)
    · unfold resolve
      generalize deduplicate key decls = distinct at hd
      obtain ⟨notices, result⟩ := distinct
      obtain rfl : result = _ := hd
      rfl

/-- What is planned of a unit does not depend on more than what is read of its declarations. -/
theorem typesOf_congr (registry : Registry) (key : String) {others : List TypeDeclaration}
    (h : others.map TypeDeclaration.bare = decls.map TypeDeclaration.bare) :
    (typesOf registry key others).map (List.map PlannedType.bare) =
      (typesOf registry key decls).map (List.map PlannedType.bare) := by
  rw [← typesOf_bare, ← typesOf_bare, h]

theorem map_requestsOf_bare (types : Except CompileError (List PlannedType)) :
    (types.map (List.map PlannedType.bare)).map requestsOf = types.map requestsOf := by
  cases types with
  | error e => rfl
  | ok types =>
    refine congrArg Except.ok ?_
    unfold requestsOf slotRequests
    rw [List.map_map, List.filter_map, List.filter_map, List.map_map, List.map_map]
    rfl

/-- Copies that are dropped agree with what is kept, and others are refused; so copies may be
exchanged. -/
theorem copies_agree (registry : Registry) (key : String) (h : CopiesAgree decls) :
    (∀ distinct, (deduplicate key decls).result = .ok distinct →
      ∀ decl ∈ decls, ∃ kept ∈ distinct, kept.bare = decl.bare) ∧
    (∀ a ∈ decls, ∀ b ∈ decls, a.name = b.name → a.bare ≠ b.bare →
      ∃ c ∈ decls, ∃ d ∈ decls, c.name = d.name ∧ c.bare ≠ d.bare ∧
        (resolve registry key decls).result = .error (.duplicateDeclaration key c.name)) ∧
    ∀ front mid back a b, decls = front ++ a :: mid ++ b :: back → a.name = b.name →
      a.sameShape b →
        (typesOf registry key (front ++ b :: mid ++ a :: back)).map (List.map PlannedType.bare) =
            (typesOf registry key decls).map (List.map PlannedType.bare) ∧
          (typesOf registry key (front ++ b :: mid ++ a :: back)).map requestsOf =
            (typesOf registry key decls).map requestsOf := by
  refine ⟨fun distinct hd => h.exists_bare_eq hd,
    fun a ha b hb hname hne => h.refused registry key ha hb hname hne,
    fun front mid back a b hdecls hname hs => ?_⟩
  have hbare : a.bare = b.bare := h.bare_eq (by simp [hdecls]) (by simp [hdecls]) hname hs
  have hsame : (front ++ b :: mid ++ a :: back).map TypeDeclaration.bare =
      decls.map TypeDeclaration.bare := by
    simp [hdecls, hbare]
  have htypes := typesOf_congr registry key hsame
  refine ⟨htypes, ?_⟩
  rw [← map_requestsOf_bare, htypes, map_requestsOf_bare]

/-- A block at a line of its source, with its slot. -/
def fogBlock (slot line : Nat) : TypeDeclaration where
  name := "Fog"
  kind := .uniformBlock (some slot) none .std140
  fields := [{ typeName := "float", name := "near" }]
  source := ⟨"fog.frag", line, 1⟩

/-- A block that is declared twice with the same slot. -/
theorem copies_agree_fog : CopiesAgree [fogBlock 1 1, fogBlock 1 2] ∧
    (deduplicate "fog.frag" [fogBlock 1 1, fogBlock 1 2]).result = .ok [fogBlock 1 1] ∧
      (typesOf {} "fog.frag" [fogBlock 1 2, fogBlock 1 1]).map requestsOf =
        (typesOf {} "fog.frag" [fogBlock 1 1, fogBlock 1 2]).map requestsOf := by
  have hagree : CopiesAgree [fogBlock 1 1, fogBlock 1 2] := by
    unfold CopiesAgree
    decide
  exact ⟨hagree, rfl, ((copies_agree {} "fog.frag" hagree).2.2 [] [] [] _ _ rfl rfl (by decide)).2⟩

/-- Of a block that is declared with two slots the second one is dropped. -/
theorem slot_of_copy_dropped : (fogBlock 1 1).bare ≠ (fogBlock 2 2).bare ∧
    (deduplicate "fog.frag" [fogBlock 1 1, fogBlock 2 2]).result = .ok [fogBlock 1 1] ∧
      (typesOf {} "fog.frag" [fogBlock 1 1, fogBlock 2 2]).map requestsOf = .ok [some 1] ∧
        (typesOf {} "fog.frag" [fogBlock 2 2, fogBlock 1 1]).map requestsOf = .ok [some 2] := by
  refine ⟨by decide, rfl, ?_, ?_⟩ <;> decide +kernel

end UniformLayout
