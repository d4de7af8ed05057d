import UniformLayout.Compilation.Plan
import UniformLayout.Proofs.Layout.Exact
import UniformLayout.Proofs.Lists
import UniformLayout.Proofs.Resolution.Waves
import UniformLayout.Proofs.Schema.Nesting

/-!
# The types of a plan

A plan lists its types so that each of them comes after the types nested in it (`Staged`), and says
of each where its layout comes from (`Sourced`).

Main statement: `plannedTypes_spec`.
-/

namespace UniformLayout

/-! ## Where layouts come from -/

/-- The layouts nested directly in a layout are among the given ones. -/
def StructLayout.DrawsOn (layout : StructLayout) (available : List StructLayout) : Prop :=
  ∀ field ∈ layout.fields, ∀ inner, field.shape = .aggregate inner → inner ∈ available

theorem StructLayout.DrawsOn.mono {layout : StructLayout} {available more : List StructLayout}
    (h : layout.DrawsOn available) (hm : available ⊆ more) : layout.DrawsOn more :=
  fun field hf inner hs => hm (h field hf inner hs)

theorem mem_of_lookup {nested : LayoutTable} {name : String} {layout : StructLayout}
    (h : nested.lookup name = some layout) : layout ∈ nested.map Prod.snd := by
  induction nested with
  | nil => cases h
  | cons entry rest ih =>
    rw [List.lookup_cons] at h
    split at h
    · obtain rfl := Option.some.inj h
      exact List.mem_cons_self
    · exact List.mem_cons_of_mem _ (ih h)

/-- A field is placed under its own name, with its own qualifiers and its own shape. -/
theorem layOut_field_shape {owner : String} {nested : LayoutTable} {cursor : Nat}
    {field : FieldDeclaration} {placed : FieldLayout}
    (h : field.layOut owner nested cursor = .ok placed) :
    placed.name = field.name ∧ placed.qualifiers = field.qualifiers ∧
      field.shape owner nested = .ok placed.shape := by
  unfold FieldDeclaration.layOut at h
  obtain ⟨shape, hshape, h⟩ := bind_eq_ok_iff.1 h
  split at h
  · rename_i found hf
    obtain rfl := Except.ok.inj h
    unfold FieldDeclaration.place? at hf
    obtain ⟨extent, -, hf⟩ := Option.bind_eq_some_iff.1 hf
    obtain ⟨offset, -, hf⟩ := Option.bind_eq_some_iff.1 hf
    obtain ⟨-, -, hf⟩ := Option.bind_eq_some_iff.1 hf
    obtain rfl := Option.some.inj hf
    exact ⟨rfl, rfl, hshape⟩
  · cases h

theorem layOutFields_shapes {owner : String} {nested : LayoutTable} {cursor : Nat}
    {fields : List FieldDeclaration} {placed : List FieldLayout}
    (h : layOutFields owner nested cursor fields = .ok placed) :
    List.Forall₂ (fun field placed => placed.name = field.name ∧
      placed.qualifiers = field.qualifiers ∧ field.shape owner nested = .ok placed.shape)
      fields placed := by
  induction fields generalizing cursor placed with
  | nil =>
    obtain rfl := Except.ok.inj h
    exact .nil
  | cons field rest ih =>
    rw [layOutFields] at h
    obtain ⟨first, hf, h⟩ := bind_eq_ok_iff.1 h
    obtain ⟨others, hr, h⟩ := bind_eq_ok_iff.1 h
    obtain rfl := Except.ok.inj h
    exact .cons (layOut_field_shape hf) (ih hr)

theorem mem_of_shape {owner : String} {nested : LayoutTable} {field : FieldDeclaration}
    {inner : StructLayout} (h : field.shape owner nested = .ok (.aggregate inner)) :
    inner ∈ nested.map Prod.snd := by
  unfold FieldDeclaration.shape at h
  split at h
  · cases h
  · split at h
    · rename_i layout hl
      cases h
      exact mem_of_lookup hl
    · cases h

theorem layOut_drawsOn {decl : TypeDeclaration} {contentHash : String} {nested : LayoutTable}
    {layout : StructLayout} (h : decl.layOut contentHash nested = .ok layout) :
    layout.contentHash = contentHash ∧ layout.kind = decl.kind ∧
      layout.DrawsOn (nested.map Prod.snd) := by
  obtain ⟨fields, size, hfields, -, rfl⟩ := layOut_eq_ok h
  refine ⟨rfl, rfl, fun placed hm inner hs => ?_⟩
  obtain ⟨field, -, -, -, hshape⟩ := exists_of_mem_right (layOutFields_shapes hfields) hm
  exact mem_of_shape (hs ▸ hshape)

/-! ## Types in stages -/

/-- Each type that was not generated before draws on the given layouts and on those before it. -/
def Staged (available : List StructLayout) : List PlannedType → Prop
  | [] => True
  | planned :: rest =>
    (planned.known = none → planned.layout.DrawsOn available) ∧
      Staged (planned.layout :: available) rest

theorem Staged.mono {available more : List StructLayout} {types : List PlannedType}
    (h : Staged available types) (hm : available ⊆ more) : Staged more types := by
  induction types generalizing available more with
  | nil => trivial
  | cons planned rest ih =>
    exact ⟨fun hk => (h.1 hk).mono hm, ih h.2 (List.cons_subset_cons _ hm)⟩

/-- Types that were generated before may stand anywhere. -/
theorem staged_of_filter {available : List StructLayout} {types : List PlannedType}
    (h : Staged available (types.filter (·.known.isNone))) : Staged available types := by
  induction types generalizing available with
  | nil => trivial
  | cons planned rest ih =>
    rw [List.filter_cons] at h
    split at h
    · exact ⟨h.1, ih h.2⟩
    · rename_i hk
      refine ⟨fun hnone => ?_, ih (h.mono (List.subset_cons_self _ _))⟩
      rw [hnone] at hk
      exact absurd rfl hk

/-- The type is to be written, with a layout of its own. -/
structure PlannedType.IsFresh (planned : PlannedType) : Prop where
  known : planned.known = none
  contentHash : planned.layout.contentHash = planned.contentHash
  kind : planned.layout.kind = planned.declaration.kind

theorem layOutAll_spec {nested : LayoutTable} {order : List ResolvedType}
    {fresh : List PlannedType} (h : layOutAll nested order = .ok fresh) :
    fresh.map PlannedType.declaration = order.map ResolvedType.declaration ∧
      (∀ planned ∈ fresh, planned.IsFresh) ∧ Staged (nested.map Prod.snd) fresh := by
  induction order generalizing nested fresh with
  | nil =>
    obtain rfl := Except.ok.inj h
    exact ⟨rfl, by simp, trivial⟩
  | cons resolved rest ih =>
    rw [layOutAll] at h
    obtain ⟨layout, hl, h⟩ := bind_eq_ok_iff.1 h
    obtain ⟨others, ho, h⟩ := bind_eq_ok_iff.1 h
    obtain rfl := Except.ok.inj h
    obtain ⟨hhash, hkind, hdraws⟩ := layOut_drawsOn hl
    obtain ⟨hdecl, hfresh, hstaged⟩ := ih ho
    refine ⟨?_, ?_, fun _ => hdraws, hstaged⟩
    · rw [List.map_cons, List.map_cons, hdecl]
    · exact List.forall_mem_cons.2 ⟨⟨rfl, hhash, hkind⟩, hfresh⟩

/-! ## The types in the order of the waves -/

/-- Looking up names in order gives back a list whose own names are among them, in this order. -/
theorem filter_filterMap_eq {α : Type} {name : α → String} {find : String → Option α}
    {p : α → Bool} {names : List String} {chosen : List α} (hn : names.Nodup)
    (hs : (chosen.map name).Sublist names) (hp : ∀ a ∈ chosen, p a)
    (hf : ∀ a ∈ chosen, find (name a) = some a)
    (ho : ∀ n ∈ names, ∀ a, find n = some a → p a → n ∈ chosen.map name) :
    (names.filterMap find).filter p = chosen := by
  induction names generalizing chosen with
  | nil =>
    rw [List.sublist_nil, List.map_eq_nil_iff] at hs
    rw [hs]
    rfl
  | cons n rest ih =>
    obtain ⟨hnew, hrest⟩ := List.nodup_cons.1 hn
    generalize hc : chosen.map name = keys at hs ho
    cases hs with
    | cons _ hs =>
      -- The first name belongs to none of them.
      subst hc
      have hskip : n ∉ chosen.map name := fun hm => hnew (hs.subset hm)
      have htail := ih hrest hs hp hf fun m hm => ho m (List.mem_cons_of_mem _ hm)
      rw [List.filterMap_cons]
      cases hfind : find n with
      | none => exact htail
      | some a =>
        have hpa : p a ≠ true := fun hpa => hskip (ho n List.mem_cons_self a hfind hpa)
        exact (List.filter_cons_of_neg hpa).trans htail
    | cons_cons _ hs =>
      obtain ⟨a, others, rfl, hname, hothers⟩ := List.map_eq_cons_iff.1 hc
      subst hothers
      have htail := ih hrest hs (fun b hb => hp b (List.mem_cons_of_mem _ hb))
        (fun b hb => hf b (List.mem_cons_of_mem _ hb)) (fun m hm b hb hpb => by
          rcases List.mem_cons.1 (ho m (List.mem_cons_of_mem _ hm) b hb hpb) with rfl | hmem
          · exact absurd hm hnew
          · exact hmem)
      have hfind : find n = some a := hname ▸ hf a List.mem_cons_self
      rw [List.filterMap_cons, hfind]
      have hpa : p a = true := hp a List.mem_cons_self
      exact (List.filter_cons_of_pos hpa).trans (congrArg (a :: ·) htail)

/-- The type was generated before, and keeps the layout that it has in the registry. -/
def PlannedType.IsKnown (planned : PlannedType) (registry : Registry) : Prop :=
  ∃ descriptor hash, planned.known = some descriptor ∧ planned.layout = descriptor.layout ∧
    planned.contentHash = descriptor.identity.contentHash ∧
    registry.descriptorOfHash? hash = some descriptor

/-- What is known of the types of a plan: they come in stages on top of layouts of the registry, and
each of them is fresh or known. -/
structure Sourced (registry : Registry) (base : List StructLayout) (types : List PlannedType) :
    Prop where
  staged : Staged base types
  base : ∀ layout ∈ base, ∃ hash descriptor,
    registry.descriptorOfHash? hash = some descriptor ∧ descriptor.layout = layout
  each : ∀ planned ∈ types, planned.IsFresh ∨ planned.IsKnown registry

theorem reusedTypes_spec {registry : Registry} {key : String}
    {decls distinct handled : List TypeDeclaration} {resolution referenced : Resolution}
    (hc : resolution.Course registry key decls distinct handled referenced) :
    ∀ planned ∈ resolution.reusedTypes, planned.IsKnown registry ∧
      planned.name ∉ (resolution.order.map ResolvedType.declaration).map TypeDeclaration.name := by
  intro planned hm
  obtain ⟨entry, he, hp⟩ := List.mem_filterMap.1 hm
  obtain ⟨decl, hd, rfl⟩ := Option.map_eq_some_iff.1 hp
  obtain ⟨⟨hash, hdrawn⟩, hnew⟩ := hc.split.2 entry he
  exact ⟨⟨entry.descriptor, hash, rfl, rfl, rfl, hdrawn⟩, hnew decl hd⟩

theorem plannedTypes_spec {registry : Registry} {key : String}
    {decls distinct handled : List TypeDeclaration} {resolution referenced : Resolution}
    (hc : resolution.Course registry key decls distinct handled referenced)
    {types : List PlannedType} (h : resolution.plannedTypes = .ok types) :
    Sourced registry (resolution.reusedLayouts.map Prod.snd) types := by
  unfold Resolution.plannedTypes at h
  obtain ⟨fresh, hf, h⟩ := bind_eq_ok_iff.1 h
  obtain rfl := Except.ok.inj h
  obtain ⟨hdecls, hfresh, hstaged⟩ := layOutAll_spec hf
  have hnames : fresh.map PlannedType.name =
      (resolution.order.map ResolvedType.declaration).map TypeDeclaration.name := by
    rw [← hdecls, List.map_map]
    rfl
  have hsub : (fresh.map PlannedType.name).Sublist resolution.waves.flatten := by
    rw [hnames, hc.waves]
    exact hc.split.1.map _
  have hnodup : resolution.waves.flatten.Nodup := by
    rw [hc.waves]
    exact hc.names_nodup
  have hreused := reusedTypes_spec hc
  have hmem : ∀ name planned,
      (resolution.reusedTypes ++ fresh).find? (·.name == name) = some planned →
        planned.name = name ∧ (planned ∈ resolution.reusedTypes ∨ planned ∈ fresh) := by
    intro name planned hfind
    refine ⟨by simpa using List.find?_some hfind, ?_⟩
    exact List.mem_append.1 (List.mem_of_find?_eq_some hfind)
  refine ⟨staged_of_filter ?_, ?_, ?_⟩
  · rw [filter_filterMap_eq hnodup hsub]
    · exact hstaged
    · intro planned hm
      rw [(hfresh planned hm).known]
      rfl
    · intro planned hm
      have hnone : resolution.reusedTypes.find? (·.name == planned.name) = none := by
        rw [List.find?_eq_none]
        intro other ho he
        have hnew := (hreused other ho).2
        rw [← hnames, eq_of_beq he] at hnew
        exact hnew (List.mem_map_of_mem hm)
      rw [List.find?_append, hnone]
      exact find?_name_eq (hsub.nodup hnodup) hm
    · intro name _ planned hfind hk
      obtain ⟨rfl, hm | hm⟩ := hmem name planned hfind
      · obtain ⟨descriptor, hash, hknown, -⟩ := (hreused planned hm).1
        rw [hknown] at hk
        cases hk
      · exact List.mem_map_of_mem hm
  · intro layout hm
    obtain ⟨entry, he, rfl⟩ := List.mem_map.1 hm
    obtain ⟨reused, hr, rfl⟩ := List.mem_map.1 he
    obtain ⟨hash, hdrawn⟩ := (hc.split.2 reused hr).1
    exact ⟨hash, reused.descriptor, hdrawn, rfl⟩
  · intro planned hm
    obtain ⟨name, -, hfind⟩ := List.mem_filterMap.1 hm
    rcases (hmem name planned hfind).2 with hm | hm
    · exact Or.inr (hreused planned hm).1
    · exact Or.inl (hfresh planned hm)

/-- A plan that can be made, and where its types come from. -/
theorem plan_spec {unit : SourceUnit} {registry : Registry} {plan : Plan}
    (h : (unit.plan registry).result = .ok plan) :
    ∃ base, Sourced registry base plan.types := by
  unfold SourceUnit.plan at h
  rw [Logged.result_bind_eq_ok_iff] at h
  obtain ⟨⟨contents, shared⟩, -, h⟩ := h
  rw [Logged.result_bind_eq_ok_iff] at h
  obtain ⟨resolution, hr, h⟩ := h
  rw [Logged.result_bind_eq_ok_iff] at h
  obtain ⟨types, ht, h⟩ := h
  obtain rfl := Except.ok.inj h
  obtain ⟨distinct, handled, referenced, hc⟩ := resolve_eq_ok hr
  exact ⟨_, plannedTypes_spec hc ht⟩

end UniformLayout
