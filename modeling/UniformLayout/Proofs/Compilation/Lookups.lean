import UniformLayout.Proofs.Compilation.Failure
import UniformLayout.Proofs.Compilation.Origin
import UniformLayout.Proofs.Compilation.Refusals

/-!
# Look-ups that never fail

Three look-ups of a call of `compile` are guarded by an error of their own: that of a nested layout
while a declaration is laid out, and those of an identity while a type is emitted and while its schema
is built. None of them comes up with nothing, over any registry of the compiler.

* `Resolution.Course.covers`: the layouts that a declaration needs are there when its turn comes.
* `Resolution.Course.layOutAll_failsWith`: what holds of every error of laying out one declaration holds
  of every error of laying out a unit.
* `Plan.identified`: the hashes that a plan uses have identities once its types are registered.

Main statement: `lookups_succeed`.
-/

namespace UniformLayout

variable {registry : Registry} {limit : Nat} {key : String}
  {decls distinct handled : List TypeDeclaration} {resolution referenced : Resolution}

/-! ## Nested layouts -/

theorem isSome_lookup_cons {nested : LayoutTable} {name other : String} (layout : StructLayout)
    (h : (nested.lookup name).isSome) :
    (List.lookup name ((other, layout) :: nested)).isSome := by
  rw [List.lookup_cons]
  split
  · rfl
  · exact h

/-- What a reference resolves to is listed under its name. -/
theorem resolveReferences_listed
    (h : resolveReferences registry key decls = .ok resolution) :
    ∀ name, resolution.knows name → ∃ entry ∈ resolution.reused, entry.name = name := by
  refine resolveReferences_induction
    (P := fun found => ∀ name, found.knows name → ∃ entry ∈ found.reused, entry.name = name)
    (fun name hk => by cases hk) ?_ h
  intro owner _ name _ _ before after hb ha other hk
  rcases resolveReference_eq_ok ha with ⟨-, rfl⟩ | ⟨-, identity, descriptor, -, -, rfl⟩
  · exact hb other hk
  · by_cases he : other = name
    · exact ⟨_, List.mem_append_right _ (List.mem_singleton_self _), he.symm⟩
    · unfold Resolution.knows at hk
      rw [Table.lookup_insert_of_ne he] at hk
      obtain ⟨entry, hm, hname⟩ := hb other hk
      exact ⟨entry, List.mem_append_left _ hm, hname⟩

theorem isSome_reusedLayouts_of_mem {entry : ReusedType} (hm : entry ∈ resolution.reused) :
    (resolution.reusedLayouts.lookup entry.name).isSome :=
  List.lookup_isSome_iff.2 ⟨_, List.mem_map_of_mem hm, beq_self_eq_true _⟩

/-- What the unit takes from the registry is found under the names of its declarations. -/
theorem Resolution.Course.isSome_reusedLayouts
    (hc : resolution.Course registry key decls distinct handled referenced)
    {decl : TypeDeclaration} (hd : decl ∈ handled)
    (hk : (registry.descriptorOfHash? (resolution.hashOf decl)).isSome) :
    (resolution.reusedLayouts.lookup decl.name).isSome := by
  obtain ⟨descriptor, hdescriptor⟩ := Option.isSome_iff_exists.1 hk
  have hm : { name := decl.name, descriptor, declaration := some decl } ∈ resolution.reused := by
    rw [hc.parts.2]
    refine List.mem_append_right _ (List.mem_filterMap.2 ⟨decl, hd, ?_⟩)
    rw [hdescriptor]
    rfl
  exact isSome_reusedLayouts_of_mem hm

/-- What the unit only refers to is found under its name. -/
theorem Resolution.Course.isSome_referenced
    (hc : resolution.Course registry key decls distinct handled referenced) {name : String}
    (hk : referenced.knows name) : (resolution.reusedLayouts.lookup name).isSome := by
  obtain ⟨entry, hm, rfl⟩ := resolveReferences_listed hc.references name hk
  refine isSome_reusedLayouts_of_mem ?_
  rw [hc.parts.2]
  exact List.mem_append_left _ hm

/-- Once the references and all declarations before it have layouts, so have all aggregates that a
declaration uses. -/
theorem Resolution.Course.covers
    (hc : resolution.Course registry key decls distinct handled referenced)
    {done rest : List TypeDeclaration} {decl : TypeDeclaration}
    (hsplit : handled = done ++ decl :: rest) {nested : LayoutTable}
    (hreferred : ∀ name, referenced.knows name → (nested.lookup name).isSome)
    (hdone : ∀ first ∈ done, (nested.lookup first.name).isSome) : nested.Covers decl.fields := by
  intro field hf hb
  have hhandles := hc.handles
  rw [hsplit] at hhandles
  rcases handles_order hhandles field.typeName (mem_dependencies.2 ⟨field, hf, hb, rfl⟩) with
    hname | hname
  · exact hreferred _ hname
  · obtain ⟨first, hfirst, he⟩ := List.mem_map.1 hname
    rw [← he]
    exact hdone first hfirst

/-- What holds of every error of laying out one declaration, on top of layouts for all that it uses, holds
of every error of laying out the unit. The induction is on the declarations that are still to be
handled; the table holds what was reused and what has been made. -/
theorem Resolution.Course.layOutAll_failsWith
    (hc : resolution.Course registry key decls distinct handled referenced)
    {I : LayoutTable → Prop} {E : CompileError → Prop} (start : I resolution.reusedLayouts)
    (made : ∀ decl ∈ handled, ∀ nested : LayoutTable, I nested → nested.Covers decl.fields →
      ∀ layout, decl.layOut (resolution.hashOf decl) nested = .ok layout →
        I ((decl.name, layout) :: nested))
    (failed : ∀ decl ∈ handled, ∀ nested : LayoutTable, I nested → nested.Covers decl.fields →
      ∀ e, decl.layOut (resolution.hashOf decl) nested = .error e → E e) {e : CompileError}
    (h : layOutAll resolution.reusedLayouts resolution.order = .error e) : E e := by
  have hall : ∀ (pending done : List TypeDeclaration) (nested : LayoutTable),
      handled = done ++ pending → I nested →
      (∀ name, referenced.knows name → (nested.lookup name).isSome) →
      (∀ decl ∈ done, (nested.lookup decl.name).isSome) →
      (∀ decl ∈ pending, (registry.descriptorOfHash? (resolution.hashOf decl)).isSome →
        (nested.lookup decl.name).isSome) →
      layOutAll nested (newTypes registry resolution.hashOf pending) = .error e → E e := by
    intro pending
    induction pending with
    | nil =>
      intro done nested _ _ _ _ _ h
      cases h
    | cons decl rest ih =>
      intro done nested hsplit hholds hreferred hdone hknown h
      have hd : decl ∈ handled := by
        rw [hsplit]
        exact List.mem_append_right _ List.mem_cons_self
      obtain ⟨hself, hrest⟩ := List.forall_mem_cons.1 hknown
      have hnext : handled = (done ++ [decl]) ++ rest := by
        rw [hsplit, List.append_assoc]
        rfl
      unfold newTypes at h
      rw [List.filterMap_cons] at h
      by_cases hk : (registry.descriptorOfHash? (resolution.hashOf decl)).isSome
      · rw [if_pos hk] at h
        refine ih _ nested hnext hholds hreferred (List.forall_mem_append.2 ⟨hdone, ?_⟩) hrest h
        exact List.forall_mem_singleton.2 (hself hk)
      · rw [if_neg hk] at h
        have hcovers := hc.covers hsplit hreferred hdone
        rw [layOutAll] at h
        rcases bind_eq_error_iff.1 h with hfirst | ⟨layout, hlayout, h⟩
        · exact failed decl hd nested hholds hcovers e hfirst
        · rcases bind_eq_error_iff.1 h with hothers | ⟨others, -, h⟩
          · refine ih _ _ hnext (made decl hd nested hholds hcovers layout hlayout)
              (fun name hname => isSome_lookup_cons layout (hreferred name hname)) ?_
              (fun first hm hfirst => isSome_lookup_cons layout (hrest first hm hfirst)) hothers
            refine List.forall_mem_append.2 ⟨fun first hm => ?_, List.forall_mem_singleton.2 ?_⟩
            · exact isSome_lookup_cons layout (hdone first hm)
            · rw [List.lookup_cons, beq_self_eq_true]
              rfl
          · cases h
  rw [hc.parts.1] at h
  refine hall handled [] resolution.reusedLayouts rfl start (fun _ => hc.isSome_referenced)
    (by simp) ?_ h
  intro decl hd hk
  exact hc.isSome_reusedLayouts hd hk

/-- Some number of a layout does not fit. -/
def CompileError.IsOverflow (e : CompileError) : Prop :=
  ∃ typeName field, e = .layoutOverflow typeName field

theorem layOut_field_overflow {owner : String} {nested : LayoutTable} {cursor : Nat}
    {field : FieldDeclaration}
    (hn : field.baseType? = none → (nested.lookup field.typeName).isSome) {e : CompileError}
    (h : field.layOut owner nested cursor = .error e) : e.IsOverflow := by
  unfold FieldDeclaration.layOut at h
  rcases bind_eq_error_iff.1 h with hshape | ⟨shape, -, hplace⟩
  · unfold FieldDeclaration.shape at hshape
    split at hshape
    · cases hshape
    · rename_i hbase
      obtain ⟨layout, hlayout⟩ := Option.isSome_iff_exists.1 (hn hbase)
      rw [hlayout] at hshape
      cases hshape
  · split at hplace
    · cases hplace
    · obtain rfl := Except.error.inj hplace
      exact ⟨_, _, rfl⟩

theorem layOutFields_overflow {owner : String} {nested : LayoutTable} {cursor : Nat}
    {fields : List FieldDeclaration} (hn : nested.Covers fields) {e : CompileError}
    (h : layOutFields owner nested cursor fields = .error e) : e.IsOverflow := by
  induction fields generalizing cursor with
  | nil => cases h
  | cons field rest ih =>
    rw [layOutFields] at h
    rcases bind_eq_error_iff.1 h with hfirst | ⟨placed, -, h⟩
    · exact layOut_field_overflow hn.head hfirst
    · rcases bind_eq_error_iff.1 h with hrest | ⟨others, -, h⟩
      · exact ih hn.tail hrest
      · cases h

theorem layOut_overflow {decl : TypeDeclaration} {contentHash : String} {nested : LayoutTable}
    (hn : nested.Covers decl.fields) {e : CompileError}
    (h : decl.layOut contentHash nested = .error e) : e.IsOverflow := by
  unfold TypeDeclaration.layOut at h
  rcases bind_eq_error_iff.1 h with hfields | ⟨fields, -, h⟩
  · exact layOutFields_overflow hn hfields
  · dsimp only at h
    split at h
    · cases h
    · obtain rfl := Except.error.inj h
      exact ⟨_, _, rfl⟩

/-- The types of a resolved unit can be laid out, or some number does not fit. -/
theorem Resolution.Course.plannedTypes_overflow
    (hc : resolution.Course registry key decls distinct handled referenced) {e : CompileError}
    (h : resolution.plannedTypes = .error e) : e.IsOverflow := by
  unfold Resolution.plannedTypes at h
  rcases bind_eq_error_iff.1 h with h | ⟨fresh, -, h⟩
  · exact hc.layOutAll_failsWith (I := fun _ => True) trivial (fun _ _ _ _ _ _ _ => trivial)
      (fun decl _ nested _ hcovers e => layOut_overflow hcovers) h
  · cases h

/-- No nested layout is missed while a unit is planned. -/
theorem plan_resolved {unit : SourceUnit} {e : CompileError}
    (h : (unit.plan registry).result = .error e) :
    ∀ typeName dependency, e ≠ .unresolvedType typeName dependency := by
  have hplan : (unit.plan registry).FailsWith fun e =>
      ∀ typeName dependency, e ≠ .unresolvedType typeName dependency := by
    unfold SourceUnit.plan
    refine ((failsWith_unitRead unit).mono fun _ h => h.early).bind fun read _ => ?_
    refine ((failsWith_resolve registry _).mono fun _ h => h.early).bind fun resolution hr => ?_
    refine (Logged.failsWith_lift fun e he => ?_).bind fun types _ => Logged.failsWith_pure
    obtain ⟨distinct, handled, referenced, hc⟩ := resolve_eq_ok hr
    obtain ⟨typeName, field, rfl⟩ := hc.plannedTypes_overflow he
    intro _ _ hsame
    cases hsame
  exact hplan e h

/-! ## Identities -/

/-- The hash of the planned type and those of all layouts in its own have identities. -/
structure Registry.Identifies (registry : Registry) (planned : PlannedType) : Prop where
  self : (registry.identityOfHash? planned.contentHash).isSome
  nested : planned.layout.Throughout fun layout =>
    (registry.identityOfHash? layout.contentHash).isSome

theorem Registry.Consistent.isSome_identityOfHash (h : registry.Consistent) {hash : String}
    (hk : (registry.byHash.lookup hash).isSome) : (registry.identityOfHash? hash).isSome := by
  obtain ⟨index, record, -, -, hidentity, -⟩ := h.record_of_hash hk
  rw [hidentity]
  rfl

/-- Once the types of a plan are registered, every hash that its layouts use has an identity: those of
new types by now, and those of types that were generated before from then on. -/
theorem Plan.identified {unit : SourceUnit} {plan : Plan} (hs : registry.Settled limit)
    (hplan : (unit.plan registry).result = .ok plan) (ids : unit.FindsIds registry) :
    ∀ planned ∈ plan.types, (registry.registerAll
      (plan.types.map fun planned => (planned.declaration, planned.contentHash))).2.Identifies
        planned := by
  obtain ⟨base, hsourced⟩ := plan_spec hplan
  have hr := Registry.registerAll_spec hs.wellFormed (ids plan hplan)
  generalize hafter : (registry.registerAll
    (plan.types.map fun planned => (planned.declaration, planned.contentHash))).2 = after at hr ⊢
  have hidentity : ∀ hash, (after.byHash.lookup hash).isSome → (after.identityOfHash? hash).isSome :=
    fun hash => hr.wellFormed.consistent.isSome_identityOfHash
  have hself : ∀ planned ∈ plan.types, (after.identityOfHash? planned.contentHash).isSome :=
    fun planned hm => hidentity _ (hr.known _ (List.mem_map_of_mem hm))
  have hoffered : ∀ layout, registry.Offers limit layout →
      (after.identityOfHash? layout.contentHash).isSome := by
    intro layout ho
    obtain ⟨index, hi⟩ := Option.isSome_iff_exists.1 (ho.known hs.wellFormed.consistent)
    exact hidentity _ (by rw [hr.hashes _ _ hi]; rfl)
  refine fun planned hm => ⟨hself planned hm, hsourced.throughout
    (fun hash descriptor hd => (hs.usable hd).layout.mono hoffered) ?_ planned hm⟩
  intro other ho hnew
  rcases hsourced.each other ho with hfresh | ⟨descriptor, hash, hknown, -⟩
  · rw [hfresh.contentHash]
    exact hself other ho
  · rw [hnew] at hknown
    cases hknown

/-- **Look-ups.** Over any registry of the compiler, every aggregate that a type of a unit uses has its
layout when the type is laid out, every hash in a layout has an identity when the types are emitted, and
so no call of `compile` finds a type unresolved. -/
theorem lookups_succeed {σ τ : Type} {settings : Settings} {allocator : SlotAllocator σ}
    {sink : ArtifactSink τ} {unit : SourceUnit} {work : Workspace σ τ}
    (reached : Reached settings work.registry) (ids : unit.FindsIds work.registry) :
    (∀ typeName dependency,
      (unit.plan work.registry).result ≠ .error (.unresolvedType typeName dependency)) ∧
    (∀ plan, (unit.plan work.registry).result = .ok plan → ∀ planned ∈ plan.types,
      (work.registry.registerAll
        (plan.types.map fun planned => (planned.declaration, planned.contentHash))).2.Identifies
          planned) ∧
    ∀ typeName dependency, (compile settings allocator sink unit work).1.result ≠
      .error (.unresolvedType typeName dependency) := by
  have hplan : ∀ typeName dependency,
      (unit.plan work.registry).result ≠ .error (.unresolvedType typeName dependency) :=
    fun typeName dependency h => plan_resolved h typeName dependency rfl
  refine ⟨hplan, fun plan hp => Plan.identified reached.settled hp ids, fun typeName dependency h => ?_⟩
  rcases compile_eq_error h with hp | ⟨plan, hp, ha | ⟨given, ha⟩⟩
  · exact hplan typeName dependency hp
  · obtain ⟨cause, he⟩ := assignSlots_eq_error ha
    cases he
  · obtain ⟨cause, -, he⟩ := sink_of_emission_error reached.settled ids hp ha h
    cases he

/-- The block of `lights.frag` uses its struct, and the sink refuses the block. -/
theorem lookups_succeed_narrow :
    ∃ plan, (lightsUnit.plan narrowWork.registry).result = .ok plan ∧
      (∀ planned ∈ plan.types, (narrowWork.registry.registerAll
        (plan.types.map fun planned => (planned.declaration, planned.contentHash))).2.Identifies
          planned) ∧
      ∀ typeName dependency, (compile {} BindingPool.allocator memorySink.limited lightsUnit
        narrowWork).1.result ≠ .error (.unresolvedType typeName dependency) := by
  obtain ⟨plan, hplan, -⟩ := exists_ok_of_any lightsUnit_checked.1
  have reached : Reached {} narrowWork.registry := .fresh
  obtain ⟨-, hidentified, hresolved⟩ := lookups_succeed reached lightsUnit_findsIds
  exact ⟨plan, hplan, hidentified plan hplan, hresolved⟩

end UniformLayout
