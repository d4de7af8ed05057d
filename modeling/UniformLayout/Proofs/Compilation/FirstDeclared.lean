import UniformLayout.Proofs.Compilation.Borrowed

/-!
# The first declaration of a name

Units are compiled one after the other, and some declare a name that others only use. A name that is
used means the declaration that was registered first; a later one is listed behind it, also when it
comes from the same file. So whoever uses a struct by its name gets the layout from the first call that
declared it, however often its file is edited and compiled again.

* `CompileRun`: what calls that succeed return, and the registry in the end.
* `leads_of_compile`, `Registry.Leads.compile`: what the first call that declares a name, and each later
  one, do to what the name leads to.
* `CompileRun.listed`, `CompileRun.leads`: the same along a run.

Main statement: `CompileRun.builtOn_first`. In the counterexample `shore_keeps_first_mist` a file is
compiled again with a larger struct, and a unit that uses it afterwards has room for the smaller one.
-/

namespace UniformLayout

variable {σ τ : Type}

/-! ## One call -/

theorem Registry.Consistent.identityOfHash?_of_declared {registry : Registry}
    (h : registry.Consistent) {name : String} {identity : TypeIdentity}
    (hi : registry.resolveDeclared? name = some identity) :
    registry.identityOfHash? identity.contentHash = some identity := by
  unfold resolveDeclared? recordAt? at hi
  obtain ⟨record, hr, rfl⟩ := Option.map_eq_some_iff.1 hi
  obtain ⟨index, -, hr⟩ := Option.bind_eq_some_iff.1 hr
  unfold identityOfHash?
  rw [h.ofHash_of_getElem? hr]
  rfl

section

variable {settings : Settings} {allocator : SlotAllocator σ} {sink : ArtifactSink τ}
  {unit : SourceUnit} {work : Workspace σ τ} {compiled : CompiledUnit}

/-- A call that succeeds registers the declarations of its plan. -/
theorem adopts_of_compile (reached : Reached settings work.registry)
    (ids : unit.FindsIds work.registry) {plan : Plan}
    (hplan : (unit.plan work.registry).result = .ok plan)
    (h : (compile settings allocator sink unit work).1.result = .ok compiled) :
    Registry.Adopts (plan.types.map fun planned => (planned.declaration, planned.contentHash))
      work.registry (compile settings allocator sink unit work).2.registry := by
  obtain ⟨other, given, state, ho, ha, he, hafter, -⟩ := compile_emits h
  obtain rfl := Except.ok.inj (ho.symm.trans hplan)
  have hs := reached.settled
  rw [hafter]
  exact (emittable_of_plan hplan ids ha).adopts hs (contentHash_of_plan hs hplan)
    (settings.emissionScope sink given) rfl he

theorem declaresIn_of_plan {registry : Registry} {plan : Plan}
    (hplan : (unit.plan registry).result = .ok plan) {planned : PlannedType}
    (hm : planned ∈ plan.types) :
    unit.DeclaresIn planned.name planned.declaration.source.file := by
  obtain ⟨contents, shared, resolution, hread, hr, ht⟩ := plan_eq_ok hplan
  obtain ⟨distinct, handled, referenced, hc⟩ := resolve_eq_ok hr
  obtain ⟨decl, hd, hstands⟩ := exists_of_mem_right (hc.stands ht) hm
  refine ⟨contents, shared, hread, decl, mem_of_declared (hc.mem_handled.1 hd), ?_, ?_⟩
  · rw [PlannedType.name, hstands.declaration]
  · rw [hstands.declaration]

/-- A name that the unit declares is the name of one of its types. -/
theorem planned_of_declares {registry : Registry} {plan : Plan}
    (hplan : (unit.plan registry).result = .ok plan) {name : String} (hd : unit.Declares name) :
    ∃ planned ∈ plan.types, planned.name = name := by
  obtain ⟨contents, shared, resolution, hread, hr, ht⟩ := plan_eq_ok hplan
  obtain ⟨distinct, handled, referenced, hdistinct, hc⟩ := resolve_course hr
  obtain ⟨file, contents', shared', hread', decl, hm, rfl, -⟩ := hd
  obtain ⟨rfl, rfl⟩ := Prod.mk.inj (Except.ok.inj (hread.symm.trans hread'))
  obtain ⟨kept, hkept, hname, -⟩ := exists_mem_deduplicate hdistinct decl hm
  obtain ⟨planned, hp, hstands⟩ := exists_of_mem_left (hc.stands ht) (hc.perm.mem_iff.2 hkept)
  exact ⟨planned, hp, by rw [PlannedType.name, hstands.declaration, hname]⟩

/-- What is listed under a name was listed before, or the unit declares the name in this file. -/
theorem listed_of_compile (reached : Reached settings work.registry)
    (ids : unit.FindsIds work.registry)
    (h : (compile settings allocator sink unit work).1.result = .ok compiled) {name : String}
    {entry : String × Nat}
    (hm : entry ∈ (compile settings allocator sink unit work).2.registry.declarationsOf name) :
    entry ∈ work.registry.declarationsOf name ∨ unit.DeclaresIn name entry.1 := by
  obtain ⟨plan, -, hplan, -⟩ := compile_eq_ok h
  refine ((adopts_of_compile reached ids hplan h).listed name entry hm).imp_right ?_
  rintro ⟨pair, hpair, halias, -⟩
  obtain ⟨planned, hp, rfl⟩ := List.mem_map.1 hpair
  obtain ⟨rfl, hfile⟩ := Alias.mk.inj halias
  rw [← hfile]
  exact declaresIn_of_plan hplan hp

/-- A name leads to the identity wherever it is not declared, and its layout has been stored. -/
structure Registry.Leads (registry : Registry) (name : String) (identity : TypeIdentity)
    (layout : StructLayout) : Prop where
  first : registry.resolveDeclared? name = some identity
  stored : registry.stored? identity.contentHash = some layout

/-- Compiling a unit does not change what a name leads to. -/
theorem Registry.Leads.compile (reached : Reached settings work.registry)
    (ids : unit.FindsIds work.registry)
    (h : (compile settings allocator sink unit work).1.result = .ok compiled) {name : String}
    {identity : TypeIdentity} {layout : StructLayout}
    (hl : work.registry.Leads name identity layout) :
    (compile settings allocator sink unit work).2.registry.Leads name identity layout := by
  obtain ⟨plan, -, hplan, -⟩ := compile_eq_ok h
  obtain ⟨again, -, hrecalled⟩ := recalledBy_of_compile reached ids hplan h
  refine ⟨(adopts_of_compile reached ids hplan h).resolveDeclared? hl.first, ?_⟩
  obtain ⟨descriptor, hd, rfl⟩ := Option.map_eq_some_iff.1 hl.stored
  rw [Registry.stored?, hrecalled.absorbed.kept _ _ hd]
  rfl

/-- The unit returns the type under the name; the layout is that of the first type of its identity. -/
structure CompiledUnit.Returns (compiled : CompiledUnit) (name : String) (emitted : EmittedType)
    (layout : StructLayout) : Prop where
  type : compiled.type? name = some emitted
  layout : (compiled.types.find? (·.identity == emitted.identity)).map (·.descriptor.layout) =
    some layout

/-- A name that nothing has declared leads to the type that the unit returns for it. -/
theorem leads_of_compile (reached : Reached settings work.registry)
    (ids : unit.FindsIds work.registry)
    (h : (compile settings allocator sink unit work).1.result = .ok compiled) {name : String}
    (hnone : work.registry.declarationsOf name = []) (hd : unit.Declares name) :
    ∃ emitted layout, compiled.Returns name emitted layout ∧
      (compile settings allocator sink unit work).2.registry.Leads name emitted.identity layout := by
  obtain ⟨plan, -, hplan, -⟩ := compile_eq_ok h
  obtain ⟨planned, hp, rfl⟩ := planned_of_declares hplan hd
  obtain ⟨again, -, hrecalled⟩ := recalledBy_of_compile reached ids hplan h
  obtain ⟨given, -, hreturned⟩ := returned_of_compile reached ids hplan h
  obtain ⟨emitted, he, hemitted⟩ := exists_of_mem_left hreturned hp
  have hnodup := (declarations_of_plan hplan).1
  obtain ⟨first, -, -, hfirst⟩ := exists_firstLayout hp
  have hstored := (hrecalled.stored hp).trans hfirst
  refine ⟨emitted, _, ⟨type?_of_emitted (hreturned.imp fun _ _ hr => hr.emitted) hnodup he hemitted.emitted,
    (firstLayout_of_returned hemitted hreturned).trans hfirst⟩, ?_, ?_⟩
  · obtain ⟨identity, hhash, hresolved⟩ :=
      (adopts_of_compile reached ids hplan h).resolveDeclared?_of_nil (by rwa [List.map_map])
        (List.mem_map_of_mem hp) hnone
    have hc := (Reached.compile allocator sink unit work reached ids).settled.wellFormed.consistent
    have hfound := hc.identityOfHash?_of_declared hresolved
    rw [hhash, hemitted.identity] at hfound
    exact hresolved.trans hfound.symm
  · rw [hemitted.emitted.identity]
    exact hstored

end

/-! ## Runs of calls -/

/-- Calls that succeed, one after the other, each with what it returns, and the registry to which they
lead from another one. -/
inductive CompileRun (settings : Settings) (start : Registry) :
    List (SourceUnit × CompiledUnit) → Registry → Prop
  | start : CompileRun settings start [] start
  | compile {σ τ : Type} {calls : List (SourceUnit × CompiledUnit)} {compiled : CompiledUnit}
      (allocator : SlotAllocator σ) (sink : ArtifactSink τ) (unit : SourceUnit)
      (work : Workspace σ τ) (run : CompileRun settings start calls work.registry)
      (ids : unit.FindsIds work.registry)
      (ok : (UniformLayout.compile settings allocator sink unit work).1.result = .ok compiled) :
      CompileRun settings start (calls ++ [(unit, compiled)])
        (UniformLayout.compile settings allocator sink unit work).2.registry

namespace CompileRun

variable {settings : Settings} {start registry : Registry}
  {calls before after : List (SourceUnit × CompiledUnit)} {first : SourceUnit × CompiledUnit}
  {name : String}

theorem reached (run : CompileRun settings start calls registry) (hs : Reached settings start) :
    Reached settings registry := by
  induction run with
  | start => exact hs
  | compile allocator sink unit work run ids ok ih => exact .compile allocator sink unit work ih ids

/-- What is listed under a name was listed at the start, or one of the calls declares the name in this
file. -/
theorem listed (run : CompileRun settings start calls registry) (hs : Reached settings start) :
    ∀ entry ∈ registry.declarationsOf name,
      entry ∈ start.declarationsOf name ∨ ∃ call ∈ calls, call.1.DeclaresIn name entry.1 := by
  induction run with
  | start => exact fun entry hm => Or.inl hm
  | @compile _ _ calls compiled allocator sink unit work run ids ok ih =>
    intro entry hm
    rcases listed_of_compile (run.reached hs) ids ok hm with hm | hd
    · refine (ih entry hm).imp_right ?_
      rintro ⟨call, hcall, hd⟩
      exact ⟨call, List.mem_append_left _ hcall, hd⟩
    · exact Or.inr ⟨_, List.mem_append_right _ (List.mem_singleton_self _), hd⟩

/-- From the first call on that declares a name, the name leads to the type that this call returns. The
induction is on the run; the call is the last one, or comes before. -/
theorem leads (run : CompileRun settings start calls registry) (hs : Reached settings start)
    (hnone : start.declarationsOf name = []) (hcalls : calls = before ++ first :: after)
    (hbefore : ∀ call ∈ before, ¬ call.1.Declares name) (hd : first.1.Declares name) :
    ∃ emitted layout, first.2.Returns name emitted layout ∧
      registry.Leads name emitted.identity layout := by
  induction run generalizing after with
  | start => cases before <;> cases hcalls
  | @compile _ _ calls compiled allocator sink unit work run ids ok ih =>
    rcases List.eq_nil_or_concat after with rfl | ⟨others, last, rfl⟩
    · obtain ⟨rfl, hlast⟩ := List.append_inj' hcalls rfl
      obtain rfl := List.head_eq_of_cons_eq hlast
      have hunlisted : work.registry.declarationsOf name = [] := by
        refine List.eq_nil_iff_forall_not_mem.2 fun entry hm => ?_
        rcases run.listed hs entry hm with hm | ⟨call, hcall, hin⟩
        · rw [hnone] at hm
          cases hm
        · exact hbefore call hcall ⟨_, hin⟩
      exact leads_of_compile (run.reached hs) ids ok hunlisted hd
    · rw [List.concat_eq_append, ← List.cons_append, ← List.append_assoc] at hcalls
      obtain ⟨emitted, layout, hreturns, hleads⟩ := ih (List.append_inj' hcalls rfl).1
      exact ⟨emitted, layout, hreturns, hleads.compile (run.reached hs) ids ok⟩

/-- **First declarations.** A unit that uses a name without declaring it is laid out with what the first
call has returned that declared the name, whatever the later calls have declared, unless one of them
declares the name in the file of the unit itself. -/
theorem builtOn_first {allocator : SlotAllocator σ} {sink : ArtifactSink τ} {unit : SourceUnit}
    {work : Workspace σ τ} {compiled : CompiledUnit} (hs : Reached settings start)
    (unlisted : start.declarationsOf name = [])
    (run : CompileRun settings start (before ++ first :: after) work.registry)
    (earliest : ∀ call ∈ before, ¬ call.1.Declares name) (declares : first.1.Declares name)
    (elsewhere : ∀ call ∈ before ++ first :: after, ¬ call.1.DeclaresIn name unit.key)
    (used : ¬ unit.Declares name) (ids : unit.FindsIds work.registry)
    (h : (UniformLayout.compile settings allocator sink unit work).1.result = .ok compiled) :
    ∃ emitted layout, first.2.Returns name emitted layout ∧
      ∃ distinct, unit.distinct.result = .ok distinct ∧
        ∀ decl ∈ distinct, name ∈ decl.dependencies →
          ∃ built, compiled.type? decl.name = some built ∧
            built.BuiltOn work.registry name emitted.identity layout decl := by
  obtain ⟨emitted, layout, hreturns, hleads⟩ := run.leads hs unlisted rfl earliest declares
  refine ⟨emitted, layout, hreturns, ?_⟩
  refine builtOn_of_compile (run.reached hs) ids h used ⟨?_, hleads.stored⟩
  rw [← hleads.first]
  refine Registry.resolveDeclaredIn?_of_first fun entry hm he => ?_
  rcases run.listed hs entry hm with hm | ⟨call, hcall, hin⟩
  · rw [unlisted] at hm
    cases hm
  · exact elsewhere call hcall (he ▸ hin)

end CompileRun

/-! ## A file that is compiled again -/

/-- A file with one struct. -/
def mistUnit : SourceUnit where
  key := "mist.glsl"
  text := "struct Mist\x7bvec4 color;\x7d;"

/-- The same file, with another field in the struct. -/
def thickMistUnit : SourceUnit where
  key := "mist.glsl"
  text := "struct Mist\x7bvec4 color;float density;\x7d;"

/-- A unit that uses the struct by its name. -/
def shoreUnit : SourceUnit where
  key := "shore.frag"
  text := "struct Shore\x7bMist mist;\x7d;"

def mistWork : Workspace BindingPool Artifacts :=
  (compile {} BindingPool.allocator memorySink mistUnit freshWork).2

/-- The workspace once both versions of the file are compiled. -/
def thickMistWork : Workspace BindingPool Artifacts :=
  (compile {} BindingPool.allocator memorySink thickMistUnit mistWork).2

/-- Both versions compile, with a struct of 16 and one of 32 bytes. -/
theorem exists_mistRun : ∃ first second,
    CompileRun {} freshWork.registry [(mistUnit, first), (thickMistUnit, second)]
      thickMistWork.registry ∧
    (first.type? "Mist").map (·.descriptor.layout.size) = some 16 ∧
    (second.type? "Mist").map (·.descriptor.layout.size) = some 32 := by
  obtain ⟨hids, hfirst, hids', hsecond⟩ :
      mistUnit.findsFirstIds freshWork.registry = true ∧
      (compile {} BindingPool.allocator memorySink mistUnit freshWork).1.result.toOption.any
        (fun first => decide ((first.type? "Mist").map (·.descriptor.layout.size) = some 16)) =
          true ∧
      thickMistUnit.findsFirstIds mistWork.registry = true ∧
      (compile {} BindingPool.allocator memorySink thickMistUnit mistWork).1.result.toOption.any
        (fun second => decide ((second.type? "Mist").map (·.descriptor.layout.size) = some 32)) =
          true := by
    decide +kernel
  obtain ⟨first, hfirst, hsize⟩ := exists_ok_of_any hfirst
  obtain ⟨second, hsecond, hsize'⟩ := exists_ok_of_any hsecond
  refine ⟨first, second, ?_, of_decide_eq_true hsize, of_decide_eq_true hsize'⟩
  rw [mistWork] at hids' hsecond
  rw [thickMistWork, mistWork]
  exact .compile BindingPool.allocator memorySink thickMistUnit _
    (.compile BindingPool.allocator memorySink mistUnit freshWork .start (findsIds_of_plan hids)
      hfirst) (findsIds_of_plan hids') hsecond

/-- The unit that is compiled afterwards. Its field has the 16 bytes of the first version. -/
theorem exists_shore : shoreUnit.FindsIds thickMistWork.registry ∧ ∃ compiled,
    (compile {} BindingPool.allocator memorySink shoreUnit thickMistWork).1.result = .ok compiled ∧
    (compiled.type? "Shore").map (·.descriptor.layout.fields.map fun field =>
      (field.name, field.typeName, field.size)) = some [("mist", "Mist", 16)] := by
  obtain ⟨hids, hcompiled⟩ : shoreUnit.findsFirstIds thickMistWork.registry = true ∧
      (compile {} BindingPool.allocator memorySink shoreUnit
        thickMistWork).1.result.toOption.any (fun compiled => decide
          ((compiled.type? "Shore").map (·.descriptor.layout.fields.map fun field =>
            (field.name, field.typeName, field.size)) = some [("mist", "Mist", 16)])) = true := by
    decide +kernel
  obtain ⟨compiled, h, hsize⟩ := exists_ok_of_any hcompiled
  exact ⟨findsIds_of_plan hids, compiled, h, of_decide_eq_true hsize⟩

/-- The struct of the first version is what `Shore` is built on. -/
theorem builtOn_first_shore : ∃ first second compiled emitted layout distinct,
    CompileRun {} freshWork.registry [(mistUnit, first), (thickMistUnit, second)]
      thickMistWork.registry ∧
    (compile {} BindingPool.allocator memorySink shoreUnit thickMistWork).1.result = .ok compiled ∧
    first.Returns "Mist" emitted layout ∧ shoreUnit.distinct.result = .ok distinct ∧
    (∃ decl ∈ distinct, "Mist" ∈ decl.dependencies) ∧
    ∀ decl ∈ distinct, "Mist" ∈ decl.dependencies →
      ∃ built, compiled.type? decl.name = some built ∧
        built.BuiltOn thickMistWork.registry "Mist" emitted.identity layout decl := by
  obtain ⟨first, second, run, -, -⟩ := exists_mistRun
  obtain ⟨ids, compiled, h, -⟩ := exists_shore
  have huses : shoreUnit.distinct.result.toOption.any (fun distinct =>
      decide (∃ decl ∈ distinct, "Mist" ∈ decl.dependencies)) = true := by decide +kernel
  have hrun : CompileRun {} freshWork.registry
      ([] ++ (mistUnit, first) :: [(thickMistUnit, second)]) thickMistWork.registry := run
  have declares : mistUnit.Declares "Mist" := by decide +kernel
  have used : ¬ shoreUnit.Declares "Mist" := by decide +kernel
  have elsewhere : ¬ mistUnit.DeclaresIn "Mist" "shore.frag" ∧
      ¬ thickMistUnit.DeclaresIn "Mist" "shore.frag" := by decide +kernel
  obtain ⟨emitted, layout, hreturns, distinct, hdistinct, hbuilt⟩ :=
    hrun.builtOn_first Reached.fresh rfl (by simp) declares
      (List.forall_mem_cons.2 ⟨elsewhere.1, List.forall_mem_singleton.2 elsewhere.2⟩) used ids h
  obtain ⟨found, hfound, hexists⟩ := exists_ok_of_any huses
  obtain rfl := Except.ok.inj (hdistinct.symm.trans hfound)
  exact ⟨first, second, compiled, emitted, layout, distinct, run, h, hreturns, hdistinct,
    of_decide_eq_true hexists, hbuilt⟩

/-- The file is compiled again with a struct of 32 bytes, and no other file declares the name. A unit
that is compiled afterwards has 16 bytes for its field of this type. -/
theorem shore_keeps_first_mist : ∃ first second compiled,
    CompileRun {} freshWork.registry [(mistUnit, first), (thickMistUnit, second)]
      thickMistWork.registry ∧
    thickMistUnit.key = mistUnit.key ∧
    (compile {} BindingPool.allocator memorySink shoreUnit thickMistWork).1.result = .ok compiled ∧
    (second.type? "Mist").map (·.descriptor.layout.size) = some 32 ∧
    (first.type? "Mist").map (·.descriptor.layout.size) = some 16 ∧
    (compiled.type? "Shore").map (·.descriptor.layout.fields.map fun field =>
      (field.name, field.typeName, field.size)) = some [("mist", "Mist", 16)] := by
  obtain ⟨first, second, run, hfirst, hsecond⟩ := exists_mistRun
  obtain ⟨-, compiled, h, hsize⟩ := exists_shore
  exact ⟨first, second, compiled, run, rfl, h, hsecond, hfirst, hsize⟩

end UniformLayout
