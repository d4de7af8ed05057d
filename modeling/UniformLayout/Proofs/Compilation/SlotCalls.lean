import UniformLayout.Proofs.Compilation.Slots

/-!
# The calls that ask for binding slots

A unit that is compiled asks for one slot for each of its blocks, in the order of the waves, with
the slot that the block itself names. It makes no other call. Whether the registry has the type of the
block already plays no part in this, nor does how often the block is declared.

* `assignSlots_recording`: handing out slots, with the requests noted by any allocator.
* `compile_recording`: the same for a call of `compile`.
* `emitAll_served`: each type is returned with the slot under its own name.
* `Resolution.Course.blocksInOrder`: the blocks of a plan are those of the unit, wave by wave.

Main statement: `slot_calls_of_compile`.
-/

namespace UniformLayout

open BindingPool

variable {σ τ : Type}

/-! ## Recorded calls -/

theorem allocate_recording (allocator : SlotAllocator σ) (request : Option Nat) (state : σ)
    (calls : List (Option Nat)) :
    allocator.recording.allocate request (state, calls) =
      ((allocator.allocate request state).1, (allocator.allocate request state).2,
        calls ++ [request]) := rfl

/-- Handing out slots makes the requests of the blocks, in order, and no others. -/
theorem assignSlots_recording {allocator : SlotAllocator σ} {limit : Nat}
    {types : List PlannedType} {state : σ} {given : SlotTable}
    (h : (assignSlots limit allocator types state).1 = .ok given) (calls : List (Option Nat)) :
    assignSlots limit allocator.recording types (state, calls) =
      (.ok given, (assignSlots limit allocator types state).2, calls ++ requestsOf types) := by
  induction types generalizing state given calls with
  | nil =>
    obtain rfl := Except.ok.inj h
    rw [show requestsOf [] = [] from rfl, List.append_nil]
    rfl
  | cons planned rest ih =>
    unfold assignSlots at h ⊢
    cases hk : planned.declaration.kind with
    | struct =>
      rw [hk] at h
      rw [requestsOf_cons_of_not_block (by rw [hk]; rfl)]
      exact ih h calls
    | uniformSet =>
      rw [hk] at h
      rw [requestsOf_cons_of_not_block (by rw [hk]; rfl)]
      dsimp only at h ⊢
      cases hu : assignTextureUnits planned.layout.fields limit with
      | error cause =>
        rw [hu] at h
        cases h
      | ok firsts =>
        rw [hu] at h
        exact ih h calls
    | uniformBlock request instanceName packing =>
      rw [hk] at h
      rw [requestsOf_cons_of_block (by rw [hk]; rfl), hk]
      dsimp only at h ⊢
      rw [allocate_recording]
      rcases hg : allocator.allocate request state with ⟨cause | slot, next⟩
      · rw [hg] at h
        cases h
      · rw [hg] at h
        dsimp only at h ⊢
        cases ho : (assignSlots limit allocator rest next).1 with
        | error e =>
          rw [ho] at h
          cases h
        | ok others =>
          rw [ho] at h
          obtain rfl := Except.ok.inj h
          rw [ih ho (calls ++ [request]), List.append_assoc]
          rfl

/-- A workspace whose allocator has noted these requests. -/
def Workspace.noted (work : Workspace σ τ) (calls : List (Option Nat)) :
    Workspace (σ × List (Option Nat)) τ :=
  ⟨work.registry, (work.slots, calls), work.artifacts⟩

/-- A call that notes its requests does what it does without. -/
theorem compile_recording {settings : Settings} {allocator : SlotAllocator σ}
    {sink : ArtifactSink τ} {unit : SourceUnit} {work : Workspace σ τ} {plan : Plan}
    {given : SlotTable} (hplan : (unit.plan work.registry).result = .ok plan)
    (ha : (assignSlots settings.bindings.maxTextureUnits allocator plan.types work.slots).1 =
      .ok given) :
    compile settings allocator.recording sink unit (work.noted []) =
      ((compile settings allocator sink unit work).1,
        (compile settings allocator sink unit work).2.noted (requestsOf plan.types)) := by
  unfold compile Workspace.noted
  rcases hp : unit.plan work.registry with ⟨notices, result⟩
  rw [hp] at hplan
  obtain rfl : result = .ok plan := hplan
  dsimp only
  rw [assignSlots_recording ha []]
  generalize assignSlots settings.bindings.maxTextureUnits allocator plan.types work.slots =
    outcome at ha
  obtain ⟨result, slots⟩ := outcome
  obtain rfl : result = .ok given := ha
  rfl

/-! ## Returned slots -/

/-- The type is returned under its own name, with the slot under this name. -/
structure PlannedType.ServedAs (slots : SlotTable) (planned : PlannedType)
    (emitted : EmittedType) : Prop where
  name : emitted.declaredName = planned.name
  slot : emitted.bindingSlot = slots.lookup planned.name

theorem emitType_served {scope : EmissionScope τ} {planned : PlannedType}
    {state : EmissionState τ} {emitted : EmittedType}
    (h : (emitType scope planned state).1 = .ok emitted) :
    planned.ServedAs scope.slots emitted := by
  unfold emitType at h
  split at h
  · cases h
  · dsimp only at h
    split at h
    · cases h
    · split at h
      · obtain rfl := Except.ok.inj h
        exact ⟨rfl, rfl⟩
      · dsimp only at h
        unfold Except.map at h
        split at h
        · cases h
        · obtain rfl := Except.ok.inj h
          exact ⟨rfl, rfl⟩

theorem emitAll_served {scope : EmissionScope τ} {types : List PlannedType}
    {state : EmissionState τ} {emitted : List EmittedType}
    (h : (emitAll scope types state).1 = .ok emitted) :
    List.Forall₂ (PlannedType.ServedAs scope.slots) types emitted := by
  induction types generalizing state emitted with
  | nil =>
    obtain rfl := Except.ok.inj h
    exact .nil
  | cons planned rest ih =>
    unfold emitAll at h
    rcases ht : emitType scope planned state with ⟨e | first, after⟩
    · rw [ht] at h
      cases h
    · rw [ht] at h
      dsimp only at h
      cases ho : (emitAll scope rest after).1 with
      | error e =>
        rw [ho] at h
        cases h
      | ok others =>
        rw [ho] at h
        obtain rfl := Except.ok.inj h
        exact .cons (emitType_served (congrArg Prod.fst ht)) (ih ho)

/-! ## Blocks -/

/-- The blocks among the declarations, in the order in which the waves have their names. -/
def blocksInOrder (waves : List (List String)) (decls : List TypeDeclaration) :
    List TypeDeclaration :=
  waves.flatten.filterMap fun name =>
    (decls.filter (·.kind.isBlock)).find? (·.name == name)

theorem Resolution.Course.blocksInOrder {registry : Registry} {key : String}
    {decls distinct handled : List TypeDeclaration} {resolution referenced : Resolution}
    (hc : resolution.Course registry key decls distinct handled referenced) :
    blocksInOrder resolution.waves distinct = handled.filter (·.kind.isBlock) := by
  unfold UniformLayout.blocksInOrder
  rw [hc.waves, List.filterMap_map]
  refine Eq.trans (List.filterMap_congr fun decl hm => ?_)
    (congrFun (List.filterMap_eq_filter (p := (·.kind.isBlock))) handled)
  have hdistinct := hc.perm.mem_iff.1 hm
  have hnodup : ((distinct.filter (·.kind.isBlock)).map TypeDeclaration.name).Nodup :=
    hc.first.nodup.sublist (List.filter_sublist.map _)
  cases hb : decl.kind.isBlock with
  | true =>
    have hmem : decl ∈ distinct.filter (·.kind.isBlock) := List.mem_filter.2 ⟨hdistinct, hb⟩
    exact (find?_name_eq hnodup hmem).trans (by simp [hb])
  | false =>
    have hnone : (distinct.filter (·.kind.isBlock)).find? (·.name == decl.name) = none := by
      rw [List.find?_eq_none]
      intro block hblock hname
      obtain ⟨hblock, hkind⟩ := List.mem_filter.1 hblock
      obtain rfl := List.inj_on_of_nodup_map hc.first.nodup hblock hdistinct (eq_of_beq hname)
      rw [hb] at hkind
      cases hkind
    rw [Function.comp_apply, hnone, Option.guard, if_neg (by rw [hb]; decide)]

/-- What a unit asks of its pool and what it gets. `blocks` are asked for in this order. -/
structure SlotCalls (before : BindingPool) (blocks : List TypeDeclaration) (slots : List Nat)
    (after : BindingPool) (compiled : CompiledUnit) : Prop where
  /-- Each slot is the answer to the request of its block. -/
  answers : before.Serves (blocks.map (·.kind.bindingSlot?)) slots after
  /-- Each block is returned with its slot, which is the one that it names if it names one. -/
  returned : List.Forall₂ (fun block slot =>
    (∃ emitted, compiled.type? block.name = some emitted ∧ emitted.bindingSlot = some slot) ∧
      ∀ wanted, block.kind.bindingSlot? = some wanted → wanted = slot) blocks slots
  /-- Nothing else is returned with a slot. -/
  complete : compiled.types.filterMap EmittedType.bindingSlot = slots
  nodup : slots.Nodup
  free : ∀ slot ∈ slots, slot < before.max ∧ slot ∉ before.used
  new : ∀ slot, slot ∈ after.used ∧ slot ∉ before.used ↔ slot ∈ slots
  kept : ∀ slot ∈ before.used, slot ∈ after.used

/-- Types that are returned with the slots that their pool served for them. -/
theorem SlotCalls.of_served {types : List PlannedType} {before after : BindingPool}
    {slots : List Nat} {compiled : CompiledUnit} (hn : (types.map PlannedType.name).Nodup)
    (hs : before.Serves (requestsOf types) slots after)
    (hall : List.Forall₂ (PlannedType.ServedAs (slotTable types slots)) types compiled.types) :
    SlotCalls before ((blocksOf types).map PlannedType.declaration) slots after compiled := by
  have hgrants := hs.grants
  have hanswers := hgrants.answers
  rw [requestsOf_eq, List.forall₂_map_left_iff] at hanswers
  obtain ⟨hfound, htable⟩ := filterMap_lookup_slotTable hn hanswers.length_eq
  have hnames : (compiled.types.map EmittedType.declaredName).Nodup := by
    rwa [map_eq_of_forall₂ hall fun _ _ _ he => he.name]
  have htype : ∀ planned ∈ types, ∀ slot,
      (slotTable types slots).lookup planned.name = some slot →
      ∃ emitted, compiled.type? planned.name = some emitted ∧ emitted.bindingSlot = some slot := by
    intro planned hm slot hslot
    obtain ⟨emitted, hemitted, he⟩ := exists_of_mem_left hall hm
    exact ⟨emitted, he.name ▸ find?_name_eq hnames hemitted, he.slot.trans hslot⟩
  have hsub : ∀ planned ∈ blocksOf types, planned ∈ types := fun planned hm =>
    List.mem_of_mem_filter hm
  refine ⟨?_, ?_, ?_, hgrants.nodup, fun slot hm => ?_, fun slot => ?_, fun slot hm => ?_⟩
  · rw [List.map_map]
    rw [requestsOf_eq] at hs
    exact hs
  · rw [List.forall₂_map_left_iff]
    have hboth := List.Forall₂.mp (fun _ _ => And.intro) hfound hanswers
    refine ((List.forall₂_and_left _ _).2 ⟨hsub, hboth⟩).imp ?_
    rintro planned slot ⟨hm, hlookup, hwanted⟩
    exact ⟨htype planned hm slot hlookup, hwanted⟩
  · exact (filterMap_eq_of_forall₂ hall fun _ _ _ he => he.slot).trans htable
  · exact ⟨hgrants.below slot hm, hgrants.new slot hm⟩
  · rw [hgrants.mem_used_iff]
    constructor
    · rintro ⟨hm | hused, hnew⟩
      · exact hm
      · exact absurd hused hnew
    · exact fun hm => ⟨.inl hm, hgrants.new slot hm⟩
  · exact hgrants.mem_used_iff.2 (.inr hm)

/-- **Calls for slots.** A unit that is compiled makes one request for each of its blocks, in the
order of the waves and with the slot that the block names, and no other request. The slots that
answer them are returned under the names of the blocks; they are distinct, were free, and are all
that is newly in use. -/
theorem slot_calls_of_compile {settings : Settings} {sink : ArtifactSink τ} {unit : SourceUnit}
    {work : Workspace BindingPool τ} {compiled : CompiledUnit}
    (h : (compile settings allocator sink unit work).1.result = .ok compiled) :
    ∃ contents shared resolution distinct slots,
      unit.read.result = .ok (contents, shared) ∧
      (resolve work.registry unit.key (SourceUnit.declarations contents shared)).result =
        .ok resolution ∧
      (deduplicate unit.key (SourceUnit.declarations contents shared)).result = .ok distinct ∧
      (blocksInOrder resolution.waves distinct).Perm (distinct.filter (·.kind.isBlock)) ∧
      compile settings allocator.recording sink unit (work.noted []) =
        ((compile settings allocator sink unit work).1,
          (compile settings allocator sink unit work).2.noted
            ((blocksInOrder resolution.waves distinct).map (·.kind.bindingSlot?))) ∧
      SlotCalls work.slots (blocksInOrder resolution.waves distinct) slots
        (compile settings allocator sink unit work).2.slots compiled := by
  obtain ⟨plan, given, hplan, ha, he⟩ := compile_eq_ok h
  obtain ⟨contents, shared, resolution, distinct, referenced, hread, hr, hd, hc⟩ :=
    course_of_plan hplan
  have hblocks : blocksInOrder resolution.waves distinct =
      (blocksOf plan.types).map PlannedType.declaration := by
    rw [hc.blocksInOrder, blocksOf, List.filter_map]
    rfl
  have hrequests : (blocksInOrder resolution.waves distinct).map (·.kind.bindingSlot?) =
      requestsOf plan.types := by
    rw [hblocks, requestsOf_eq, List.map_map]
    rfl
  have hnodup : (plan.types.map PlannedType.name).Nodup := by
    have hnames := hc.names_nodup
    rwa [List.map_map] at hnames
  have hall := emitAll_served he
  have hrecording : compile settings allocator.recording sink unit (work.noted []) =
      ((compile settings allocator sink unit work).1,
        (compile settings allocator sink unit work).2.noted (requestsOf plan.types)) :=
    compile_recording hplan ha
  have hslots : (compile settings allocator sink unit work).2.slots =
      (assignSlots settings.bindings.maxTextureUnits allocator plan.types work.slots).2 :=
    (compile_of_plan hplan).1
  have hcourse := assignSlots_course settings.bindings.maxTextureUnits plan.types work.slots
  generalize assignSlots settings.bindings.maxTextureUnits allocator plan.types work.slots =
    outcome at hcourse ha hslots
  cases hcourse with
  | stopped before slots split hs stops => cases ha
  | @served slots after hs units =>
    obtain rfl := Except.ok.inj ha
    refine ⟨contents, shared, resolution, distinct, slots, hread, hr, hd, ?_, ?_, ?_⟩
    · rw [hc.blocksInOrder]
      exact hc.perm.filter _
    · rw [hrequests]
      exact hrecording
    · rw [hslots, hblocks]
      exact .of_served hnodup hs hall

/-- Slots 0 and 1 are taken. -/
def busyWork : Workspace BindingPool Artifacts :=
  { freshWork with slots := { max := 72, used := [0, 1] } }

/-- A block with a slot of its own, and one without, which is declared twice. -/
def litUnit : SourceUnit where
  key := "lit.frag"
  text := "layout(binding=4)uniform Lights\x7bvec4 at;\x7d;uniform Fog\x7bfloat near;\x7d;
uniform Fog\x7bfloat near;\x7d;"

theorem slot_calls_of_compile_lit :
    ∃ compiled waves distinct slots,
      (compile {} BindingPool.allocator memorySink litUnit busyWork).1.result = .ok compiled ∧
        SlotCalls busyWork.slots (blocksInOrder waves distinct) slots
          (compile {} BindingPool.allocator memorySink litUnit busyWork).2.slots compiled ∧
        compiled.types.filterMap EmittedType.bindingSlot = [4, 2] := by
  have hcompiled : (compile {} BindingPool.allocator memorySink litUnit
      busyWork).1.result.toOption.any (fun compiled =>
        compiled.types.filterMap EmittedType.bindingSlot == [4, 2]) = true := by
    decide +kernel
  obtain ⟨compiled, hok, hslots⟩ := exists_ok_of_any hcompiled
  obtain ⟨-, -, resolution, distinct, slots, -, -, -, -, -, hall⟩ := slot_calls_of_compile hok
  exact ⟨compiled, resolution.waves, distinct, slots, hok, hall, eq_of_beq hslots⟩

end UniformLayout
