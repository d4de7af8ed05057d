import UniformLayout.Proofs.Binding.Serving
import UniformLayout.Proofs.Compilation.Emitted
import UniformLayout.Proofs.Compilation.Origin
import UniformLayout.Proofs.Compilation.Refusals
import UniformLayout.Proofs.Schema.Regular

/-!
# The binding slots of a unit

A unit asks its pool for the slots of its blocks one after the other, in the order of its plan. It
stops at the first block that is refused, or at free uniforms whose texture units do not suffice. What
has been given out by then stays taken, also when the unit fails later on.

* `assignSlots_course`: handing out slots either serves all blocks or stops.
* `compile_binding_error_iff`: a call fails for want of a slot or a texture unit if and only if handing
  out slots stops.
* `slots_of_error`: what a unit that fails leaves in its pool.

Main statements: `slots_of_error` and `slots_of_fresh_pool`.
-/

namespace UniformLayout

open BindingPool

variable {τ : Type}

/-! ## Requests -/

/-- What the blocks among the declarations ask for, in order. -/
def slotRequests (decls : List TypeDeclaration) : List (Option Nat) :=
  (decls.filter (·.kind.isBlock)).map (·.kind.bindingSlot?)

/-- The blocks among the types, in order. -/
def blocksOf (types : List PlannedType) : List PlannedType :=
  types.filter (·.declaration.kind.isBlock)

def Plan.declarations (plan : Plan) : List TypeDeclaration :=
  plan.types.map PlannedType.declaration

/-- What the blocks among the types ask for, in order. -/
def requestsOf (types : List PlannedType) : List (Option Nat) :=
  slotRequests (types.map PlannedType.declaration)

theorem requestsOf_eq (types : List PlannedType) :
    requestsOf types = (blocksOf types).map (·.declaration.kind.bindingSlot?) := by
  unfold requestsOf slotRequests blocksOf
  rw [List.filter_map, List.map_map]
  rfl

theorem requestsOf_append (before behind : List PlannedType) :
    requestsOf (before ++ behind) = requestsOf before ++ requestsOf behind := by
  rw [requestsOf_eq, requestsOf_eq, requestsOf_eq, blocksOf, List.filter_append, List.map_append]
  rfl

theorem blocksOf_cons_of_block {planned : PlannedType} {rest : List PlannedType}
    (h : planned.declaration.kind.isBlock = true) :
    blocksOf (planned :: rest) = planned :: blocksOf rest := by
  unfold blocksOf
  simp [h]

theorem blocksOf_cons_of_not_block {planned : PlannedType} {rest : List PlannedType}
    (h : planned.declaration.kind.isBlock = false) :
    blocksOf (planned :: rest) = blocksOf rest := by
  unfold blocksOf
  simp [h]

theorem requestsOf_cons_of_block {planned : PlannedType} {rest : List PlannedType}
    (h : planned.declaration.kind.isBlock = true) :
    requestsOf (planned :: rest) = planned.declaration.kind.bindingSlot? :: requestsOf rest := by
  rw [requestsOf_eq, requestsOf_eq, blocksOf_cons_of_block h, List.map_cons]

theorem requestsOf_cons_of_not_block {planned : PlannedType} {rest : List PlannedType}
    (h : planned.declaration.kind.isBlock = false) :
    requestsOf (planned :: rest) = requestsOf rest := by
  rw [requestsOf_eq, requestsOf_eq, blocksOf_cons_of_not_block h]

/-- Handing out slots cannot go on behind the type: it is a block whose request is refused, or free
uniforms whose texture units do not suffice. -/
inductive PlannedType.StopsAt (limit : Nat) (pool : BindingPool) (planned : PlannedType) :
    BindingError → Prop
  | refused {cause : BindingError} (block : planned.declaration.kind.isBlock = true)
      (h : pool.choose planned.declaration.kind.bindingSlot? = .error cause) :
      planned.StopsAt limit pool cause
  | units {cause : BindingError} (set : planned.declaration.kind = .uniformSet)
      (h : assignTextureUnits planned.layout.fields limit = .error cause) :
      planned.StopsAt limit pool cause

/-- The texture units of the free uniforms suffice. -/
def FindsUnits (limit : Nat) (types : List PlannedType) : Prop :=
  ∀ planned ∈ types, planned.declaration.kind = .uniformSet →
    ∃ firsts, assignTextureUnits planned.layout.fields limit = .ok firsts

/-- The slots of the blocks among the types, by name. -/
def slotTable (types : List PlannedType) (slots : List Nat) : SlotTable :=
  ((blocksOf types).map PlannedType.name).zip slots

/-- All blocks are served, or handing out slots stops behind some types. -/
inductive SlotCourse (limit : Nat) (types : List PlannedType) (pool : BindingPool) :
    Except CompileError SlotTable × BindingPool → Prop
  | served {slots : List Nat} {after : BindingPool} (h : pool.Serves (requestsOf types) slots after)
      (units : FindsUnits limit types) :
      SlotCourse limit types pool (.ok (slotTable types slots), after)
  | stopped (before : List PlannedType) {rest : List PlannedType} {planned : PlannedType}
      (slots : List Nat) {after : BindingPool} {cause : BindingError}
      (split : types = before ++ planned :: rest)
      (h : pool.Serves (requestsOf before) slots after) (stops : planned.StopsAt limit after cause) :
      SlotCourse limit types pool (.error (.binding cause), after)

theorem SlotCourse.cons_of_not_block {limit : Nat} {planned : PlannedType}
    {rest : List PlannedType} {pool : BindingPool}
    {result : Except CompileError SlotTable × BindingPool}
    (hb : planned.declaration.kind.isBlock = false) (hu : FindsUnits limit [planned])
    (h : SlotCourse limit rest pool result) : SlotCourse limit (planned :: rest) pool result := by
  cases h with
  | @served slots after h units =>
    have htable : slotTable rest slots = slotTable (planned :: rest) slots := by
      unfold slotTable
      rw [blocksOf_cons_of_not_block hb]
    rw [htable]
    refine .served (by rwa [requestsOf_cons_of_not_block hb]) ?_
    exact List.forall_mem_cons.2 ⟨hu planned List.mem_cons_self, units⟩
  | @stopped before behind other slots after cause split h stops =>
    refine .stopped (planned :: before) slots (by rw [split]; rfl) ?_ stops
    rwa [requestsOf_cons_of_not_block hb]

theorem SlotCourse.cons_of_block {limit : Nat} {planned : PlannedType} {rest : List PlannedType}
    {pool next after : BindingPool} {slot : Nat} {result : Except CompileError SlotTable}
    (hb : planned.declaration.kind.isBlock = true)
    (given : allocate planned.declaration.kind.bindingSlot? pool = (.ok slot, next))
    (h : SlotCourse limit rest next (result, after)) :
    SlotCourse limit (planned :: rest) pool (result.map ((planned.name, slot) :: ·), after) := by
  cases h with
  | @served slots _ h units =>
    have htable : (planned.name, slot) :: slotTable rest slots =
        slotTable (planned :: rest) (slot :: slots) := by
      unfold slotTable
      rw [blocksOf_cons_of_block hb]
      rfl
    rw [Except.map, htable]
    refine .served ?_ (List.forall_mem_cons.2 ⟨fun hset => ?_, units⟩)
    · rw [requestsOf_cons_of_block hb]
      exact .cons given h
    · rw [hset] at hb
      cases hb
  | @stopped before behind other slots _ cause split h stops =>
    refine .stopped (planned :: before) (slot :: slots) (by rw [split]; rfl) ?_ stops
    rw [requestsOf_cons_of_block hb]
    exact .cons given h

theorem SlotCourse.binding_of_error {limit : Nat} {types : List PlannedType} {pool : BindingPool}
    {result : Except CompileError SlotTable × BindingPool} (h : SlotCourse limit types pool result)
    {e : CompileError} (he : result.1 = .error e) : ∃ cause, e = .binding cause := by
  cases h with
  | served hs units => cases he
  | stopped before slots split hs stops => exact ⟨_, (Except.error.inj he).symm⟩

/-- How handing out slots goes, by induction on the types. -/
theorem assignSlots_course (limit : Nat) (types : List PlannedType) (pool : BindingPool) :
    SlotCourse limit types pool (assignSlots limit allocator types pool) := by
  induction types generalizing pool with
  | nil => exact .served (.nil pool) (by simp [FindsUnits])
  | cons planned rest ih =>
    unfold assignSlots
    split
    · rename_i hk
      refine (ih pool).cons_of_not_block (by rw [hk]; rfl) fun other hm hset => ?_
      rw [List.mem_singleton.1 hm, hk] at hset
      cases hset
    · rename_i hk
      split
      · rename_i cause hu
        exact .stopped [] [] rfl (.nil pool) (.units hk hu)
      · rename_i firsts hu
        refine (ih pool).cons_of_not_block (by rw [hk]; rfl) fun other hm _ => ?_
        rw [List.mem_singleton.1 hm]
        exact ⟨firsts, hu⟩
    · rename_i request instanceName packing hk
      have hb : planned.declaration.kind.isBlock = true := by rw [hk]; rfl
      have hallocate : allocator.allocate request pool =
          allocate planned.declaration.kind.bindingSlot? pool := by rw [hk]; rfl
      rw [hallocate]
      rcases hg : allocate planned.declaration.kind.bindingSlot? pool with ⟨cause | slot, next⟩
      · obtain ⟨hcause, rfl⟩ := allocate_eq_error hg
        exact .stopped [] [] rfl (.nil next) (.refused hb hcause)
      · exact (ih next).cons_of_block hb hg

/-! ## Calls of `compile` -/

section

variable {settings : Settings} {sink : ArtifactSink τ} {unit : SourceUnit}
  {work : Workspace BindingPool τ}

/-- A unit that can be planned takes from the pool what handing out slots takes. If that stops, the
call fails for the same reason. -/
theorem compile_of_plan {plan : Plan} (h : (unit.plan work.registry).result = .ok plan) :
    (compile settings allocator sink unit work).2.slots =
        (assignSlots settings.bindings.maxTextureUnits allocator plan.types work.slots).2 ∧
      ∀ e, (assignSlots settings.bindings.maxTextureUnits allocator plan.types work.slots).1 =
          .error e →
        (compile settings allocator sink unit work).1.result = .error e := by
  unfold compile
  rcases hp : unit.plan work.registry with ⟨notices, result⟩
  rw [hp] at h
  obtain rfl : result = .ok plan := h
  dsimp only
  rcases assignSlots settings.bindings.maxTextureUnits allocator plan.types work.slots with
    ⟨cause | given, slots⟩
  · exact ⟨rfl, fun e he => congrArg _ (Except.error.inj he)⟩
  · refine ⟨rfl, fun e he => ?_⟩
    cases he

/-- **Slots of a unit that fails.** A unit that cannot be planned takes no slot. Any other unit that
fails has taken one slot for each block that was served by then, and the slots stay taken: the slots in
use are those of before if and only if no block was served. -/
theorem slots_of_error {e : CompileError}
    (h : (compile settings allocator sink unit work).1.result = .error e) :
    ((unit.plan work.registry).result = .error e ∧
      (compile settings allocator sink unit work).2.slots = work.slots) ∨
    ∃ plan served behind slots, (unit.plan work.registry).result = .ok plan ∧
      plan.types = served ++ behind ∧
      work.slots.Grants (requestsOf served) slots
        (compile settings allocator sink unit work).2.slots ∧
      (∀ planned ∈ behind.head?, ∃ cause, e = .binding cause ∧
        planned.StopsAt settings.bindings.maxTextureUnits
          (compile settings allocator sink unit work).2.slots cause) ∧
      ((∀ slot, slot ∈ (compile settings allocator sink unit work).2.slots.used ↔
        slot ∈ work.slots.used) ↔ requestsOf served = []) ∧
      ∀ slot ∈ slots, allocate (some slot) (compile settings allocator sink unit work).2.slots =
        (.error (.slotConflict slot), (compile settings allocator sink unit work).2.slots) := by
  cases hp : (unit.plan work.registry).result with
  | error cause =>
    have hwork : compile settings allocator sink unit work =
        (⟨(unit.plan work.registry).notices, .error cause⟩, work) :=
      compile_of_plan_error (by rw [← hp])
    rw [hwork] at h ⊢
    exact Or.inl ⟨congrArg _ (Except.error.inj h), rfl⟩
  | ok plan =>
    obtain ⟨hslots, herror⟩ := @compile_of_plan τ settings sink unit work plan hp
    have hcourse := assignSlots_course settings.bindings.maxTextureUnits plan.types work.slots
    right
    generalize assignSlots settings.bindings.maxTextureUnits allocator plan.types work.slots =
      outcome at hcourse hslots herror
    cases hcourse with
    | @served slots after hs units =>
      have hgrants := hs.grants
      rw [hslots]
      refine ⟨plan, plan.types, [], slots, rfl, (List.append_nil _).symm, hgrants, ?_, ?_, ?_⟩
      · simp
      · exact hgrants.same_used_iff
      · exact fun slot hm => hgrants.refuses hm
    | @stopped before rest planned slots after cause split hs stops =>
      have hgrants := hs.grants
      obtain rfl : e = .binding cause := Except.error.inj (h.symm.trans (herror _ rfl))
      rw [hslots]
      refine ⟨plan, before, planned :: rest, slots, rfl, split, hgrants, ?_, ?_, ?_⟩
      · intro first hm
        obtain rfl := Option.some.inj hm
        exact ⟨cause, rfl, stops⟩
      · exact hgrants.same_used_iff
      · exact fun slot hm => hgrants.refuses hm

end

/-- Two blocks that name one slot. -/
def clashUnit : SourceUnit where
  key := "clash.frag"
  text := "layout(binding=0)uniform Fog\x7bfloat near;\x7d;
layout(binding=0)uniform Glow\x7bfloat power;\x7d;"

/-- The same blocks with a slot for each. -/
def mendedUnit : SourceUnit where
  key := "clash.frag"
  text := "layout(binding=0)uniform Fog\x7bfloat near;\x7d;
layout(binding=1)uniform Glow\x7bfloat power;\x7d;"

/-- The workspace once `clash.frag` has failed. -/
def clashWork : Workspace BindingPool Artifacts :=
  (compile {} BindingPool.allocator memorySink clashUnit freshWork).2

/-- The second block is refused, and the slot of the first one is used up. -/
theorem clashUnit_checked :
    ((compile {} BindingPool.allocator memorySink clashUnit freshWork).1.result >>=
        fun _ => .ok ()) = .error (.binding (.slotConflict 0)) ∧ clashWork.slots.used = [0] := by
  decide +kernel

/-- `Fog` was served. -/
theorem slots_of_error_clash :
    ∃ plan served behind slots, (clashUnit.plan freshWork.registry).result = .ok plan ∧
      plan.types = served ++ behind ∧
      freshWork.slots.Grants (requestsOf served) slots clashWork.slots ∧ requestsOf served ≠ [] := by
  obtain ⟨herror, hused⟩ := clashUnit_checked
  rw [clashWork] at hused ⊢
  have hnew : ¬ ∀ slot, slot ∈ (compile {} BindingPool.allocator memorySink clashUnit
      freshWork).2.slots.used ↔ slot ∈ freshWork.slots.used := by
    intro hsame
    have hm := (hsame 0).1 (by rw [hused]; exact List.mem_singleton_self 0)
    cases hm
  rcases slots_of_error (error_of_bind_ok herror) with ⟨-, hsame⟩ |
    ⟨plan, served, behind, slots, hplan, hsplit, hgrants, -, hiff, -⟩
  · exact absurd (fun slot => by rw [hsame]) hnew
  · exact ⟨plan, served, behind, slots, hplan, hsplit, hgrants, fun hnil => hnew (hiff.2 hnil)⟩

/-- The unit that failed has used up slot 0, so that the mended unit is refused, which is compiled with
a fresh pool. -/
theorem slot_kept_by_failure :
    ((compile {} BindingPool.allocator memorySink clashUnit freshWork).1.result >>=
        fun _ => .ok ()) = .error (.binding (.slotConflict 0)) ∧
      freshWork.slots.used = [] ∧ clashWork.slots.used = [0] ∧
      ((compile {} BindingPool.allocator memorySink mendedUnit clashWork).1.result >>=
        fun _ => .ok ()) = .error (.binding (.slotConflict 0)) ∧
      ((compile {} BindingPool.allocator memorySink mendedUnit
        { clashWork with slots := freshWork.slots }).1.result >>= fun _ => .ok ()) = .ok () := by
  decide +kernel

section

variable {settings : Settings} {sink : ArtifactSink τ} {unit : SourceUnit}
  {work : Workspace BindingPool τ}

/-! ## Pools that are fresh -/

/-- Handing out slots serves all blocks if the pool serves their requests and the texture units of free
uniforms suffice. -/
theorem assignSlots_isOk_iff {limit : Nat} {types : List PlannedType} {pool : BindingPool} :
    (∃ given, (assignSlots limit allocator types pool).1 = .ok given) ↔
      (∃ slots after, pool.Serves (requestsOf types) slots after) ∧ FindsUnits limit types := by
  have hcourse := assignSlots_course limit types pool
  generalize assignSlots limit allocator types pool = outcome at hcourse
  cases hcourse with
  | served hs units => exact iff_of_true ⟨_, rfl⟩ ⟨⟨_, _, hs⟩, units⟩
  | @stopped before rest planned slots after cause split hs stops =>
    refine iff_of_false (fun ⟨given, hg⟩ => by cases hg) ?_
    rintro ⟨⟨all, final, hall⟩, units⟩
    cases stops with
    | units set hu =>
      obtain ⟨firsts, hf⟩ := units planned (by rw [split]; simp) set
      rw [hu] at hf
      cases hf
    | refused block hc =>
      rw [split, requestsOf_append, requestsOf_cons_of_block block] at hall
      obtain ⟨given, middle, slot, next, hserves, hlast⟩ := hall.split
      obtain ⟨-, rfl⟩ := hs.unique hserves
      simp only [allocate, hc] at hlast
      simp at hlast

/-- A call fails for want of a slot or a texture unit if and only if handing out slots stops. -/
theorem compile_binding_error_iff (reached : Reached settings work.registry)
    (ids : unit.FindsIds work.registry) :
    (∃ cause, (compile settings allocator sink unit work).1.result = .error (.binding cause)) ↔
      ∃ plan, (unit.plan work.registry).result = .ok plan ∧
        ¬ ∃ given, (assignSlots settings.bindings.maxTextureUnits allocator plan.types
          work.slots).1 = .ok given := by
  cases hp : (unit.plan work.registry).result with
  | error e =>
    have hwork : compile settings allocator sink unit work =
        (⟨(unit.plan work.registry).notices, .error e⟩, work) :=
      compile_of_plan_error (by rw [← hp])
    rw [hwork]
    refine iff_of_false ?_ (fun ⟨plan, ho, _⟩ => by cases ho)
    rintro ⟨cause, he⟩
    exact (plan_refusal hp).ne_binding cause (Except.error.inj he)
  | ok plan =>
    obtain ⟨-, herror⟩ := @compile_of_plan τ settings sink unit work plan hp
    have hcourse := assignSlots_course settings.bindings.maxTextureUnits plan.types work.slots
    cases ha : (assignSlots settings.bindings.maxTextureUnits allocator plan.types
      work.slots).1 with
    | error e =>
      obtain ⟨cause, rfl⟩ := hcourse.binding_of_error ha
      refine iff_of_true ⟨cause, herror _ ha⟩ ⟨plan, rfl, ?_⟩
      rw [ha]
      exact fun ⟨given, hg⟩ => by cases hg
    | ok given =>
      refine iff_of_false ?_ ?_
      · rintro ⟨cause, he⟩
        obtain ⟨refusal, -, hsink⟩ := sink_of_emission_error reached.settled ids hp ha he
        cases hsink
      · rintro ⟨other, ho, hnot⟩
        obtain rfl := Except.ok.inj ho
        exact hnot ⟨given, ha⟩

/-- The declarations of a unit, without copies. -/
def SourceUnit.distinct (unit : SourceUnit) : Logged CompileError (List TypeDeclaration) := do
  let (contents, shared) ← unit.read
  deduplicate unit.key (SourceUnit.declarations contents shared)

/-- The types of a plan stand for the declarations of the unit, in the order of the waves. -/
theorem course_of_plan {registry : Registry} {plan : Plan}
    (h : (unit.plan registry).result = .ok plan) :
    ∃ contents shared resolution distinct referenced, unit.read.result = .ok (contents, shared) ∧
      (resolve registry unit.key (SourceUnit.declarations contents shared)).result =
        .ok resolution ∧
      (deduplicate unit.key (SourceUnit.declarations contents shared)).result = .ok distinct ∧
      resolution.Course registry unit.key (SourceUnit.declarations contents shared) distinct
        (plan.types.map PlannedType.declaration) referenced := by
  obtain ⟨contents, shared, resolution, hread, hr, ht⟩ := plan_eq_ok h
  obtain ⟨distinct, handled, referenced, hd, hc⟩ := resolve_course hr
  have htypes := hc.planned ht fun fresh => layOutAll_induction (I := fun _ => True)
    (P := fun _ _ => True) (fun _ _ _ _ _ _ => ⟨trivial, trivial⟩) trivial
  have hdecls : plan.types.map PlannedType.declaration = handled :=
    (map_eq_of_forall₂ htypes fun decl _ planned hp => hp.declaration).trans (List.map_id _)
  rw [← hdecls] at hc
  exact ⟨contents, shared, resolution, distinct, referenced, hread, hr, hd, hc⟩

/-- The types of a plan stand for the declarations of the unit, in some order. -/
theorem declarations_of_plan {registry : Registry} {plan : Plan}
    (h : (unit.plan registry).result = .ok plan) :
    (plan.types.map PlannedType.name).Nodup ∧ ∃ distinct, unit.distinct.result = .ok distinct ∧
      (plan.types.map PlannedType.declaration).Perm distinct := by
  obtain ⟨contents, shared, resolution, distinct, referenced, hread, -, hd, hc⟩ := course_of_plan h
  refine ⟨?_, distinct, Logged.result_bind_eq_ok_iff.2 ⟨_, hread, hd⟩, hc.perm⟩
  have hnames := hc.names_nodup
  rwa [List.map_map] at hnames

/-- A pool of this size has room for the blocks, and the slots that they name are distinct and in
range. -/
structure FitsPool (max : Nat) (decls : List TypeDeclaration) : Prop where
  room : (slotRequests decls).length ≤ max
  nodup : (named (slotRequests decls)).Nodup
  below : ∀ slot ∈ named (slotRequests decls), slot < max

theorem FitsPool.admits {max : Nat} {distinct decls : List TypeDeclaration}
    (h : FitsPool max distinct) (hp : decls.Perm distinct) :
    Admits { max } (slotRequests decls) := by
  have hrequests : (slotRequests decls).Perm (slotRequests distinct) := (hp.filter _).map _
  have hnamed : (named (slotRequests decls)).Perm (named (slotRequests distinct)) :=
    hrequests.filterMap _
  refine ⟨List.nodup_nil, ?_, hnamed.nodup_iff.2 h.nodup, ?_, ?_⟩
  · rw [hrequests.length_eq]
    simpa using h.room
  · intro slot hm
    exact h.below slot (hnamed.mem_iff.1 hm)
  · intro slot _ hused
    cases hused

/-- Every block has its slot in the table, and nothing else has one. -/
theorem filterMap_lookup_slotTable {types : List PlannedType} {slots : List Nat}
    (hn : (types.map PlannedType.name).Nodup) (hl : (blocksOf types).length = slots.length) :
    List.Forall₂ (fun planned slot => (slotTable types slots).lookup planned.name = some slot)
        (blocksOf types) slots ∧
      types.filterMap (fun planned => (slotTable types slots).lookup planned.name) = slots := by
  have hsub : (blocksOf types).Sublist types := List.filter_sublist
  have hfound := forall₂_lookup_zip ((hsub.map PlannedType.name).nodup hn) hl
  refine ⟨hfound, ?_⟩
  have hothers : ∀ planned ∈ types, planned.declaration.kind.isBlock = false →
      (slotTable types slots).lookup planned.name = none := by
    intro planned hm hb
    rw [List.lookup_eq_none_iff]
    rintro ⟨name, slot⟩ hpair
    obtain ⟨block, hblock, rfl⟩ := List.mem_map.1 (List.of_mem_zip hpair).1
    obtain ⟨hblock, hkind⟩ := List.mem_filter.1 hblock
    rw [bne_iff_ne]
    intro he
    obtain rfl := List.inj_on_of_nodup_map hn hm hblock he
    rw [hb] at hkind
    cases hkind
  calc types.filterMap (fun planned => (slotTable types slots).lookup planned.name)
      = (blocksOf types).filterMap (fun planned => (slotTable types slots).lookup planned.name) := by
        unfold blocksOf
        rw [List.filterMap_filter]
        refine List.filterMap_congr fun planned hm => ?_
        by_cases hb : planned.declaration.kind.isBlock
        · rw [if_pos hb]
        · rw [if_neg hb]
          exact hothers planned hm (by simpa using hb)
    _ = slots.filterMap some :=
        (filterMap_eq_of_forall₂ hfound fun _ _ _ hs => hs.symm).symm
    _ = slots := List.filterMap_some

/-- The blocks of a unit that is compiled have distinct slots of the pool that were free, and a block
that names a slot has this slot. -/
theorem slots_of_compile (reached : Reached settings work.registry)
    (ids : unit.FindsIds work.registry) {compiled : CompiledUnit}
    (h : (compile settings allocator sink unit work).1.result = .ok compiled) :
    (compiled.types.filterMap EmittedType.bindingSlot).Nodup ∧
      (∀ slot ∈ compiled.types.filterMap EmittedType.bindingSlot,
        slot < work.slots.max ∧ slot ∉ work.slots.used) ∧
      ∀ distinct, unit.distinct.result = .ok distinct → ∀ decl ∈ distinct,
        decl.kind.isBlock = true → ∃ emitted slot, compiled.type? decl.name = some emitted ∧
          emitted.bindingSlot = some slot ∧
          ∀ wanted, decl.kind.bindingSlot? = some wanted → wanted = slot := by
  obtain ⟨plan, -, hplan, -⟩ := compile_eq_ok h
  obtain ⟨hnodup, distinct, hdistinct, hperm⟩ := declarations_of_plan hplan
  obtain ⟨given, ha, hall⟩ := emittedAs_of_compile reached ids hplan h
  have hcourse := assignSlots_course settings.bindings.maxTextureUnits plan.types work.slots
  generalize assignSlots settings.bindings.maxTextureUnits allocator plan.types work.slots =
    outcome at hcourse ha
  cases hcourse with
  | stopped before slots split hs stops => cases ha
  | @served slots after hs units =>
    obtain rfl := Except.ok.inj ha
    have hgrants := hs.grants
    have hanswers := hgrants.answers
    rw [requestsOf_eq, List.forall₂_map_left_iff] at hanswers
    obtain ⟨hfound, hslots⟩ := filterMap_lookup_slotTable hnodup hanswers.length_eq
    have hemitted : compiled.types.filterMap EmittedType.bindingSlot = slots :=
      (filterMap_eq_of_forall₂ hall fun _ _ _ he => he.slot).trans hslots
    rw [hemitted]
    refine ⟨hgrants.nodup, fun slot hm => ⟨hgrants.below slot hm, hgrants.new slot hm⟩, ?_⟩
    intro other ho decl hm hblock
    obtain rfl := Except.ok.inj (hdistinct.symm.trans ho)
    obtain ⟨planned, hplanned, rfl⟩ := List.mem_map.1 (hperm.mem_iff.2 hm)
    have hmem : planned ∈ blocksOf plan.types := List.mem_filter.2 ⟨hplanned, hblock⟩
    obtain ⟨slot, -, hlookup, hwanted⟩ :=
      exists_of_mem_left (List.Forall₂.mp (fun _ _ => And.intro) hfound hanswers) hmem
    obtain ⟨emitted, hin, he⟩ := exists_of_mem_left hall hplanned
    exact ⟨emitted, slot, type?_of_emitted hall hnodup hin he, by rw [he.slot, hlookup], hwanted⟩

/-- **Slots of a fresh pool.** Let the blocks of a unit have room in the pool, and let the slots that
they name be distinct and in range. Then the unit fails for want of a slot if and only if a block that
names its slot comes too late: the slot has been given to a block that named none. (Texture units are
the other reason for such an error.) A unit that is compiled has distinct slots for its blocks, and the
slots that they name. -/
theorem slots_of_fresh_pool {max : Nat} (reached : Reached settings work.registry)
    (ids : unit.FindsIds work.registry) (fresh : work.slots = { max })
    (fits : ∀ distinct, unit.distinct.result = .ok distinct → FitsPool max distinct) :
    ((∃ cause, (compile settings allocator sink unit work).1.result = .error (.binding cause)) ↔
        ∃ plan, (unit.plan work.registry).result = .ok plan ∧
          ¬ (InTurn (requestsOf plan.types) ∧
            FindsUnits settings.bindings.maxTextureUnits plan.types)) ∧
      ∀ compiled, (compile settings allocator sink unit work).1.result = .ok compiled →
        (compiled.types.filterMap EmittedType.bindingSlot).Nodup ∧
          ∀ distinct, unit.distinct.result = .ok distinct → ∀ decl ∈ distinct,
            decl.kind.isBlock = true → ∃ emitted slot, compiled.type? decl.name = some emitted ∧
              emitted.bindingSlot = some slot ∧ slot < max ∧
              ∀ wanted, decl.kind.bindingSlot? = some wanted → wanted = slot := by
  constructor
  · rw [compile_binding_error_iff reached ids]
    refine exists_congr fun plan => and_congr_right fun hplan => not_congr ?_
    obtain ⟨-, distinct, hdistinct, hperm⟩ := declarations_of_plan hplan
    have hadmits : Admits { max } (requestsOf plan.types) := (fits distinct hdistinct).admits hperm
    rw [assignSlots_isOk_iff, fresh, exists_serves_iff hadmits, inTurnFor_fresh]
  · intro compiled hc
    obtain ⟨hnodup, hbelow, hblocks⟩ := slots_of_compile reached ids hc
    refine ⟨hnodup, fun distinct hd decl hm hb => ?_⟩
    obtain ⟨emitted, slot, hfound, hslot, hwanted⟩ := hblocks distinct hd decl hm hb
    refine ⟨emitted, slot, hfound, hslot, ?_, hwanted⟩
    have hin := List.mem_filterMap.2 ⟨emitted, List.mem_of_find?_eq_some hfound, hslot⟩
    have hlt := (hbelow slot hin).1
    rwa [fresh] at hlt

end

instance (max : Nat) (decls : List TypeDeclaration) : Decidable (FitsPool max decls) :=
  decidable_of_iff
    ((slotRequests decls).length ≤ max ∧ (named (slotRequests decls)).Nodup ∧
      ∀ slot ∈ named (slotRequests decls), slot < max)
    ⟨fun h => ⟨h.1, h.2.1, h.2.2⟩, fun h => ⟨h.room, h.nodup, h.below⟩⟩

theorem fits_of_distinct {unit : SourceUnit} {max : Nat}
    (h : unit.distinct.result.toOption.all (fun distinct => decide (FitsPool max distinct)) = true) :
    ∀ distinct, unit.distinct.result = .ok distinct → FitsPool max distinct := by
  intro distinct hd
  rw [hd] at h
  exact of_decide_eq_true h

/-- A block that names its slot, and one that does not. -/
def glowFirstUnit : SourceUnit where
  key := "glow.frag"
  text := "layout(binding=0)uniform Glow\x7bfloat power;\x7d;
uniform Fog\x7bfloat near;\x7d;"

theorem slots_of_fresh_pool_glowFirst :
    ∃ compiled emitted,
      (compile {} BindingPool.allocator memorySink glowFirstUnit freshWork).1.result =
          .ok compiled ∧
        (compiled.types.filterMap EmittedType.bindingSlot).Nodup ∧
        compiled.type? "Glow" = some emitted ∧ emitted.bindingSlot = some 0 := by
  obtain ⟨hids, hfit, hdistinct, hcompiled⟩ :
      glowFirstUnit.findsFirstIds freshWork.registry = true ∧
      glowFirstUnit.distinct.result.toOption.all (fun distinct => decide (FitsPool 72 distinct)) =
        true ∧
      glowFirstUnit.distinct.result.toOption.any (fun distinct => distinct.any fun decl =>
        decl.name == "Glow" && decl.kind.isBlock && decl.kind.bindingSlot? == some 0) = true ∧
      (compile {} BindingPool.allocator memorySink glowFirstUnit
        freshWork).1.result.toOption.any (fun _ => true) = true := by
    decide +kernel
  obtain ⟨distinct, hd, hany⟩ := exists_ok_of_any hdistinct
  obtain ⟨compiled, hok, -⟩ := exists_ok_of_any hcompiled
  obtain ⟨decl, hm, hdecl⟩ := List.any_eq_true.1 hany
  simp only [Bool.and_eq_true, beq_iff_eq] at hdecl
  obtain ⟨⟨hname, hblock⟩, hwants⟩ := hdecl
  have reached : Reached {} freshWork.registry := .fresh
  obtain ⟨-, hslots⟩ :=
    slots_of_fresh_pool reached (findsIds_of_plan hids) rfl (fits_of_distinct hfit)
  obtain ⟨hnodup, hblocks⟩ := hslots compiled hok
  obtain ⟨emitted, slot, hfound, hslot, -, hwanted⟩ := hblocks distinct hd decl hm hblock
  rw [hname] at hfound
  obtain rfl := hwanted 0 hwants
  exact ⟨compiled, emitted, hok, hnodup, hfound, hslot⟩

/-- The same blocks the other way round. -/
def fogFirstUnit : SourceUnit where
  key := "glow.frag"
  text := "uniform Fog\x7bfloat near;\x7d;
layout(binding=0)uniform Glow\x7bfloat power;\x7d;"

/-- `Fog` takes slot 0, which `Glow` names. -/
theorem named_slot_taken :
    (∀ distinct, fogFirstUnit.distinct.result = .ok distinct → FitsPool 72 distinct) ∧
      freshWork.slots = { max := 72 } ∧
      ((compile {} BindingPool.allocator memorySink fogFirstUnit freshWork).1.result >>=
        fun _ => .ok ()) = .error (.binding (.slotConflict 0)) := by
  obtain ⟨hfit, hrefused⟩ :
      fogFirstUnit.distinct.result.toOption.all (fun distinct => decide (FitsPool 72 distinct)) =
        true ∧
      ((compile {} BindingPool.allocator memorySink fogFirstUnit freshWork).1.result >>=
        fun _ => .ok ()) = .error (.binding (.slotConflict 0)) := by
    decide +kernel
  exact ⟨fits_of_distinct hfit, rfl, hrefused⟩

end UniformLayout
