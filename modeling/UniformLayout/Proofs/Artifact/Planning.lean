import UniformLayout.Artifact.Wrapper
import UniformLayout.Proofs.Artifact.Identifiers
import UniformLayout.Proofs.Artifact.Items
import UniformLayout.Proofs.Schema.Units

/-!
# Field plans keep out of each other's way

Fields are planned one after the other, and all that is known of the earlier ones is what their plans
use: names, flags, units. Every plan takes the first candidates that are free, and goes on where the
plan before it stops. So names are used once, and the flags and units of the fields follow each other
without gaps.

* `planFrom_inTurn`: a run of planning, with what each field finds used.
* `PlannedInTurn.pairwise`: what every plan keeps clear of holds between any two.
* `Consecutive.tiles`: ranges that follow each other.

Main statements: `TypeSchema.wellPlanned` and `underscore_looks_owned`.
-/

namespace UniformLayout

/-! ## Ranges that follow each other -/

section

variable {α : Type} {start length : α → Nat}

/-- The ranges of the items, each of `length` numbers from `start` on, stand in order, have no number
in common, and make up all the numbers below `total`. -/
structure Tiles (items : List α) (start length : α → Nat) (total : Nat) : Prop where
  within : ∀ item ∈ items, start item + length item ≤ total
  apart : items.Pairwise fun item next => start item + length item ≤ start next
  covered : ∀ i < total, ∃ item ∈ items, start item ≤ i ∧ i < start item + length item

/-- From `first` on, each item starts where the one before it ends, and the last one ends at `stop`. -/
def Consecutive (start length : α → Nat) : (first : Nat) → List α → (stop : Nat) → Prop
  | first, [], stop => first = stop
  | first, item :: rest, stop =>
    start item = first ∧ Consecutive start length (first + length item) rest stop

theorem Consecutive.bounds {first stop : Nat} {items : List α}
    (h : Consecutive start length first items stop) :
    first ≤ stop ∧ ∀ item ∈ items, first ≤ start item ∧ start item + length item ≤ stop := by
  induction items generalizing first with
  | nil => exact ⟨Nat.le_of_eq h, by simp⟩
  | cons item rest ih =>
    obtain ⟨rfl, hrest⟩ := h
    obtain ⟨hle, hbounds⟩ := ih hrest
    refine ⟨by omega, List.forall_mem_cons.2 ⟨⟨Nat.le_refl _, hle⟩, fun other hm => ?_⟩⟩
    exact ⟨Nat.le_trans (Nat.le_add_right _ _) (hbounds other hm).1, (hbounds other hm).2⟩

theorem Consecutive.apart {first stop : Nat} {items : List α}
    (h : Consecutive start length first items stop) :
    items.Pairwise fun item next => start item + length item ≤ start next := by
  induction items generalizing first with
  | nil => exact .nil
  | cons item rest ih =>
    obtain ⟨rfl, hrest⟩ := h
    exact .cons (fun next hm => (hrest.bounds.2 next hm).1) (ih hrest)

theorem Consecutive.covered {first stop : Nat} {items : List α}
    (h : Consecutive start length first items stop) {i : Nat} (hf : first ≤ i) (hs : i < stop) :
    ∃ item ∈ items, start item ≤ i ∧ i < start item + length item := by
  induction items generalizing first with
  | nil =>
    obtain rfl := h
    omega
  | cons item rest ih =>
    obtain ⟨rfl, hrest⟩ := h
    by_cases hi : i < start item + length item
    · exact ⟨item, List.mem_cons_self, hf, hi⟩
    · obtain ⟨other, hm, hother⟩ := ih hrest (Nat.le_of_not_lt hi)
      exact ⟨other, List.mem_cons_of_mem _ hm, hother⟩

theorem Consecutive.tiles {total : Nat} {items : List α}
    (h : Consecutive start length 0 items total) : Tiles items start length total :=
  ⟨fun item hm => (h.bounds.2 item hm).2, h.apart, fun _ hi => h.covered (Nat.zero_le _) hi⟩

/-- Items without numbers of their own can be left out. -/
theorem Consecutive.filter {first stop : Nat} {items : List α}
    (h : Consecutive start length first items stop) {kept : α → Bool} {count : α → Nat}
    (hkept : ∀ item ∈ items, length item = if kept item then count item else 0) :
    Consecutive start count first (items.filter kept) stop := by
  induction items generalizing first with
  | nil => exact h
  | cons item rest ih =>
    obtain ⟨hstart, hrest⟩ := h
    obtain ⟨hitem, hothers⟩ := List.forall_mem_cons.1 hkept
    have hfiltered := ih hrest hothers
    rw [hitem] at hfiltered
    rw [List.filter_cons]
    split at hfiltered
    · rename_i hk
      rw [if_pos hk]
      exact ⟨hstart, hfiltered⟩
    · rename_i hk
      rwa [if_neg hk]

end

/-! ## What a plan finds used -/

/-- The names of a field's two accessors. -/
def FieldPlan.accessorNames (plan : FieldPlan) : List String :=
  UsedNames.accessors plan.isAggregate plan.identifier

theorem FieldPlan.identifier_mem_accessorNames (plan : FieldPlan) :
    plan.identifier ∈ plan.accessorNames := List.mem_cons_self

theorem FieldPlan.nodup_accessorNames (plan : FieldPlan) : plan.accessorNames.Nodup := by
  have hne : plan.identifier ≠
      if plan.isAggregate then plan.identifier ++ "_mut" else "set_" ++ plan.identifier := by
    intro he
    have hlength := congrArg String.length he
    split at hlength
    · rw [String.length_append] at hlength
      exact absurd hlength (by simp)
    · rw [String.length_append] at hlength
      exact absurd hlength (by simp)
  simpa [accessorNames, UsedNames.accessors] using hne

/-- What is used up when the plans `done` have been made, the latest one first. -/
def PlanState.ofPlans (done : List FieldPlan) : PlanState where
  names :=
    { identifiers := done.map FieldPlan.identifier
      methods := done.flatMap FieldPlan.accessorNames ++ reservedMethods }
  elements := done.filterMap FieldPlan.element
  flag := (done.map FieldPlan.flagCount).sum
  unitOffset := (done.map (·.field.handleCount)).sum

/-- How a field is planned behind the plans `done`. -/
structure FieldPlan.Behind (plan : FieldPlan) (owner : String) (done : List FieldPlan) : Prop where
  index : plan.index = done.length
  identifier : plan.identifier =
    (PlanState.ofPlans done).names.choose plan.isAggregate plan.field.name
  element : plan.element = if plan.field.isPadded then
    some (elementName owner plan.identifier (PlanState.ofPlans done).elements) else none
  flag : plan.flag = (PlanState.ofPlans done).flag
  unitOffset : plan.unitOffset = (PlanState.ofPlans done).unitOffset

/-- The plans are made one after the other, behind the plans `done`. -/
def PlannedInTurn (owner : String) : (done plans : List FieldPlan) → Prop
  | _, [] => True
  | done, plan :: rest => plan.Behind owner done ∧ PlannedInTurn owner (plan :: done) rest

/-- What is used up behind a plan is what was before, and what the plan uses. -/
theorem FieldPlan.Planned.after_eq {plan : FieldPlan} {owner : String} {done : List FieldPlan}
    {after : PlanState} {field : FieldSchema}
    (h : plan.Planned owner done.length (.ofPlans done) after field) :
    after = .ofPlans (plan :: done) := by
  obtain ⟨names, elements, flag, unitOffset⟩ := after
  obtain rfl : names = _ := h.names
  obtain rfl : elements = _ := h.elements
  obtain rfl : flag = _ := h.flags
  obtain rfl : unitOffset = _ := h.unitOffsets
  obtain rfl := h.field
  unfold PlanState.ofPlans UsedNames.add
  rw [List.map_cons, List.map_cons, List.map_cons, List.flatMap_cons, List.filterMap_cons,
    List.sum_cons, List.sum_cons, List.append_assoc, Nat.add_comm plan.flagCount,
    Nat.add_comm plan.field.handleCount]
  cases plan.element <;> rfl

/-- Planning one field behind the plans before it. -/
theorem planFrom_behind (owner : String) (done : List FieldPlan) (field : FieldSchema)
    (rest : List FieldSchema) :
    ∃ plan : FieldPlan, planFrom owner (.ofPlans done) done.length (field :: rest) =
        plan :: planFrom owner (.ofPlans (plan :: done)) (plan :: done).length rest ∧
      plan.Behind owner done := by
  obtain ⟨plan, after, hplans, hp⟩ := planFrom_cons owner (.ofPlans done) done.length field rest
  obtain rfl := hp.after_eq
  obtain rfl := hp.field
  exact ⟨plan, hplans, hp.index, hp.identifier, hp.element, hp.flag, hp.unitOffset⟩

/-- Planning is a run of such steps. -/
theorem planFrom_inTurn (owner : String) (done : List FieldPlan) (fields : List FieldSchema) :
    PlannedInTurn owner done (planFrom owner (.ofPlans done) done.length fields) := by
  induction fields generalizing done with
  | nil => trivial
  | cons field rest ih =>
    obtain ⟨plan, hplans, hbehind⟩ := planFrom_behind owner done field rest
    rw [hplans]
    exact ⟨hbehind, ih (plan :: done)⟩

theorem TypeSchema.plans_inTurn (schema : TypeSchema) : PlannedInTurn schema.name [] schema.plans :=
  planFrom_inTurn schema.name [] schema.fields

section

variable {owner : String} {done plans : List FieldPlan}

/-- What every plan keeps clear of holds between any two plans. -/
theorem PlannedInTurn.pairwise {R : FieldPlan → FieldPlan → Prop}
    (h : PlannedInTurn owner done plans)
    (hR : ∀ before plan, FieldPlan.Behind plan owner before → ∀ other ∈ before, R other plan) :
    (∀ other ∈ done, ∀ plan ∈ plans, R other plan) ∧ plans.Pairwise R := by
  induction plans generalizing done with
  | nil => exact ⟨by simp, .nil⟩
  | cons plan rest ih =>
    obtain ⟨hbehind, hrest⟩ := h
    obtain ⟨hdone, hpairwise⟩ := ih hrest
    obtain ⟨hplan, hothers⟩ := List.forall_mem_cons.1 hdone
    exact ⟨fun other hm => List.forall_mem_cons.2 ⟨hR done plan hbehind other hm, hothers other hm⟩,
      .cons hplan hpairwise⟩

/-- A plan between others, with the plans before it. -/
theorem PlannedInTurn.behind (h : PlannedInTurn owner done plans) {earlier later : List FieldPlan}
    {plan : FieldPlan} (hp : plans = earlier ++ plan :: later) :
    plan.Behind owner (earlier.reverse ++ done) := by
  subst hp
  induction earlier generalizing done with
  | nil => exact h.1
  | cons first rest ih =>
    rw [List.reverse_cons, List.append_assoc]
    exact ih h.2

/-- The ranges that plans get one after the other. -/
theorem PlannedInTurn.consecutive (h : PlannedInTurn owner done plans)
    {start length : FieldPlan → Nat}
    (hs : ∀ before plan, FieldPlan.Behind plan owner before →
      start plan = (before.map length).sum) :
    Consecutive start length (done.map length).sum plans
      ((done.map length).sum + (plans.map length).sum) := by
  induction plans generalizing done with
  | nil => exact (Nat.add_zero _).symm
  | cons plan rest ih =>
    refine ⟨hs done plan h.1, ?_⟩
    have hrest := ih h.2
    rw [List.map_cons, List.sum_cons, Nat.add_comm (length plan)] at hrest
    rwa [List.map_cons, List.sum_cons, ← Nat.add_assoc]

end

/-! ## One field -/

/-- A candidate is taken when one of its accessors has the name of a method that every wrapper has, or
of an accessor of an earlier field. -/
def Taken (earlier : List FieldPlan) (isAggregate : Bool) (candidate : String) : Prop :=
  ∃ name ∈ UsedNames.accessors isAggregate candidate,
    name ∈ reservedMethods ∨ ∃ other ∈ earlier, name ∈ other.accessorNames

theorem taken_reverse {earlier : List FieldPlan} {isAggregate : Bool} {candidate : String} :
    Taken earlier.reverse isAggregate candidate ↔ Taken earlier isAggregate candidate := by
  simp only [Taken, List.mem_reverse]

/-- A field gets the first names that are free, after a number of tries that grows with the number of
earlier fields only. -/
structure FieldPlan.TakesFirstFree (plan : FieldPlan) (owner : String) (earlier : List FieldPlan) :
    Prop where
  index : plan.index = earlier.length
  free : ¬ Taken earlier plan.isAggregate plan.identifier
  first : ∃ n ≤ 5 * earlier.length + 26,
    plan.identifier = Text.numbered (identifierStem plan.field.name) "_" n ∧
    ∀ k < n, Taken earlier plan.isAggregate
      (Text.numbered (identifierStem plan.field.name) "_" k)
  /-- Elements without padding need no struct. -/
  unpadded : plan.field.isPadded = false → plan.element = none
  padded : plan.field.isPadded = true → ∃ n ≤ earlier.length,
    plan.element = some (Text.numbered (owner ++ Text.pascalCase plan.identifier ++ "Element") "" n) ∧
    ∀ k < n, ∃ other ∈ earlier, other.element =
      some (Text.numbered (owner ++ Text.pascalCase plan.identifier ++ "Element") "" k)

theorem length_accessorNames (done : List FieldPlan) :
    (done.flatMap FieldPlan.accessorNames).length = 2 * done.length := by
  induction done with
  | nil => rfl
  | cons plan rest ih =>
    rw [List.flatMap_cons, List.length_append, ih, List.length_cons]
    change 2 + 2 * rest.length = _
    omega

theorem taken_of_refused {done : List FieldPlan} {isAggregate : Bool} {candidate : String}
    (h : (PlanState.ofPlans done).names.accepts isAggregate candidate = false) :
    Taken done isAggregate candidate := by
  simp only [PlanState.ofPlans, UsedNames.accepts, Bool.and_eq_false_iff, Bool.not_eq_false',
    List.contains_iff_mem, List.mem_map, List.all_eq_false, Bool.not_eq_true, List.mem_append,
    List.mem_flatMap] at h
  rcases h with ⟨other, hm, rfl⟩ | ⟨name, hname, hused⟩
  · exact ⟨_, List.mem_cons_self, .inr ⟨other, hm, other.identifier_mem_accessorNames⟩⟩
  · exact ⟨name, hname, hused.symm⟩

namespace FieldPlan.Behind

variable {plan : FieldPlan} {owner : String} {done : List FieldPlan}

/-- The accessors have names that nothing before uses. -/
theorem accessors_free (h : plan.Behind owner done) :
    ∀ name ∈ plan.accessorNames,
      name ∉ reservedMethods ∧ ∀ other ∈ done, name ∉ other.accessorNames := by
  intro name hm
  have haccepts := UsedNames.accepts_choose (PlanState.ofPlans done).names plan.isAggregate
    plan.field.name
  rw [← h.identifier] at haccepts
  have hfree := List.all_eq_true.1 (Bool.and_eq_true_iff.1 haccepts).2 name hm
  simp only [PlanState.ofPlans, Bool.not_eq_true', List.contains_eq_mem, decide_eq_false_iff_not,
    List.mem_append, List.mem_flatMap, not_or, not_exists, not_and] at hfree
  exact ⟨hfree.2, hfree.1⟩

/-- The identifier is the first candidate that is not taken. -/
theorem identifier_first (h : plan.Behind owner done) :
    ∃ n ≤ 5 * done.length + 26,
      plan.identifier = Text.numbered (identifierStem plan.field.name) "_" n ∧
      ∀ k < n, Taken done plan.isAggregate
        (Text.numbered (identifierStem plan.field.name) "_" k) := by
  obtain ⟨n, hn, hname, -, hbefore⟩ :=
    (PlanState.ofPlans done).names.choose_first plan.isAggregate plan.field.name
  refine ⟨n, ?_, h.identifier.trans hname, fun k hk => taken_of_refused (hbefore k hk)⟩
  have hmethods : reservedMethods.length = 13 := rfl
  simp only [PlanState.ofPlans, List.length_map, List.length_append, length_accessorNames,
    hmethods] at hn
  omega

theorem takesFirstFree {earlier : List FieldPlan} (h : plan.Behind owner earlier.reverse) :
    plan.TakesFirstFree owner earlier where
  index := h.index.trans List.length_reverse
  free := by
    rw [← taken_reverse]
    rintro ⟨name, hm, hreserved | ⟨other, ho, hused⟩⟩
    · exact (h.accessors_free name hm).1 hreserved
    · exact (h.accessors_free name hm).2 other ho hused
  first := by simpa only [List.length_reverse, taken_reverse] using h.identifier_first
  unpadded hp := by rw [h.element, if_neg (Bool.eq_false_iff.1 hp)]
  padded hp := by
    obtain ⟨n, hn, hname, -, hbefore⟩ := elementName_first owner plan.identifier
      (PlanState.ofPlans earlier.reverse).elements
    refine ⟨n, ?_, by rw [h.element, if_pos hp, hname], fun k hk => ?_⟩
    · refine Nat.le_trans hn (Nat.le_trans (List.length_filterMap_le _ _) ?_)
      exact Nat.le_of_eq List.length_reverse
    · obtain ⟨other, ho, he⟩ := List.mem_filterMap.1 (hbefore k hk)
      exact ⟨other, List.mem_reverse.1 ho, he⟩

end FieldPlan.Behind

/-! ## All fields -/

/-- What the plans of a schema promise. -/
structure TypeSchema.WellPlanned (schema : TypeSchema) : Prop where
  /-- Every field has a plan, in the order of the fields. -/
  fields : schema.plans.map FieldPlan.field = schema.fields
  /-- Its names are found by a search that comes to an end. -/
  found : ∀ earlier plan later, schema.plans = earlier ++ plan :: later →
    plan.TakesFirstFree schema.name earlier
  identifiers : (schema.plans.map FieldPlan.identifier).Nodup
  allowed : ∀ plan ∈ schema.plans,
    plan.identifier ∉ hostKeywords ∧ plan.identifier ∉ reservedMethods
  /-- Two underscores stand in front of a numbered underscore only. -/
  ownedByWrapper : ∀ plan ∈ schema.plans,
    (OwnedByWrapper plan.identifier ↔ plan.field.name = "_" ∧ plan.identifier ≠ "_")
  /-- No two accessors have one name, and none has that of a method that every wrapper has. -/
  accessors : (reservedMethods ++ schema.plans.flatMap FieldPlan.accessorNames).Nodup
  elements : (schema.plans.filterMap FieldPlan.element).Nodup
  /-- Every flag of the wrapper belongs to one field. -/
  flags : ∀ runtime, Tiles (schema.plans.filter (!·.isAggregate)) FieldPlan.flag (·.field.length)
    (WrapperScope.flagCount ⟨schema, schema.plans, runtime⟩)
  /-- Every unit of the wrapper, counted from its first one, belongs to one field, and no sum on the
  way is above the number of all units. -/
  units : Tiles schema.plans FieldPlan.unitOffset (·.field.handleCount) schema.handleCount

namespace TypeSchema

variable {schema : TypeSchema} {plan : FieldPlan}

theorem exists_behind (hm : plan ∈ schema.plans) : ∃ done, plan.Behind schema.name done := by
  obtain ⟨earlier, later, hsplit⟩ := List.append_of_mem hm
  exact ⟨_, schema.plans_inTurn.behind hsplit⟩

/-- An identifier is a candidate for the name of its field. -/
theorem exists_numbered_identifier (hm : plan ∈ schema.plans) :
    ∃ n, plan.identifier = Text.numbered (identifierStem plan.field.name) "_" n := by
  obtain ⟨done, hbehind⟩ := exists_behind hm
  obtain ⟨n, -, hname, -⟩ := hbehind.identifier_first
  exact ⟨n, hname⟩

theorem accessor_not_mem_reservedMethods (hm : plan ∈ schema.plans) {name : String}
    (h : name ∈ plan.accessorNames) : name ∉ reservedMethods := by
  obtain ⟨done, hbehind⟩ := exists_behind hm
  exact (hbehind.accessors_free name h).1

/-- The methods of a wrapper have names of their own. -/
theorem nodup_accessors (schema : TypeSchema) :
    (reservedMethods ++ schema.plans.flatMap FieldPlan.accessorNames).Nodup := by
  have hreserved : reservedMethods.Nodup := by decide +kernel
  have hapart := (schema.plans_inTurn.pairwise
    (R := fun other plan => other.accessorNames.Disjoint plan.accessorNames)
    fun before plan h other hm name ho hp => (h.accessors_free name hp).2 other hm ho).2
  refine List.nodup_append.2 ⟨hreserved,
    List.nodup_flatMap.2 ⟨fun plan _ => plan.nodup_accessorNames, hapart⟩, ?_⟩
  rintro method hmethod _ hname rfl
  obtain ⟨plan, hm, hp⟩ := List.mem_flatMap.1 hname
  exact accessor_not_mem_reservedMethods hm hp hmethod

theorem tiles_flags (schema : TypeSchema) (runtime : String) :
    Tiles (schema.plans.filter (!·.isAggregate)) FieldPlan.flag (·.field.length)
      (WrapperScope.flagCount ⟨schema, schema.plans, runtime⟩) := by
  have hall : Consecutive FieldPlan.flag FieldPlan.flagCount 0 schema.plans
      (0 + (schema.plans.map FieldPlan.flagCount).sum) :=
    schema.plans_inTurn.consecutive fun before plan h => h.flag
  rw [Nat.zero_add] at hall
  refine (hall.filter fun plan _ => ?_).tiles
  unfold FieldPlan.flagCount
  cases plan.isAggregate <;> rfl

theorem handleCount_eq_sum_plans (schema : TypeSchema) :
    schema.handleCount = (schema.plans.map (·.field.handleCount)).sum := by
  have hfields : schema.plans.map FieldPlan.field = schema.fields := fields_planFrom _ _ _ _
  have hcounts : schema.plans.map (·.field.handleCount) =
      schema.fields.map FieldSchema.handleCount := by
    rw [← hfields, List.map_map]
    rfl
  rw [hcounts, ← handleCountOf_eq_sum]
  cases schema
  rfl

theorem tiles_units (schema : TypeSchema) :
    Tiles schema.plans FieldPlan.unitOffset (·.field.handleCount) schema.handleCount := by
  have hall : Consecutive FieldPlan.unitOffset (·.field.handleCount) 0 schema.plans
      (0 + (schema.plans.map (·.field.handleCount)).sum) :=
    schema.plans_inTurn.consecutive fun before plan h => h.unitOffset
  rw [Nat.zero_add, ← schema.handleCount_eq_sum_plans] at hall
  exact hall.tiles

/-- **Planning.** Whatever the fields are called, planning gives each of them names and ranges of its
own. -/
theorem wellPlanned (schema : TypeSchema) : schema.WellPlanned where
  fields := fields_planFrom _ _ _ _
  found earlier plan later h := by
    have hbehind := schema.plans_inTurn.behind h
    rw [List.append_nil] at hbehind
    exact hbehind.takesFirstFree
  identifiers := nodup_identifiers.1
  allowed plan hm := by
    obtain ⟨n, hn⟩ := exists_numbered_identifier hm
    refine ⟨?_, accessor_not_mem_reservedMethods hm plan.identifier_mem_accessorNames⟩
    rw [hn]
    exact numbered_not_mem_hostKeywords plan.field.name n
  ownedByWrapper plan hm := by
    obtain ⟨n, hn⟩ := exists_numbered_identifier hm
    rw [hn]
    exact ownedByWrapper_numbered_iff plan.field.name n
  accessors := schema.nodup_accessors
  elements := schema.nodup_elementNames
  flags := schema.tiles_flags
  units := schema.tiles_units

/-- Names that differ in the source may meet in the host's spelling. -/
example : (planFrom "Outer" {} 0 [quadField "lightColor" 0, quadField "light_color" 16,
      quadField "set_light_color_2" 32, quadField "__locations" 48]).map FieldPlan.identifier =
    ["light_color", "light_color_2", "set_light_color_2_2", "field_locations"] := by
  decide +kernel

end TypeSchema

/-! ## A name that looks like one of the wrapper's own -/

/-- A struct with a field whose name the writer of the next field would have. -/
def markSchema : TypeSchema where
  identity := ⟨"", "", "Mark"⟩
  kind := .struct
  size := 32
  alignment := 16
  fields := [quadField "set__" 0, quadField "_" 16]

/-- The field `_` becomes `__2`. -/
theorem underscore_looks_owned : ∃ plan ∈ markSchema.plans, plan.field.name = "_" ∧
    plan.identifier = "__2" ∧ OwnedByWrapper plan.identifier := by
  decide +kernel

end UniformLayout
