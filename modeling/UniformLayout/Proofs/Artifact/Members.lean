import UniformLayout.Artifact.Data
import Mathlib.Algebra.GroupWithZero.Nat
import Mathlib.Data.List.Pairwise

/-!
# Members of plain-data structs

The members of a plain-data struct have names of their own, and so have the structs for padded
elements; the latter are told apart from plain-data structs by what their names end in. A padding
member is there exactly where the fields do not cover all bytes.

* `nodup_dataMembersFrom`: member names.
* `pairwise_elements`, `elementName_ne_dataName`: names of structs.
* `exists_padMember_iff`: padding.
-/

namespace UniformLayout

/-! ## What a name ends in -/

/-- The last character of a name that is not a digit at its end. -/
def endMark (name : String) : Option Char := (name.toList.reverse.dropWhile Char.isDigit).head?

theorem endMark_append_natText (name : String) (n : Nat) :
    endMark (name ++ toString n) = endMark name := by
  unfold endMark
  rw [String.toList_append, List.reverse_append, List.dropWhile_append_of_pos]
  intro c hm
  exact Text.isDigit_of_mem_natText (List.mem_reverse.1 hm)

theorem endMark_append {name mark : String} {c : Char} (h : endMark mark = some c) :
    endMark (name ++ mark) = some c := by
  unfold endMark at h ⊢
  rw [String.toList_append, List.reverse_append, List.dropWhile_append, if_neg, List.head?_append, h]
  · rfl
  · rw [List.isEmpty_iff]
    intro he
    rw [he] at h
    cases h

theorem endMark_numbered {stem separator : String} {c : Char} (hs : endMark stem = some c) (k : Nat) :
    endMark (Text.numbered stem separator k) = some c ∨
      endMark (Text.numbered stem separator k) = endMark (stem ++ separator) := by
  by_cases hk : k = 0
  · rw [Text.numbered, if_pos hk]
    exact .inl hs
  · rw [Text.numbered_of_ne_zero _ _ hk, ← String.append_assoc, endMark_append_natText]
    exact .inr rfl

theorem toList_padMember (n bytes : Nat) :
    (padMember n bytes).name.toList = '_' :: '_' :: ('p' :: 'a' :: 'd' :: (toString n).toList) := by
  change ("__pad" ++ toString n).toList = _
  rw [String.toList_append]
  rfl

theorem endMark_padMember (n bytes : Nat) : endMark (padMember n bytes).name = some 'd' :=
  endMark_append_natText "__pad" n

theorem endMark_dataName (name : String) : endMark (dataName name) = some 'a' :=
  endMark_append (by decide)

/-! ## Identifiers -/

/-- An identifier that is not numbered does not start with two underscores. -/
theorem identifierStem_ne (name : String) (rest : List Char) :
    (identifierStem name).toList ≠ '_' :: '_' :: rest := by
  unfold identifierStem
  dsimp only
  generalize hopen : (if (Text.cutStart? ['_', '_'] (plainIdentifier name).toList).isSome then
      "field_" ++ String.ofList ((plainIdentifier name).toList.dropWhile (· == '_'))
    else plainIdentifier name) = stem
  have hstem : stem.toList ≠ '_' :: '_' :: rest := by
    intro he
    split at hopen
    · rw [← hopen, String.toList_append] at he
      exact absurd (List.cons.inj he).1 (by decide)
    · rename_i hnone
      rw [hopen, Text.cutStart?_eq_some_iff.2 he] at hnone
      exact hnone rfl
  split
  · -- The methods of the wrapper are names without an underscore in front.
    rename_i hmethod
    have hfirst : ∀ method ∈ reservedMethods, method.toList.head?.any (· != '_') = true := by decide
    have hletter := hfirst stem (List.contains_iff_mem.1 hmethod)
    obtain ⟨c, hc, hne⟩ := (Option.any_eq_true _ _).1 hletter
    obtain ⟨others, hl⟩ := List.head?_eq_some_iff.1 hc
    intro he
    rw [String.toList_append, hl] at he
    obtain rfl := (List.cons.inj he).1
    cases hne
  · exact hstem

/-- An identifier is no name of a padding member. -/
theorem choose_ne_padMember (used : UsedNames) (isAggregate : Bool) (name : String) (n bytes : Nat) :
    used.choose isAggregate name ≠ (padMember n bytes).name := by
  unfold UsedNames.choose
  dsimp only
  generalize hf : Text.firstNumbered? _ _ _ _ _ = found
  intro he
  have hmark := endMark_padMember n bytes
  rw [← he] at hmark
  cases found with
  | none => exact absurd hmark (by decide)
  | some identifier =>
    obtain ⟨k, rfl⟩ := Text.exists_numbered hf
    by_cases hk : k = 0
    · rw [Option.getD_some, Text.numbered, if_pos hk] at he
      exact identifierStem_ne name _ (he ▸ toList_padMember n bytes)
    · have hunderscore : endMark (identifierStem name ++ "_") = some '_' :=
        endMark_append (by decide)
      rw [Option.getD_some, Text.numbered_of_ne_zero _ _ hk, ← String.append_assoc,
        endMark_append_natText, hunderscore] at hmark
      exact absurd hmark (by decide)

/-! ## Plans -/

/-- What planning gives to a field: an identifier that was free, and a struct for its elements where
they are padded. -/
structure FieldPlan.Proper (plan : FieldPlan) : Prop where
  identifier : ∀ n bytes, plan.identifier ≠ (padMember n bytes).name
  element_isSome : plan.element.isSome = plan.field.isPadded
  element : ∀ name, plan.element = some name → endMark name = some 't'

theorem endMark_elementName (owner identifier : String) (used : List String) :
    endMark (elementName owner identifier used) = some 't' := by
  have hstem : endMark (owner ++ Text.pascalCase identifier ++ "Element") = some 't' :=
    endMark_append (by decide)
  unfold elementName
  dsimp only
  generalize hf : Text.firstNumbered? _ _ _ _ _ = found
  cases found with
  | none => exact hstem
  | some name =>
    obtain ⟨k, rfl⟩ := Text.exists_numbered hf
    rcases endMark_numbered hstem k with h | h
    · exact h
    · rw [Option.getD_some, h, String.append_empty]
      exact hstem

theorem elementName_ne_dataName {name other : String} (h : endMark name = some 't') :
    name ≠ dataName other := by
  intro he
  rw [he, endMark_dataName] at h
  exact absurd h (by decide)

/-- What the plan of one field takes from what is used before, and adds to it. -/
structure FieldPlan.Planned (plan : FieldPlan) (owner : String) (index : Nat)
    (before after : PlanState) (source : FieldSchema) : Prop where
  field : plan.field = source
  index : plan.index = index
  identifier : plan.identifier = before.names.choose plan.isAggregate source.name
  names : after.names = before.names.add plan.isAggregate plan.identifier
  element : plan.element = if source.isPadded then
    some (elementName owner plan.identifier before.elements) else none
  elements : after.elements = plan.element.toList ++ before.elements
  flag : plan.flag = before.flag
  flags : after.flag = before.flag + plan.flagCount
  unitOffset : plan.unitOffset = before.unitOffset
  unitOffsets : after.unitOffset = before.unitOffset + source.handleCount

theorem planFrom_cons (owner : String) (state : PlanState) (index : Nat) (field : FieldSchema)
    (rest : List FieldSchema) :
    ∃ plan after, planFrom owner state index (field :: rest) =
        plan :: planFrom owner after (index + 1) rest ∧
      plan.Planned owner index state after field := by
  obtain ⟨name, typeName, kind, offset, size, array, location, unit⟩ := field
  cases kind
  all_goals exact ⟨_, _, rfl, rfl, rfl, rfl, rfl, rfl, rfl, rfl, rfl, rfl, rfl⟩

variable {owner : String} {state : PlanState} {index : Nat} {fields : List FieldSchema}

theorem fields_planFrom (owner : String) (state : PlanState) (index : Nat)
    (fields : List FieldSchema) :
    (planFrom owner state index fields).map FieldPlan.field = fields := by
  induction fields generalizing state index with
  | nil => rfl
  | cons field rest ih => rw [planFrom, List.map_cons, ih]

theorem proper_planFrom : ∀ plan ∈ planFrom owner state index fields, plan.Proper := by
  induction fields generalizing state index with
  | nil => simp [planFrom]
  | cons field rest ih =>
    obtain ⟨plan, after, hplan, hp⟩ := planFrom_cons owner state index field rest
    rw [hplan]
    refine List.forall_mem_cons.2 ⟨⟨?_, ?_, ?_⟩, ih⟩
    · rw [hp.identifier]
      exact choose_ne_padMember _ _ _
    · rw [hp.element, hp.field]
      split
      · rename_i hpadded
        exact hpadded.symm
      · rename_i hpadded
        exact (Bool.eq_false_iff.2 hpadded).symm
    · intro name he
      rw [hp.element] at he
      split at he
      · obtain rfl := Option.some.inj he
        exact endMark_elementName _ _ _
      · cases he

/-- Identifiers are used once. -/
theorem nodup_identifiers : ((planFrom owner state index fields).map FieldPlan.identifier).Nodup ∧
    ∀ plan ∈ planFrom owner state index fields, plan.identifier ∉ state.names.identifiers := by
  induction fields generalizing state index with
  | nil => simp [planFrom]
  | cons field rest ih =>
    obtain ⟨plan, after, hplan, hp⟩ := planFrom_cons owner state index field rest
    obtain ⟨hnodup, hnew⟩ := @ih after (index + 1)
    rw [hp.names] at hnew
    rw [hplan, List.map_cons, List.nodup_cons]
    refine ⟨⟨fun hm => ?_, hnodup⟩, List.forall_mem_cons.2 ⟨?_, fun other hm ho => ?_⟩⟩
    · obtain ⟨other, ho, he⟩ := List.mem_map.1 hm
      exact hnew other ho (he ▸ List.mem_cons_self)
    · have haccepts := UsedNames.accepts_choose state.names plan.isAggregate field.name
      rw [← hp.identifier] at haccepts
      simpa using (Bool.and_eq_true_iff.1 haccepts).1
    · exact hnew other hm (List.mem_cons_of_mem _ ho)

/-- Names of structs for elements are used once. -/
theorem pairwise_elements :
    (planFrom owner state index fields).Pairwise (fun plan other =>
        ∀ name, plan.element = some name → other.element ≠ some name) ∧
      ∀ plan ∈ planFrom owner state index fields, ∀ name, plan.element = some name →
        name ∉ state.elements := by
  induction fields generalizing state index with
  | nil => simp [planFrom]
  | cons field rest ih =>
    obtain ⟨plan, after, hplan, hp⟩ := planFrom_cons owner state index field rest
    obtain ⟨hpairwise, hnew⟩ := @ih after (index + 1)
    rw [hp.elements] at hnew
    rw [hplan]
    refine ⟨.cons (fun other hm name he ho => ?_) hpairwise,
      List.forall_mem_cons.2 ⟨fun name he => ?_, fun other hm name ho hu => ?_⟩⟩
    · refine hnew other hm name ho (List.mem_append_left _ ?_)
      rw [he]
      exact List.mem_cons_self
    · have helement := hp.element
      rw [he] at helement
      split at helement
      · rw [Option.some.inj helement]
        exact elementName_not_mem _ _ _
      · cases helement
    · exact hnew other hm name ho (List.mem_append_right _ hu)

instance : Std.Symm fun plan other : FieldPlan =>
    ∀ name, plan.element = some name → other.element ≠ some name :=
  ⟨fun _ _ h name hb ha => h name ha hb⟩

/-- The name of a struct for elements tells which field it is for. -/
theorem eq_of_element_eq {plan other : FieldPlan} (hm : plan ∈ planFrom owner state index fields)
    (ho : other ∈ planFrom owner state index fields) {name : String}
    (h : plan.element = some name) (k : other.element = some name) : plan = other := by
  by_contra hne
  exact pairwise_elements.1.forall hm ho hne name h k

/-! ## Members -/

/-- A member stands for a field, or pads. -/
theorem mem_dataMembersFrom {size cursor pads : Nat} {plans : List FieldPlan} {member : DataMember}
    (h : member ∈ dataMembersFrom size cursor pads plans) :
    (∃ n bytes, pads ≤ n ∧ member = padMember n bytes) ∨
      ∃ plan ∈ plans, member = ⟨plan.identifier, plan.storage⟩ := by
  induction plans generalizing cursor pads with
  | nil =>
    rw [dataMembersFrom] at h
    split at h
    · obtain rfl := List.mem_singleton.1 h
      exact .inl ⟨pads, _, Nat.le_refl _, rfl⟩
    · cases h
  | cons plan rest ih =>
    rw [dataMembersFrom] at h
    rcases List.mem_append.1 h with hm | hm
    · split at hm
      · obtain rfl := List.mem_singleton.1 hm
        exact .inl ⟨pads, _, Nat.le_refl _, rfl⟩
      · cases hm
    · rcases List.mem_cons.1 hm with rfl | hm
      · exact .inr ⟨plan, List.mem_cons_self, rfl⟩
      · rcases ih hm with ⟨n, bytes, hn, rfl⟩ | ⟨other, ho, rfl⟩
        · exact .inl ⟨n, bytes, Nat.le_trans (Nat.le_add_right _ _) hn, rfl⟩
        · exact .inr ⟨other, List.mem_cons_of_mem _ ho, rfl⟩

theorem padMember_injective {n m bytes other : Nat}
    (h : (padMember n bytes).name = (padMember m other).name) : n = m := by
  have hl := congrArg String.toList h
  rw [toList_padMember, toList_padMember] at hl
  simp only [List.cons.injEq, true_and] at hl
  exact Text.natText_injective (String.toList_inj.1 hl)

/-- Members have names of their own. -/
theorem nodup_dataMembersFrom {size : Nat} {plans : List FieldPlan}
    (hp : ∀ plan ∈ plans, plan.Proper) (hn : (plans.map FieldPlan.identifier).Nodup)
    (cursor pads : Nat) :
    ((dataMembersFrom size cursor pads plans).map DataMember.name).Nodup := by
  induction plans generalizing cursor pads with
  | nil =>
    rw [dataMembersFrom]
    split <;> simp
  | cons plan rest ih =>
    obtain ⟨hplan, hrest⟩ := List.forall_mem_cons.1 hp
    obtain ⟨hnew, hnodup⟩ := List.nodup_cons.1 hn
    have hbehind : ∀ next pads', plan.identifier ∉
        (dataMembersFrom size next pads' rest).map DataMember.name := by
      intro next pads' hm
      obtain ⟨member, hmem, hname⟩ := List.mem_map.1 hm
      rcases mem_dataMembersFrom hmem with ⟨n, bytes, -, rfl⟩ | ⟨other, ho, rfl⟩
      · exact hplan.identifier n bytes hname.symm
      · exact hnew (List.mem_map.2 ⟨other, ho, hname⟩)
    rw [dataMembersFrom, List.map_append, List.map_cons]
    split
    · rename_i hgap
      refine List.nodup_cons.2 ⟨fun hm => ?_, List.nodup_cons.2 ⟨hbehind _ _, ih hrest hnodup _ _⟩⟩
      rcases List.mem_cons.1 hm with he | hm
      · exact hplan.identifier _ _ he.symm
      · obtain ⟨member, hmem, hname⟩ := List.mem_map.1 hm
        rcases mem_dataMembersFrom hmem with ⟨n, bytes, hle, rfl⟩ | ⟨other, ho, rfl⟩
        · have := padMember_injective hname
          rw [List.length_singleton] at hle
          omega
        · exact (hrest other ho).identifier _ _ hname
    · exact List.nodup_cons.2 ⟨hbehind _ _, ih hrest hnodup _ _⟩

/-- Fields that stand in order leave room for padding exactly where their sizes do not add up to the
size of the struct. -/
theorem exists_padMember_iff {size : Nat} {plans : List FieldPlan} (hp : ∀ plan ∈ plans, plan.Proper)
    {cursor : Nat} (hc : cursor ≤ size)
    (hb : ∀ plan ∈ plans, cursor ≤ plan.field.offset ∧ plan.field.offset + plan.field.size ≤ size)
    (ho : plans.Pairwise fun plan next =>
      plan.field.offset + plan.field.size ≤ next.field.offset) (pads : Nat) :
    cursor + (plans.map (·.field.size)).sum ≤ size ∧
      ((∃ n bytes, padMember n bytes ∈ dataMembersFrom size cursor pads plans) ↔
        cursor + (plans.map (·.field.size)).sum ≠ size) := by
  induction plans generalizing cursor pads with
  | nil =>
    rw [List.map_nil, List.sum_nil, dataMembersFrom]
    refine ⟨by omega, ?_⟩
    split
    · exact ⟨fun _ => by omega, fun _ => ⟨_, _, List.mem_singleton_self _⟩⟩
    · simp
      omega
  | cons plan rest ih =>
    obtain ⟨hplan, hrest⟩ := List.forall_mem_cons.1 hp
    obtain ⟨hfirst, hothers⟩ := List.forall_mem_cons.1 hb
    obtain ⟨hnext, horder⟩ := List.pairwise_cons.1 ho
    have hbehind : ∀ other ∈ rest, plan.field.offset + plan.field.size ≤ other.field.offset ∧
        other.field.offset + other.field.size ≤ size :=
      fun other hm => ⟨hnext other hm, (hothers other hm).2⟩
    rw [List.map_cons, List.sum_cons, dataMembersFrom]
    split
    · obtain ⟨hle, -⟩ := ih hrest hfirst.2 hbehind horder (pads + 1)
      refine ⟨by omega, fun _ => by omega, fun _ => ⟨pads, plan.field.offset - cursor, ?_⟩⟩
      exact List.mem_append_left _ (List.mem_singleton_self _)
    · obtain ⟨hle, hiff⟩ := ih hrest hfirst.2 hbehind horder pads
      have hat : plan.field.offset = cursor := by omega
      refine ⟨by omega, ?_⟩
      rw [← Nat.add_assoc, ← hat, ← hiff]
      constructor
      · rintro ⟨n, bytes, hm⟩
        rcases List.mem_cons.1 hm with he | hm
        · exact absurd (congrArg DataMember.name he).symm (hplan.identifier n bytes)
        · exact ⟨n, bytes, hm⟩
      · rintro ⟨n, bytes, hm⟩
        exact ⟨n, bytes, List.mem_cons_of_mem _ hm⟩

end UniformLayout
