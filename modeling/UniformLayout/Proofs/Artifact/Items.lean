import UniformLayout.Artifact.Wrapper
import UniformLayout.Proofs.Artifact.Placement

/-!
# The structs of a generated source

A generated source defines a struct for each padded array, the plain-data struct and the wrapper. Their
names differ, because those of the structs for padded elements go on from the name of the type and end
in `Element`. Two types may still define structs of one name; they do not when the name of neither type
goes on from that of the other with a letter or a digit.

* `structNames_hostCode`: the structs of a source.
* `TypeSchema.nodup_items`: the names of one source.
* `TypeSchema.disjoint_items_iff`, `TypeSchema.Apart.of_extends`: the names of two.

Main statement: `nodup_items_iff`.
-/

namespace UniformLayout

/-! ## Structs in generated code -/

/-- The name of the struct that a piece of code defines. -/
def Code.structName? : Code → Option String
  | .line _ => none
  | .group head _ _ => do
    let rest ← Text.cutStart? "pub struct ".toList head.toList
    let name ← Text.cutEnd? " \x7b".toList rest
    return String.ofList name

/-- The names of the structs that code defines. -/
def Code.structNames (code : List Code) : List String := code.filterMap Code.structName?

theorem Code.structName?_struct (name : String) (body : List Code) :
    (Code.braced s!"pub struct {name}" body).structName? = some name := by
  have hhead : (s!"pub struct {name}" ++ " \x7b").toList =
      "pub struct ".toList ++ (name.toList ++ " \x7b".toList) := by
    rw [← List.append_assoc, ← String.toList_append, ← String.toList_append]
    rfl
  unfold Code.braced Code.structName?
  dsimp only
  rw [Text.cutStart?_eq_some_iff.2 hhead]
  dsimp only [Option.bind_eq_bind, Option.bind_some]
  rw [Text.cutEnd?_eq_some_iff.2 rfl]
  exact congrArg some String.ofList_toList

/-- An implementation defines no struct. -/
theorem Code.structName?_impl {head : String} (h : "impl ".toList <+: head.toList)
    (body : List Code) : (Code.braced head body).structName? = none := by
  obtain ⟨rest, hrest⟩ := h
  unfold Code.braced Code.structName?
  dsimp only
  rw [String.toList_append, ← hrest]
  rfl

theorem Code.structNames_append (a b : List Code) :
    Code.structNames (a ++ b) = Code.structNames a ++ Code.structNames b :=
  List.filterMap_append

theorem Code.structNames_lines (texts : List String) : Code.structNames (Code.lines texts) = [] := by
  rw [Code.structNames, Code.lines, List.filterMap_eq_nil_iff]
  intro code hm
  obtain ⟨text, -, rfl⟩ := List.mem_map.1 hm
  rfl

theorem structNames_plainStruct (name : String) (members : List DataMember) :
    Code.structNames (plainStruct name members) = [name] := by
  unfold plainStruct
  rw [Code.structNames_append, Code.structNames_lines, Code.structNames, List.filterMap_cons,
    Code.structName?_struct]
  rfl

namespace TypeSchema

/-- The code of a source. -/
def hostCode (schema : TypeSchema) (runtime : String) : List Code :=
  schema.dataCode schema.plans ++ WrapperScope.wrapperCode ⟨schema, schema.plans, runtime⟩

theorem hostSource_eq (schema : TypeSchema) (runtime : String) :
    schema.hostSource runtime = Code.renderAll 0 (schema.hostCode runtime) := rfl

/-- The names of the structs for padded elements. -/
def elementNames (schema : TypeSchema) : List String := schema.plans.filterMap FieldPlan.element

/-- The names of all structs of the source. -/
def items (schema : TypeSchema) : List String :=
  schema.elementNames ++ [dataName schema.name, schema.name]

theorem structNames_elements (plans : List FieldPlan) :
    Code.structNames (plans.flatMap fun plan => plan.element.elim [] fun name =>
        plainStruct name plan.elementMembers ++ [Code.blank]) =
      plans.filterMap FieldPlan.element := by
  induction plans with
  | nil => rfl
  | cons plan rest ih =>
    rw [List.flatMap_cons, Code.structNames_append, ih, List.filterMap_cons]
    cases plan.element with
    | none => rfl
    | some name =>
      rw [Option.elim_some, Code.structNames_append, structNames_plainStruct]
      rfl

/-- The structs that a source defines. -/
theorem structNames_hostCode (schema : TypeSchema) (runtime : String) :
    Code.structNames (schema.hostCode runtime) = schema.items := by
  have hheader : Code.structNames schema.header = [] := Code.structNames_lines _
  have hassertions : Code.structNames (schema.assertions schema.plans) = [] := by
    unfold assertions
    rw [Code.structNames, List.filterMap_cons, List.filterMap_eq_nil_iff.2]
    · rfl
    · intro code hm
      obtain ⟨plan, -, rfl⟩ := List.mem_map.1 hm
      rfl
  have hstruct : ∀ scope : WrapperScope, Code.structNames scope.structCode = [scope.name] := by
    intro scope
    unfold WrapperScope.structCode
    rw [Code.structNames_append, Code.structNames_lines, Code.structNames, List.filterMap_cons,
      Code.structName?_struct]
    rfl
  have himpl : ∀ scope : WrapperScope, Code.structNames [Code.blank, scope.defaultCode, Code.blank,
      scope.methodCode, Code.blank, scope.trackingCode] = [] := by
    intro scope
    have hdefault : scope.defaultCode.structName? = none := Code.structName?_impl (by simp [toString]) _
    have hmethods : scope.methodCode.structName? = none := Code.structName?_impl (by simp [toString]) _
    have htracking : scope.trackingCode.structName? = none := Code.structName?_impl (by simp [toString]) _
    simp only [Code.structNames, List.filterMap_cons, hdefault, hmethods, htracking]
    rfl
  unfold hostCode dataCode WrapperScope.wrapperCode items elementNames
  have hblank : Code.structNames [Code.blank] = [] := rfl
  simp only [Code.structNames_append, hheader, hblank, hassertions, hstruct, himpl,
    structNames_elements, structNames_plainStruct, List.append_nil, List.nil_append]
  exact List.append_assoc _ [dataName schema.name] [schema.name]

end TypeSchema

/-! ## What names start with -/

theorem Text.not_of_mem_splitBy {p : Char → Bool} {text piece : List Char}
    (h : piece ∈ Text.splitBy p text) : ∀ c ∈ piece, p c = false := by
  induction text generalizing piece with
  | nil =>
    obtain rfl := List.mem_singleton.1 h
    simp
  | cons first rest ih =>
    rw [Text.splitBy] at h
    split at h
    · rcases List.mem_cons.1 h with rfl | h
      · simp
      · exact ih h
    · rename_i hp
      have hfirst := Bool.eq_false_iff.2 hp
      generalize Text.splitBy p rest = pieces at h ih
      cases pieces with
      | nil =>
        obtain rfl := List.mem_singleton.1 h
        simpa using hfirst
      | cons head others =>
        rcases List.mem_cons.1 h with rfl | h
        · exact List.forall_mem_cons.2 ⟨hfirst, ih List.mem_cons_self⟩
        · exact ih (List.mem_cons_of_mem _ h)

theorem Text.eq_underscore_of_toUpper {c : Char} (h : c.toUpper = '_') : c = '_' := by
  unfold Char.toUpper at h
  split at h
  · rename_i hlower
    have hval := congrArg Char.val h
    dsimp only at hval
    have hc : c.val = '_'.val - ('A'.val - 'a'.val) := by rw [← hval, UInt32.add_sub_cancel]
    rw [hc] at hlower
    exact absurd hlower (by decide)
  · exact h

theorem Text.underscore_not_mem_pascalCase (name : String) :
    '_' ∉ (Text.pascalCase name).toList := by
  intro hm
  rw [Text.pascalCase, String.toList_ofList] at hm
  obtain ⟨piece, hpiece, hc⟩ := List.mem_flatMap.1 hm
  have hnone : '_' ∉ piece := fun hu => absurd (Text.not_of_mem_splitBy hpiece _ hu) (by decide)
  cases piece with
  | nil => cases hc
  | cons first rest =>
    rcases List.mem_cons.1 hc with he | hc
    · exact hnone (Text.eq_underscore_of_toUpper he.symm ▸ List.mem_cons_self)
    · exact hnone (List.mem_cons_of_mem _ hc)

/-- The name goes on from the other one, with another character than an underscore. -/
def Extends (name start : String) : Prop :=
  ∃ c rest, c ≠ '_' ∧ name.toList = start.toList ++ c :: rest

theorem extends_iff {name start : String} : Extends name start ↔
    ((Text.cutStart? start.toList name.toList).any fun rest => rest.head?.any (· != '_')) = true := by
  simp only [Extends, Option.any_eq_true, Text.cutStart?_eq_some_iff, List.head?_eq_some_iff, bne_iff_ne]
  constructor
  · rintro ⟨c, rest, hc, he⟩
    exact ⟨_, he, c, ⟨rest, rfl⟩, hc⟩
  · rintro ⟨_, he, c, ⟨rest, rfl⟩, hc⟩
    exact ⟨c, rest, hc, he⟩

instance (name start : String) : Decidable (Extends name start) := decidable_of_iff _ extends_iff.symm

theorem Extends.ne {name start : String} (h : Extends name start) : name ≠ start := by
  rintro rfl
  obtain ⟨c, rest, -, he⟩ := h
  have hlength := congrArg List.length he
  rw [List.length_append, List.length_cons] at hlength
  omega

/-- Of two names that a third goes on from, one goes on from the other. -/
theorem Extends.trichotomy {name start other : String} (h : Extends name start)
    (k : Extends name other) : start = other ∨ Extends start other ∨ Extends other start := by
  obtain ⟨c, rest, hc, he⟩ := h
  obtain ⟨d, more, hd, ho⟩ := k
  rw [he, List.append_eq_append_iff] at ho
  rcases ho with ⟨between, hb, hrest⟩ | ⟨between, hb, hrest⟩
  · cases between with
    | nil => exact .inl (String.toList_inj.1 (by simpa using hb.symm))
    | cons first behind =>
      obtain ⟨rfl, -⟩ := List.cons.inj hrest
      exact .inr (.inr ⟨c, behind, hc, hb⟩)
  · cases between with
    | nil => exact .inl (String.toList_inj.1 (by simpa using hb))
    | cons first behind =>
      obtain ⟨rfl, -⟩ := List.cons.inj hrest
      exact .inr (.inl ⟨d, behind, hd, hb⟩)

theorem extends_dataName (name : String) : Extends (dataName name) name :=
  ⟨'D', ['a', 't', 'a'], by decide, String.toList_append⟩

theorem extends_elementName (owner identifier : String) (used : List String) :
    Extends (elementName owner identifier used) owner := by
  have hstem : ∀ behind : List Char, ∃ c rest, c ≠ '_' ∧
      (owner ++ Text.pascalCase identifier ++ "Element").toList ++ behind =
        owner.toList ++ c :: rest := by
    intro behind
    have hnone := Text.underscore_not_mem_pascalCase identifier
    rw [String.toList_append, String.toList_append]
    generalize (Text.pascalCase identifier).toList = letters at hnone
    cases letters with
    | nil => exact ⟨'E', _, by decide, by rw [List.append_nil, List.append_assoc]; rfl⟩
    | cons c rest =>
      refine ⟨c, rest ++ ("Element".toList ++ behind), fun he => hnone (he ▸ List.mem_cons_self), ?_⟩
      rw [List.append_assoc, List.append_assoc, List.cons_append]
  have hself := hstem []
  rw [List.append_nil] at hself
  unfold elementName
  dsimp only
  generalize hf : Text.firstNumbered? _ _ _ _ _ = found
  cases found with
  | none => exact hself
  | some name =>
    obtain ⟨k, rfl⟩ := Text.exists_numbered hf
    rw [Option.getD_some]
    by_cases hk : k = 0
    · rw [Text.numbered, if_pos hk]
      exact hself
    · rw [Text.numbered_of_ne_zero _ _ hk]
      obtain ⟨c, rest, hc, he⟩ := hstem ("" ++ toString (k + 1)).toList
      exact ⟨c, rest, hc, by rw [String.toList_append, he]⟩

/-- What the names of structs for elements look like. -/
theorem element_planFrom {owner : String} {state : PlanState} {index : Nat}
    {fields : List FieldSchema} :
    ∀ plan ∈ planFrom owner state index fields, ∀ name, plan.element = some name →
      Extends name owner := by
  induction fields generalizing state index with
  | nil => simp [planFrom]
  | cons field rest ih =>
    obtain ⟨plan, after, hplan, hp⟩ := planFrom_cons owner state index field rest
    rw [hplan]
    refine List.forall_mem_cons.2 ⟨fun name he => ?_, ih⟩
    rw [hp.element] at he
    split at he
    · obtain rfl := Option.some.inj he
      exact extends_elementName _ _ _
    · cases he

namespace TypeSchema

variable {schema other : TypeSchema}

theorem extends_of_mem_elementNames {name : String} (h : name ∈ schema.elementNames) :
    Extends name schema.name := by
  obtain ⟨plan, hm, he⟩ := List.mem_filterMap.1 h
  exact element_planFrom plan hm name he

theorem ne_dataName_of_mem_elementNames {name : String} (h : name ∈ schema.elementNames)
    (of : String) : name ≠ dataName of := by
  obtain ⟨plan, hm, he⟩ := List.mem_filterMap.1 h
  exact elementName_ne_dataName ((proper_planFrom plan hm).element name he)

theorem nodup_elementNames (schema : TypeSchema) : schema.elementNames.Nodup := by
  refine List.pairwise_filterMap.2 (pairwise_elements.1.imp fun h name he other ho => ?_)
  rintro rfl
  exact h name he ho

/-- The structs of one source have names of their own. -/
theorem nodup_items (schema : TypeSchema) : schema.items.Nodup := by
  have hpair : [dataName schema.name, schema.name].Nodup := by
    simpa using (extends_dataName schema.name).ne
  refine List.nodup_append.2 ⟨schema.nodup_elementNames, hpair, fun name hm other ho => ?_⟩
  rcases List.mem_cons.1 ho with rfl | ho
  · exact ne_dataName_of_mem_elementNames hm _
  · rw [List.mem_singleton.1 ho]
    exact (extends_of_mem_elementNames hm).ne

/-- The sources of the two types define no struct of one name, as long as the names of the types
differ. -/
structure Apart (schema other : TypeSchema) : Prop where
  data : schema.name ≠ dataName other.name
  data' : other.name ≠ dataName schema.name
  element : schema.name ∉ other.elementNames
  element' : other.name ∉ schema.elementNames
  elements : schema.elementNames.Disjoint other.elementNames

theorem mem_items {name : String} : name ∈ schema.items ↔
    name ∈ schema.elementNames ∨ name = dataName schema.name ∨ name = schema.name := by
  rw [items, List.mem_append, List.mem_cons, List.mem_singleton]

theorem disjoint_items_iff (h : schema.name ≠ other.name) :
    schema.items.Disjoint other.items ↔ schema.Apart other := by
  constructor
  · intro hd
    have hself : ∀ of : TypeSchema, of.name ∈ of.items := fun of => mem_items.2 (.inr (.inr rfl))
    have hdata : ∀ of : TypeSchema, dataName of.name ∈ of.items :=
      fun of => mem_items.2 (.inr (.inl rfl))
    exact ⟨fun he => hd (hself schema) (he ▸ hdata other),
      fun he => hd (he ▸ hdata schema) (hself other),
      fun hm => hd (hself schema) (mem_items.2 (.inl hm)),
      fun hm => hd (mem_items.2 (.inl hm)) (hself other),
      fun name hm ho => hd (mem_items.2 (.inl hm)) (mem_items.2 (.inl ho))⟩
  · intro ha name hm ho
    rcases mem_items.1 hm with hm | rfl | rfl
    · rcases mem_items.1 ho with ho | rfl | rfl
      · exact ha.elements hm ho
      · exact ne_dataName_of_mem_elementNames hm _ rfl
      · exact ha.element' hm
    · rcases mem_items.1 ho with ho | he | he
      · exact ne_dataName_of_mem_elementNames ho _ rfl
      · exact h (dataName_injective he)
      · exact ha.data' he.symm
    · rcases mem_items.1 ho with ho | he | he
      · exact ha.element ho
      · exact ha.data he
      · exact h he

/-- Whatever else a source defines goes on from the name of its type, and not with an underscore. -/
theorem Apart.of_extends (hne : schema.name ≠ other.name) (h : ¬ Extends schema.name other.name)
    (h' : ¬ Extends other.name schema.name) : schema.Apart other := by
  refine ⟨fun he => h (he ▸ extends_dataName other.name),
    fun he => h' (he ▸ extends_dataName schema.name), fun hm => h (extends_of_mem_elementNames hm),
    fun hm => h' (extends_of_mem_elementNames hm), fun name hm ho => ?_⟩
  rcases (extends_of_mem_elementNames hm).trichotomy (extends_of_mem_elementNames ho) with
    he | he | he
  · exact hne he
  · exact h he
  · exact h' he

end TypeSchema

/-- **Structs.** The structs of several sources, written for types with different names, have names of
their own if and only if no two of the sources are in conflict. -/
theorem nodup_items_iff {schemas : List TypeSchema} (h : (schemas.map TypeSchema.name).Nodup) :
    (schemas.flatMap TypeSchema.items).Nodup ↔ schemas.Pairwise TypeSchema.Apart := by
  have hnames : schemas.Pairwise fun schema other => schema.name ≠ other.name :=
    List.pairwise_map.1 h
  rw [List.nodup_flatMap]
  constructor
  · rintro ⟨-, hd⟩
    exact (hd.and hnames).imp fun ⟨hdisjoint, hne⟩ => (TypeSchema.disjoint_items_iff hne).1 hdisjoint
  · intro ha
    exact ⟨fun schema _ => schema.nodup_items,
      (ha.and hnames).imp fun ⟨hapart, hne⟩ => (TypeSchema.disjoint_items_iff hne).2 hapart⟩

end UniformLayout
