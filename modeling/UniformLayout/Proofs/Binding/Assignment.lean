import UniformLayout.Proofs.Binding.Units
import UniformLayout.Proofs.Lists
import UniformLayout.Proofs.Table

/-!
# What an assignment of texture units is

The uniforms that hold handles are served in two passes over one set of taken units: those with a
binding first, at their binding, then all others, each with the least start that is open to it. A
pass is a list of uniforms of which each gets a range (`Places`). The two passes differ in which
start suits a uniform (`Asked`, `Least`) and in how they refuse one (`Refused`, `Crowded`).

* `UnitPlan.takeAt_eq_ok_iff`, `UnitPlan.takeAt_eq_error_iff`: a range that was asked for.
* `UnitPlan.takeAnywhere_eq_ok_iff`, `UnitPlan.takeAnywhere_eq_error_iff`: a range anywhere.
* `UnitPlan.foldlM_eq_ok_iff`, `UnitPlan.foldlM_eq_error_iff`: a pass, from what it does with one
  uniform.
* `places_asked_iff`: the ranges that were asked for suit exactly if they have no unit in common.

Main statement: `assignTextureUnits_spec`.
-/

namespace UniformLayout

namespace UnitRange

/-- No unit is in both. -/
def Disjoint (range other : UnitRange) : Prop :=
  ∀ unit, ¬ (range.covers unit = true ∧ other.covers unit = true)

/-- The range lies below the maximum, and no unit of it is taken. -/
def Open (max : Nat) (taken : List UnitRange) (range : UnitRange) : Prop :=
  range.first + range.count ≤ max ∧ ∀ other ∈ taken, range.Disjoint other

/-- The lowest unit of the range that is taken. -/
def LeastTaken (taken : List UnitRange) (range : UnitRange) (unit : Nat) : Prop :=
  (range.covers unit = true ∧ ∃ other ∈ taken, other.covers unit = true) ∧
    ∀ u < unit, range.covers u = true → ∀ other ∈ taken, ¬ other.covers u = true

/-- A range that was asked for and is refused: its end is beyond all numbers or beyond the maximum,
or a unit of it is taken. -/
inductive Refused (max : Nat) (taken : List UnitRange) (range : UnitRange) : BindingError → Prop
  | endless (h : ¬ Fits (range.first + range.count)) : Refused max taken range .exhausted
  | beyond (hf : Fits (range.first + range.count)) (h : max < range.first + range.count) :
      Refused max taken range (.slotOutOfRange (range.first + range.count - 1) max)
  | conflict {unit : Nat} (hf : Fits (range.first + range.count))
      (hb : range.first + range.count ≤ max) (h : range.LeastTaken taken unit) :
      Refused max taken range (.slotConflict unit)

variable {range other : UnitRange} {taken : List UnitRange} {max unit : Nat}

theorem covers_iff :
    range.covers unit = true ↔ range.first ≤ unit ∧ unit < range.first + range.count := by
  simp [covers]

theorem Disjoint.symm (h : range.Disjoint other) : other.Disjoint range :=
  fun unit hu => h unit hu.symm

theorem disjoint_of_le (h : range.first + range.count ≤ other.first ∨
    other.first + other.count ≤ range.first) : range.Disjoint other := by
  intro unit hboth
  simp only [covers_iff] at hboth
  omega

theorem LeastTaken.unique {u : Nat} (h : range.LeastTaken taken unit)
    (k : range.LeastTaken taken u) : unit = u := by
  obtain ⟨⟨hc, other, hm, ho⟩, hleast⟩ := h
  obtain ⟨⟨kc, another, km, ko⟩, kleast⟩ := k
  rcases Nat.lt_trichotomy unit u with hlt | he | hlt
  · exact absurd ho (kleast unit hlt hc other hm)
  · exact he
  · exact absurd ko (hleast u hlt kc another km)

theorem LeastTaken.not_disjoint (h : range.LeastTaken taken unit) :
    ¬ ∀ other ∈ taken, range.Disjoint other := by
  obtain ⟨⟨hc, other, hm, ho⟩, -⟩ := h
  exact fun hd => hd other hm unit ⟨hc, ho⟩

end UnitRange

open UnitRange

/-- The units of a uniform that starts at the given one. -/
def FieldLayout.stretch (field : FieldLayout) (first : Nat) : UnitRange :=
  ⟨first, field.handleCount⟩

/-- The uniform has a binding, and its units from there on are open. -/
def Asked (max : Nat) (taken : List UnitRange) (field : FieldLayout) (first : Nat) : Prop :=
  field.qualifiers.binding = some first ∧ (field.stretch first).Open max taken

/-- The least start that is open to the uniform. -/
def Least (max : Nat) (taken : List UnitRange) (field : FieldLayout) (first : Nat) : Prop :=
  (field.stretch first).Open max taken ∧ ∀ start < first, ¬ (field.stretch start).Open max taken

/-- The uniform has a binding, and its units from there on are refused. -/
def AskRefused (max : Nat) (taken : List UnitRange) (field : FieldLayout) (cause : BindingError) :
    Prop :=
  ∃ first, field.qualifiers.binding = some first ∧ (field.stretch first).Refused max taken cause

/-- No start is open to the uniform. -/
def Crowded (max : Nat) (taken : List UnitRange) (field : FieldLayout) (cause : BindingError) :
    Prop :=
  cause = .exhausted ∧ ∀ start, ¬ (field.stretch start).Open max taken

/-- Uniforms that get their ranges one after the other. Each starts where it suits the uniform, with
the units that are taken by then; the ranges that were given last stand in front. -/
inductive Places (suits : List UnitRange → FieldLayout → Nat → Prop) :
    List UnitRange → List FieldLayout → List UnitRange → Prop
  | nil {taken : List UnitRange} : Places suits taken [] []
  | cons {taken ranges : List UnitRange} {field : FieldLayout} {rest : List FieldLayout}
      {first : Nat} (here : suits taken field first)
      (there : Places suits (field.stretch first :: taken) rest ranges) :
      Places suits taken (field :: rest) (field.stretch first :: ranges)

variable {suits : List UnitRange → FieldLayout → Nat → Prop} {taken ranges : List UnitRange}
  {fields : List FieldLayout} {field : FieldLayout} {max first count : Nat} {cause : BindingError}

namespace UnitPlan

variable {plan next : UnitPlan} {name : String}

/-! ## One range -/

theorem isTaken_eq_false_iff {unit : Nat} :
    plan.isTaken unit = false ↔ ∀ other ∈ plan.taken, ¬ other.covers unit = true :=
  List.any_eq_false

theorem firstTaken?_eq_none_iff_disjoint : plan.firstTaken? count first = none ↔
    ∀ other ∈ plan.taken, UnitRange.Disjoint ⟨first, count⟩ other := by
  rw [firstTaken?_eq_none_iff]
  constructor
  · intro h other hm unit hboth
    obtain ⟨hl, hu⟩ := covers_iff.1 hboth.1
    exact isTaken_eq_false_iff.1 (h unit hl hu) other hm hboth.2
  · intro h unit hl hu
    exact isTaken_eq_false_iff.2 fun other hm hc => h other hm unit ⟨covers_iff.2 ⟨hl, hu⟩, hc⟩

theorem open_iff : Open max plan.taken ⟨first, count⟩ ↔
    first + count ≤ max ∧ plan.firstTaken? count first = none :=
  and_congr_right fun _ => firstTaken?_eq_none_iff_disjoint.symm

theorem firstTaken?_eq_some {unit : Nat} (h : plan.firstTaken? count first = some unit) :
    LeastTaken plan.taken ⟨first, count⟩ unit := by
  induction count generalizing first with
  | zero => cases h
  | succ count ih =>
    rw [firstTaken?] at h
    split at h
    · rename_i ht
      obtain rfl := Option.some.inj h
      refine ⟨⟨covers_iff.2 ⟨Nat.le_refl _, Nat.lt_add_of_pos_right (Nat.succ_pos _)⟩,
        List.any_eq_true.1 ht⟩, fun u hu hc => ?_⟩
      exact absurd (covers_iff.1 hc).1 (Nat.not_le.2 hu)
    · rename_i ht
      obtain ⟨⟨hc, htaken⟩, hleast⟩ := ih h
      have hin : ∀ {u}, UnitRange.covers ⟨first, count + 1⟩ u = true ↔
          u = first ∨ UnitRange.covers ⟨first + 1, count⟩ u = true := by
        intro u
        simp only [covers_iff]
        omega
      refine ⟨⟨hin.2 (.inr hc), htaken⟩, fun u hlt hu => ?_⟩
      rcases hin.1 hu with rfl | hu
      · exact isTaken_eq_false_iff.1 (Bool.eq_false_iff.2 ht)
      · exact hleast u hlt hu

theorem firstTaken?_eq_some_iff {unit : Nat} : plan.firstTaken? count first = some unit ↔
    LeastTaken plan.taken ⟨first, count⟩ unit := by
  refine ⟨firstTaken?_eq_some, fun h => ?_⟩
  cases hf : plan.firstTaken? count first with
  | none => exact absurd (firstTaken?_eq_none_iff_disjoint.1 hf) h.not_disjoint
  | some u => rw [(firstTaken?_eq_some hf).unique h]

theorem takeAt_eq_ok_iff (hmax : Fits max) : plan.takeAt max name first count = .ok next ↔
    Open max plan.taken ⟨first, count⟩ ∧ next = plan.take name ⟨first, count⟩ := by
  constructor
  · intro h
    obtain ⟨hle, hfree, hnext⟩ := takeAt_eq_ok h
    exact ⟨⟨hle, firstTaken?_eq_none_iff_disjoint.1 (firstTaken?_eq_none_iff.2 hfree)⟩, hnext⟩
  · rintro ⟨⟨hle, hdisjoint⟩, rfl⟩
    dsimp only at hle
    have hfits : Fits (first + count) := Nat.lt_of_le_of_lt hle hmax
    rw [takeAt, if_neg (not_not_intro hfits), if_neg (Nat.not_lt.2 hle),
      firstTaken?_eq_none_iff_disjoint.2 hdisjoint]

theorem takeAt_eq_error_iff : plan.takeAt max name first count = .error cause ↔
    Refused max plan.taken ⟨first, count⟩ cause := by
  constructor
  · intro h
    unfold takeAt at h
    split at h
    · rename_i hf
      obtain rfl := Except.error.inj h
      exact .endless hf
    · rename_i hf
      split at h
      · rename_i hlt
        obtain rfl := Except.error.inj h
        exact .beyond (Decidable.not_not.1 hf) hlt
      · rename_i hle
        split at h
        · rename_i unit hu
          obtain rfl := Except.error.inj h
          exact .conflict (Decidable.not_not.1 hf) (Nat.not_lt.1 hle) (firstTaken?_eq_some hu)
        · cases h
  · intro h
    unfold takeAt
    cases h with
    | endless hf => rw [if_pos hf]
    | beyond hf hlt => rw [if_neg (not_not_intro hf), if_pos hlt]
    | conflict hf hle hu =>
      rw [if_neg (not_not_intro hf), if_neg (Nat.not_lt.2 hle), firstTaken?_eq_some_iff.2 hu]

/-- The search looks at each start once, in ascending order. -/
theorem firstStretch?_eq_some_iff {starts start found : Nat} :
    plan.firstStretch? max count starts start = some found ↔
      (start ≤ found ∧ found < start + starts) ∧ Open max plan.taken ⟨found, count⟩ ∧
        ∀ s, start ≤ s → s < found → ¬ Open max plan.taken ⟨s, count⟩ := by
  induction starts generalizing start with
  | zero =>
    rw [firstStretch?]
    refine iff_of_false (by simp) ?_
    rintro ⟨⟨hl, hu⟩, -⟩
    omega
  | succ starts ih =>
    rw [firstStretch?]
    by_cases hopen : Open max plan.taken ⟨start, count⟩
    · rw [if_pos (open_iff.1 hopen), Option.some.injEq]
      constructor
      · rintro rfl
        exact ⟨by omega, hopen, fun s hl hu => absurd hl (Nat.not_le.2 hu)⟩
      · rintro ⟨⟨hl, -⟩, -, hleast⟩
        by_contra hne
        exact hleast start (Nat.le_refl _) (by omega) hopen
    · rw [if_neg (mt open_iff.2 hopen), ih]
      constructor
      · rintro ⟨hin, hfound, hleast⟩
        refine ⟨by omega, hfound, fun s hl hu => ?_⟩
        by_cases he : s = start
        · exact he ▸ hopen
        · exact hleast s (by omega) hu
      · rintro ⟨hin, hfound, hleast⟩
        have hne : found ≠ start := fun he => hopen (he ▸ hfound)
        exact ⟨by omega, hfound, fun s hl hu => hleast s (by omega) hu⟩

theorem firstStretch?_zero_eq_some_iff (hc : 0 < count) :
    plan.firstStretch? max count max 0 = some first ↔
      Open max plan.taken ⟨first, count⟩ ∧
        ∀ start < first, ¬ Open max plan.taken ⟨start, count⟩ := by
  rw [firstStretch?_eq_some_iff]
  constructor
  · rintro ⟨-, hopen, hleast⟩
    exact ⟨hopen, fun start hlt => hleast start (Nat.zero_le _) hlt⟩
  · rintro ⟨hopen, hleast⟩
    have hle := hopen.1
    dsimp only at hle
    exact ⟨by omega, hopen, fun start _ hlt => hleast start hlt⟩

theorem firstStretch?_zero_eq_none_iff (hc : 0 < count) :
    plan.firstStretch? max count max 0 = none ↔
      ∀ start, ¬ Open max plan.taken ⟨start, count⟩ := by
  rw [Option.eq_none_iff_forall_ne_some]
  constructor
  · intro h start
    -- a start that is open and has no lower one would have been found
    induction start using Nat.strongRecOn with
    | ind start ih =>
      intro hopen
      exact h start ((firstStretch?_zero_eq_some_iff hc).2 ⟨hopen, ih⟩)
  · intro h start hs
    exact h start ((firstStretch?_zero_eq_some_iff hc).1 hs).1

theorem takeAnywhere_eq_ok_iff (hc : 0 < count) :
    plan.takeAnywhere max name count = .ok next ↔
      ∃ first, (Open max plan.taken ⟨first, count⟩ ∧
        ∀ start < first, ¬ Open max plan.taken ⟨start, count⟩) ∧
        next = plan.take name ⟨first, count⟩ := by
  simp only [takeAnywhere, ← firstStretch?_zero_eq_some_iff hc]
  cases plan.firstStretch? max count max 0 with
  | none => simp
  | some first => simp [eq_comm]

theorem takeAnywhere_eq_error_iff (hc : 0 < count) :
    plan.takeAnywhere max name count = .error cause ↔
      cause = .exhausted ∧ ∀ start, ¬ Open max plan.taken ⟨start, count⟩ := by
  rw [takeAnywhere, ← firstStretch?_zero_eq_none_iff hc]
  cases plan.firstStretch? max count max 0 with
  | none => simp [eq_comm]
  | some first => simp

/-! ## One uniform -/

theorem serveBound_eq_ok_iff (hmax : Fits max) (hb : field.qualifiers.binding.isSome = true) :
    serveBound max plan field = .ok next ↔
      ∃ first, Asked max plan.taken field first ∧
        next = plan.take field.name (field.stretch first) := by
  obtain ⟨first, hb⟩ := Option.isSome_iff_exists.1 hb
  simp [serveBound, hb, takeAt_eq_ok_iff hmax, Asked, FieldLayout.stretch]

theorem serveBound_eq_error_iff (hb : field.qualifiers.binding.isSome = true) :
    serveBound max plan field = .error cause ↔ AskRefused max plan.taken field cause := by
  obtain ⟨first, hb⟩ := Option.isSome_iff_exists.1 hb
  simp [serveBound, hb, takeAt_eq_error_iff, AskRefused, FieldLayout.stretch]

theorem serveFree_eq_ok_iff (hc : 0 < field.handleCount)
    (hb : field.qualifiers.binding.isNone = true) :
    serveFree max plan field = .ok next ↔
      ∃ first, Least max plan.taken field first ∧
        next = plan.take field.name (field.stretch first) := by
  rw [serveFree, Option.isNone_iff_eq_none.1 hb]
  exact takeAnywhere_eq_ok_iff hc

theorem serveFree_eq_error_iff (hc : 0 < field.handleCount)
    (hb : field.qualifiers.binding.isNone = true) :
    serveFree max plan field = .error cause ↔ Crowded max plan.taken field cause := by
  rw [serveFree, Option.isNone_iff_eq_none.1 hb]
  exact takeAnywhere_eq_error_iff hc

/-! ## One pass -/

/-- The plan with one more range for each of some uniforms. -/
def takeAll (plan : UnitPlan) (fields : List FieldLayout) (ranges : List UnitRange) : UnitPlan :=
  (fields.zip ranges).foldl (fun plan pair => plan.take pair.1.name pair.2) plan

theorem taken_takeAll (h : Places suits taken fields ranges) (plan : UnitPlan) :
    (plan.takeAll fields ranges).taken = ranges.reverse ++ plan.taken := by
  induction h generalizing plan with
  | nil => rfl
  | @cons _ ranges field rest first _ _ ih =>
    rw [List.reverse_cons, List.append_assoc]
    exact ih (plan.take field.name (field.stretch first))

theorem sorted_takeAll (h : plan.firsts.Sorted) :
    (plan.takeAll fields ranges).firsts.Sorted := by
  unfold takeAll
  induction fields.zip ranges generalizing plan with
  | nil => exact h
  | cons pair rest ih => exact ih (h.insert pair.1.name pair.2.first)

theorem lookup_takeAll_of_notMem (hn : name ∉ fields.map FieldLayout.name) :
    (plan.takeAll fields ranges).firsts.lookup name = plan.firsts.lookup name := by
  induction fields generalizing plan ranges with
  | nil => rfl
  | cons field rest ih =>
    cases ranges with
    | nil => rfl
    | cons range ranges =>
      rw [List.map_cons, List.mem_cons, not_or] at hn
      have hnext : ((plan.take field.name range).takeAll rest ranges).firsts.lookup name =
          (plan.take field.name range).firsts.lookup name := ih hn.2
      exact hnext.trans (Table.lookup_insert_of_ne hn.1 _ _)

theorem lookup_takeAll (h : Places suits taken fields ranges)
    (hn : (fields.map FieldLayout.name).Nodup) (plan : UnitPlan) :
    List.Forall₂ (fun field range =>
      (plan.takeAll fields ranges).firsts.lookup field.name = some range.first ∧
        ∃ taken, suits taken field range.first) fields ranges := by
  induction h generalizing plan with
  | nil => exact .nil
  | @cons taken ranges field rest first hsuits _ ih =>
    rw [List.map_cons, List.nodup_cons] at hn
    let mid := plan.take field.name (field.stretch first)
    have hlast : (mid.takeAll rest ranges).firsts.lookup field.name = mid.firsts.lookup field.name :=
      lookup_takeAll_of_notMem hn.1
    exact .cons ⟨hlast.trans (Table.lookup_insert_self _ _ _), taken, hsuits⟩ (ih hn.2 mid)

section Pass

variable {pass : UnitPlan → FieldLayout → Except BindingError UnitPlan}
  {refuses : List UnitRange → FieldLayout → BindingError → Prop}

theorem foldlM_eq_ok_iff
    (hok : ∀ field ∈ fields, ∀ plan next, pass plan field = .ok next ↔
      ∃ first, suits plan.taken field first ∧ next = plan.take field.name (field.stretch first)) :
    fields.foldlM pass plan = .ok next ↔
      ∃ ranges, Places suits plan.taken fields ranges ∧ next = plan.takeAll fields ranges := by
  induction fields generalizing plan with
  | nil =>
    constructor
    · intro h
      exact ⟨[], .nil, (Except.ok.inj h).symm⟩
    · rintro ⟨ranges, h, rfl⟩
      cases h
      rfl
  | cons field rest ih =>
    obtain ⟨hfield, hrest⟩ := List.forall_mem_cons.1 hok
    rw [List.foldlM_cons, bind_eq_ok_iff]
    constructor
    · rintro ⟨mid, hmid, h⟩
      obtain ⟨first, hsuits, rfl⟩ := (hfield plan mid).1 hmid
      obtain ⟨ranges, hplaces, rfl⟩ := (ih hrest).1 h
      exact ⟨_, .cons hsuits hplaces, rfl⟩
    · rintro ⟨ranges, h, rfl⟩
      cases h with
      | cons hsuits hplaces =>
        exact ⟨_, (hfield plan _).2 ⟨_, hsuits, rfl⟩, (ih hrest).2 ⟨_, hplaces, rfl⟩⟩

/-- A pass fails at the first uniform that it refuses. -/
theorem foldlM_eq_error_iff
    (hok : ∀ field ∈ fields, ∀ plan next, pass plan field = .ok next ↔
      ∃ first, suits plan.taken field first ∧ next = plan.take field.name (field.stretch first))
    (herror : ∀ field ∈ fields, ∀ plan cause, pass plan field = .error cause ↔
      refuses plan.taken field cause) :
    fields.foldlM pass plan = .error cause ↔
      ∃ before field behind ranges, fields = before ++ field :: behind ∧
        Places suits plan.taken before ranges ∧ refuses (ranges.reverse ++ plan.taken) field cause := by
  induction fields generalizing plan with
  | nil =>
    refine iff_of_false nofun ?_
    rintro ⟨before, field, behind, ranges, he, -⟩
    exact List.append_ne_nil_of_right_ne_nil _ (List.cons_ne_nil _ _) he.symm
  | cons field rest ih =>
    obtain ⟨hfield, hrest⟩ := List.forall_mem_cons.1 hok
    obtain ⟨hrefuse, hrefuses⟩ := List.forall_mem_cons.1 herror
    rw [List.foldlM_cons]
    constructor
    · intro h
      cases hp : pass plan field with
      | error e =>
        rw [hp] at h
        obtain rfl := Except.error.inj h
        exact ⟨[], field, rest, [], rfl, .nil, (hrefuse plan _).1 hp⟩
      | ok mid =>
        rw [hp] at h
        obtain ⟨first, hsuits, rfl⟩ := (hfield plan mid).1 hp
        obtain ⟨before, other, behind, ranges, rfl, hplaces, hr⟩ := (ih hrest hrefuses).1 h
        refine ⟨field :: before, other, behind, _, rfl, .cons hsuits hplaces, ?_⟩
        rw [List.reverse_cons, List.append_assoc]
        exact hr
    · rintro ⟨before, other, behind, ranges, he, hplaces, hr⟩
      cases hplaces with
      | nil =>
        obtain ⟨rfl, rfl⟩ := List.cons.inj he
        rw [(hrefuse plan cause).2 hr]
        rfl
      | @cons _ ranges field' before first hsuits hplaces =>
        obtain ⟨rfl, rfl⟩ := List.cons.inj he
        rw [(hfield plan _).2 ⟨first, hsuits, rfl⟩]
        rw [List.reverse_cons, List.append_assoc] at hr
        exact (ih hrest hrefuses).2 ⟨before, other, behind, ranges, rfl, hplaces, hr⟩

/-- Uniforms that a pass skips might as well not be there. -/
theorem foldlM_filter_of_skips {turn : FieldLayout → Bool}
    (hskip : ∀ plan field, turn field = false → pass plan field = .ok plan) :
    (fields.filter turn).foldlM pass plan = fields.foldlM pass plan := by
  rw [List.foldlM_filter]
  congr
  funext plan field
  cases ht : turn field with
  | true => rw [if_pos rfl]
  | false =>
    rw [if_neg Bool.false_ne_true]
    exact (hskip plan field ht).symm

end Pass

end UnitPlan

/-! ## Both passes -/

/-- The uniforms that need units. -/
def unitHolders (fields : List FieldLayout) : List FieldLayout :=
  fields.filter (0 < ·.handleCount)

def boundHolders (fields : List FieldLayout) : List FieldLayout :=
  (unitHolders fields).filter (·.qualifiers.binding.isSome)

def freeHolders (fields : List FieldLayout) : List FieldLayout :=
  (unitHolders fields).filter (·.qualifiers.binding.isNone)

/-- The ranges that uniforms ask for. -/
def askedRanges (fields : List FieldLayout) : List UnitRange :=
  fields.filterMap fun field => field.qualifiers.binding.map field.stretch

/-- The ranges lie below the maximum, and no two have a unit in common. -/
def Fitting (max : Nat) (ranges : List UnitRange) : Prop :=
  (∀ range ∈ ranges, range.first + range.count ≤ max) ∧ ranges.Pairwise UnitRange.Disjoint

theorem fitting_cons {range : UnitRange} : Fitting max (range :: ranges) ↔
    range.first + range.count ≤ max ∧ (∀ other ∈ ranges, range.Disjoint other) ∧
      Fitting max ranges := by
  simp only [Fitting, List.forall_mem_cons, List.pairwise_cons]
  tauto

/-- Ranges that are asked for suit exactly if they fit and avoid what is taken. -/
theorem places_asked_iff (hb : ∀ field ∈ fields, field.qualifiers.binding.isSome = true) :
    Places (Asked max) taken fields ranges ↔
      ranges = askedRanges fields ∧ Fitting max ranges ∧
        ∀ range ∈ ranges, ∀ other ∈ taken, range.Disjoint other := by
  induction fields generalizing taken ranges with
  | nil =>
    constructor
    · rintro ⟨⟩
      exact ⟨rfl, ⟨by simp, .nil⟩, by simp⟩
    · rintro ⟨rfl, -⟩
      exact .nil
  | cons field rest ih =>
    obtain ⟨hfield, hrest⟩ := List.forall_mem_cons.1 hb
    obtain ⟨first, hfirst⟩ := Option.isSome_iff_exists.1 hfield
    have hasked : askedRanges (field :: rest) = field.stretch first :: askedRanges rest := by
      simp [askedRanges, hfirst]
    rw [hasked]
    constructor
    · rintro (_ | ⟨⟨hstart, hle, hfree⟩, hplaces⟩)
      obtain rfl := Option.some.inj (hstart.symm.trans hfirst)
      obtain ⟨rfl, hfits, havoid⟩ := (ih hrest).1 hplaces
      refine ⟨rfl, fitting_cons.2 ⟨hle, fun other hm => ?_, hfits⟩,
        List.forall_mem_cons.2 ⟨hfree, fun other hm taker ht => ?_⟩⟩
      · exact (havoid other hm _ List.mem_cons_self).symm
      · exact havoid other hm taker (List.mem_cons_of_mem _ ht)
    · rintro ⟨rfl, hfits, havoid⟩
      obtain ⟨hle, hapart, hfits⟩ := fitting_cons.1 hfits
      obtain ⟨hfree, havoid⟩ := List.forall_mem_cons.1 havoid
      refine .cons ⟨hfirst, hle, hfree⟩ ((ih hrest).2 ⟨rfl, hfits, fun other hm => ?_⟩)
      exact List.forall_mem_cons.2 ⟨(hapart other hm).symm, havoid other hm⟩

/-- What the units of some uniforms are. -/
structure Assigned (fields : List FieldLayout) (max : Nat) (firsts : Table String Nat) : Prop where
  sorted : firsts.Sorted
  keys : ∀ name, name ∈ firsts.keys ↔ ∃ field ∈ fields, 0 < field.handleCount ∧ field.name = name
  bound : ∀ field ∈ boundHolders fields, firsts.lookup field.name = field.qualifiers.binding
  free : ∃ ranges,
    Places (Least max) (askedRanges (boundHolders fields)).reverse (freeHolders fields) ranges ∧
    List.Forall₂ (fun field range => firsts.lookup field.name = some range.first)
      (freeHolders fields) ranges
  apart : ∀ field ∈ unitHolders fields, ∀ other ∈ unitHolders fields, field.name ≠ other.name →
    ∀ first ∈ firsts.lookup field.name, ∀ start ∈ firsts.lookup other.name,
      (field.stretch first).Disjoint (other.stretch start)

/-- The first uniform that gets no units, those with a binding before all others, and why. -/
inductive FailsFirst (fields : List FieldLayout) (max : Nat) : BindingError → Prop
  | bound {before behind : List FieldLayout} {field : FieldLayout} {cause : BindingError}
      (split : boundHolders fields = before ++ field :: behind)
      (fits : Fitting max (askedRanges before))
      (refused : AskRefused max (askedRanges before).reverse field cause) :
      FailsFirst fields max cause
  | free {before behind : List FieldLayout} {field : FieldLayout} {ranges : List UnitRange}
      {cause : BindingError} (fits : Fitting max (askedRanges (boundHolders fields)))
      (split : freeHolders fields = before ++ field :: behind)
      (places : Places (Least max) (askedRanges (boundHolders fields)).reverse before ranges)
      (crowded : Crowded max (ranges.reverse ++ (askedRanges (boundHolders fields)).reverse) field
        cause) :
      FailsFirst fields max cause

theorem mem_unitHolders : field ∈ unitHolders fields ↔ field ∈ fields ∧ 0 < field.handleCount := by
  rw [unitHolders, List.mem_filter, decide_eq_true_iff]

theorem mem_boundHolders : field ∈ boundHolders fields ↔
    field ∈ unitHolders fields ∧ field.qualifiers.binding.isSome = true :=
  List.mem_filter

theorem mem_freeHolders : field ∈ freeHolders fields ↔
    field ∈ unitHolders fields ∧ field.qualifiers.binding.isNone = true :=
  List.mem_filter

theorem mem_unitHolders_cases :
    field ∈ unitHolders fields ↔ field ∈ boundHolders fields ∨ field ∈ freeHolders fields := by
  rw [mem_boundHolders, mem_freeHolders, ← and_or_left]
  cases field.qualifiers.binding <;> simp

/-- The plan in which the uniforms with a binding have the ranges they ask for. -/
def boundPlan (fields : List FieldLayout) : UnitPlan :=
  UnitPlan.takeAll {} (boundHolders fields) (askedRanges (boundHolders fields))

theorem binding_of_boundHolders : ∀ field ∈ boundHolders fields,
    field.qualifiers.binding.isSome = true := fun _ hm => (mem_boundHolders.1 hm).2

theorem boundPass_eq_ok_iff (hmax : Fits max) {bound : UnitPlan} :
    (boundHolders fields).foldlM (UnitPlan.serveBound max) {} = .ok bound ↔
      Fitting max (askedRanges (boundHolders fields)) ∧ bound = boundPlan fields := by
  rw [UnitPlan.foldlM_eq_ok_iff fun field hm plan next =>
    UnitPlan.serveBound_eq_ok_iff hmax (binding_of_boundHolders field hm)]
  simp only [places_asked_iff binding_of_boundHolders]
  constructor
  · rintro ⟨ranges, ⟨rfl, hfits, -⟩, rfl⟩
    exact ⟨hfits, rfl⟩
  · rintro ⟨hfits, rfl⟩
    exact ⟨_, ⟨rfl, hfits, by simp⟩, rfl⟩

theorem places_boundHolders (hfits : Fitting max (askedRanges (boundHolders fields))) :
    Places (Asked max) [] (boundHolders fields) (askedRanges (boundHolders fields)) :=
  (places_asked_iff binding_of_boundHolders).2 ⟨rfl, hfits, by simp⟩

theorem taken_boundPlan (hfits : Fitting max (askedRanges (boundHolders fields))) :
    (boundPlan fields).taken = (askedRanges (boundHolders fields)).reverse :=
  (UnitPlan.taken_takeAll (places_boundHolders hfits) {}).trans (List.append_nil _)

theorem boundPass_eq_error_iff (hmax : Fits max) :
    (boundHolders fields).foldlM (UnitPlan.serveBound max) {} = .error cause ↔
      ∃ before field behind, boundHolders fields = before ++ field :: behind ∧
        Fitting max (askedRanges before) ∧
        AskRefused max (askedRanges before).reverse field cause := by
  rw [UnitPlan.foldlM_eq_error_iff
    (fun field hm plan next =>
      UnitPlan.serveBound_eq_ok_iff hmax (binding_of_boundHolders field hm))
    (fun field hm plan cause =>
      UnitPlan.serveBound_eq_error_iff (binding_of_boundHolders field hm))]
  have hbefore : ∀ {before behind field}, boundHolders fields = before ++ field :: behind →
      ∀ field ∈ before, field.qualifiers.binding.isSome = true := fun hsplit field hm =>
    binding_of_boundHolders field (hsplit ▸ List.mem_append_left _ hm)
  constructor
  · rintro ⟨before, field, behind, ranges, hsplit, hplaces, hr⟩
    obtain ⟨rfl, hfits, -⟩ := (places_asked_iff (hbefore hsplit)).1 hplaces
    rw [List.append_nil] at hr
    exact ⟨before, field, behind, hsplit, hfits, hr⟩
  · rintro ⟨before, field, behind, hsplit, hfits, hr⟩
    refine ⟨before, field, behind, _, hsplit,
      (places_asked_iff (hbefore hsplit)).2 ⟨rfl, hfits, by simp⟩, ?_⟩
    rw [List.append_nil]
    exact hr

theorem freePass_eq_ok_iff {plan all : UnitPlan} :
    (freeHolders fields).foldlM (UnitPlan.serveFree max) plan = .ok all ↔
      ∃ ranges, Places (Least max) plan.taken (freeHolders fields) ranges ∧
        all = plan.takeAll (freeHolders fields) ranges := by
  refine UnitPlan.foldlM_eq_ok_iff fun field hm plan next => ?_
  obtain ⟨hneed, hb⟩ := mem_freeHolders.1 hm
  exact UnitPlan.serveFree_eq_ok_iff (mem_unitHolders.1 hneed).2 hb

theorem freePass_eq_error_iff {plan : UnitPlan} :
    (freeHolders fields).foldlM (UnitPlan.serveFree max) plan = .error cause ↔
      ∃ before field behind ranges, freeHolders fields = before ++ field :: behind ∧
        Places (Least max) plan.taken before ranges ∧
        Crowded max (ranges.reverse ++ plan.taken) field cause := by
  refine UnitPlan.foldlM_eq_error_iff (fun field hm plan next => ?_) fun field hm plan cause => ?_
  all_goals obtain ⟨hneed, hb⟩ := mem_freeHolders.1 hm
  · exact UnitPlan.serveFree_eq_ok_iff (mem_unitHolders.1 hneed).2 hb
  · exact UnitPlan.serveFree_eq_error_iff (mem_unitHolders.1 hneed).2 hb

/-- Each pass might as well look only at the uniforms that it serves. -/
theorem assignTextureUnits_eq (fields : List FieldLayout) (max : Nat) :
    assignTextureUnits fields max = (do
      let bound ← (boundHolders fields).foldlM (UnitPlan.serveBound max) {}
      let all ← (freeHolders fields).foldlM (UnitPlan.serveFree max) bound
      return all.firsts) := by
  have hbound : ∀ plan, (boundHolders fields).foldlM (UnitPlan.serveBound max) plan =
      (unitHolders fields).foldlM (UnitPlan.serveBound max) plan := by
    refine fun plan => UnitPlan.foldlM_filter_of_skips fun plan field ht => ?_
    rw [UnitPlan.serveBound, Option.isNone_iff_eq_none.1 (Option.isSome_eq_false_iff.1 ht)]
  have hfree : ∀ plan, (freeHolders fields).foldlM (UnitPlan.serveFree max) plan =
      (unitHolders fields).foldlM (UnitPlan.serveFree max) plan := by
    refine fun plan => UnitPlan.foldlM_filter_of_skips fun plan field ht => ?_
    obtain ⟨first, hb⟩ := Option.isSome_iff_exists.1 (Option.isNone_eq_false_iff.1 ht)
    rw [UnitPlan.serveFree, hb]
  simp only [hbound, hfree]
  rfl

theorem assignTextureUnits_eq_ok_iff (hmax : Fits max) {firsts : Table String Nat} :
    assignTextureUnits fields max = .ok firsts ↔
      Fitting max (askedRanges (boundHolders fields)) ∧ ∃ ranges,
        Places (Least max) (askedRanges (boundHolders fields)).reverse (freeHolders fields) ranges ∧
        firsts = ((boundPlan fields).takeAll (freeHolders fields) ranges).firsts := by
  simp only [assignTextureUnits_eq, bind_eq_ok_iff, boundPass_eq_ok_iff hmax, freePass_eq_ok_iff]
  constructor
  · rintro ⟨_, ⟨hfits, rfl⟩, _, ⟨ranges, hplaces, rfl⟩, h⟩
    rw [taken_boundPlan hfits] at hplaces
    exact ⟨hfits, ranges, hplaces, (Except.ok.inj h).symm⟩
  · rintro ⟨hfits, ranges, hplaces, rfl⟩
    rw [← taken_boundPlan hfits] at hplaces
    exact ⟨_, ⟨hfits, rfl⟩, _, ⟨ranges, hplaces, rfl⟩, rfl⟩

theorem assignTextureUnits_eq_error_iff (hmax : Fits max) :
    assignTextureUnits fields max = .error cause ↔ FailsFirst fields max cause := by
  rw [assignTextureUnits_eq, bind_eq_error_iff]
  simp only [bind_eq_error_iff, boundPass_eq_ok_iff hmax]
  constructor
  · rintro (h | ⟨_, ⟨hfits, rfl⟩, h | ⟨_, -, h⟩⟩)
    · obtain ⟨before, field, behind, hsplit, hprefix, hr⟩ := (boundPass_eq_error_iff hmax).1 h
      exact .bound hsplit hprefix hr
    · obtain ⟨before, field, behind, ranges, hsplit, hplaces, hcrowded⟩ :=
        freePass_eq_error_iff.1 h
      rw [taken_boundPlan hfits] at hplaces hcrowded
      exact .free hfits hsplit hplaces hcrowded
    · cases h
  · rintro (⟨hsplit, hprefix, hr⟩ | ⟨hfits, hsplit, hplaces, hcrowded⟩)
    · exact .inl ((boundPass_eq_error_iff hmax).2 ⟨_, _, _, hsplit, hprefix, hr⟩)
    · rw [← taken_boundPlan hfits] at hplaces hcrowded
      exact .inr ⟨_, ⟨hfits, rfl⟩,
        .inl (freePass_eq_error_iff.2 ⟨_, _, _, _, hsplit, hplaces, hcrowded⟩)⟩

theorem nodup_unitHolders (hn : (fields.map FieldLayout.name).Nodup) :
    ((unitHolders fields).map FieldLayout.name).Nodup :=
  hn.sublist (List.filter_sublist.map _)

/-- No name is that of a uniform with a binding and of one without. -/
theorem notMem_freeHolders_name (hn : (fields.map FieldLayout.name).Nodup)
    (hm : field ∈ boundHolders fields) :
    field.name ∉ (freeHolders fields).map FieldLayout.name := by
  intro h
  obtain ⟨other, ho, he⟩ := List.mem_map.1 h
  obtain ⟨hother, hnone⟩ := mem_freeHolders.1 ho
  obtain ⟨hfield, hsome⟩ := mem_boundHolders.1 hm
  obtain rfl := List.inj_on_of_nodup_map (nodup_unitHolders hn) hother hfield he
  rw [Option.isNone_iff_eq_none.1 hnone] at hsome
  cases hsome

theorem assigned_of_places (hn : (fields.map FieldLayout.name).Nodup)
    (hfits : Fitting max (askedRanges (boundHolders fields)))
    (hplaces : Places (Least max) (askedRanges (boundHolders fields)).reverse
      (freeHolders fields) ranges)
    (h : assignTextureUnits fields max =
      .ok ((boundPlan fields).takeAll (freeHolders fields) ranges).firsts) :
    Assigned fields max ((boundPlan fields).takeAll (freeHolders fields) ranges).firsts := by
  have hbounds : ((boundHolders fields).map FieldLayout.name).Nodup :=
    (nodup_unitHolders hn).sublist (List.filter_sublist.map _)
  have hfrees : ((freeHolders fields).map FieldLayout.name).Nodup :=
    (nodup_unitHolders hn).sublist (List.filter_sublist.map _)
  have hfirst := UnitPlan.lookup_takeAll (places_boundHolders hfits) hbounds {}
  have hsecond := UnitPlan.lookup_takeAll hplaces hfrees (boundPlan fields)
  have hbound : ∀ field ∈ boundHolders fields,
      ((boundPlan fields).takeAll (freeHolders fields) ranges).firsts.lookup field.name =
        field.qualifiers.binding := by
    intro field hm
    obtain ⟨range, -, hlookup, -, hasked, -⟩ := exists_of_mem_left hfirst hm
    rw [UnitPlan.lookup_takeAll_of_notMem (notMem_freeHolders_name hn hm), hasked]
    exact hlookup
  refine ⟨UnitPlan.sorted_takeAll (UnitPlan.sorted_takeAll Table.sorted_nil), fun name => ?_,
    hbound, ⟨ranges, hplaces, hsecond.imp fun _ _ hs => hs.1⟩, ?_⟩
  · rw [← Table.lookup_isSome_iff]
    constructor
    · intro hsome
      by_contra hno
      -- a name that no pass has met has no units
      have hnot : ∀ holders ⊆ unitHolders fields, name ∉ holders.map FieldLayout.name := by
        intro holders hsub hm
        obtain ⟨field, hf, rfl⟩ := List.mem_map.1 hm
        obtain ⟨hfield, hc⟩ := mem_unitHolders.1 (hsub hf)
        exact hno ⟨field, hfield, hc, rfl⟩
      rw [UnitPlan.lookup_takeAll_of_notMem (hnot (freeHolders fields) (List.filter_subset_self _)),
        boundPlan, UnitPlan.lookup_takeAll_of_notMem
          (hnot (boundHolders fields) (List.filter_subset_self _))] at hsome
      cases hsome
    · rintro ⟨field, hm, hc, rfl⟩
      rcases mem_unitHolders_cases.1 (mem_unitHolders.2 ⟨hm, hc⟩) with hb | hf
      · rw [hbound field hb]
        exact (mem_boundHolders.1 hb).2
      · obtain ⟨range, -, hlookup, -⟩ := exists_of_mem_left hsecond hf
        rw [hlookup]
        rfl
  · intro field hm other ho hne first hl start hs
    obtain ⟨hfield, hc⟩ := mem_unitHolders.1 hm
    obtain ⟨hother, hc'⟩ := mem_unitHolders.1 ho
    refine disjoint_of_le ?_
    exact (apart_of_assignTextureUnits hn h).apart field hfield other hother hne hc hc' first hl
      start hs

/-- **Assignment.** Units are assigned exactly if all that was asked for fits and each other uniform
finds an open start behind those in front of it. They are then those of `Assigned`, and otherwise
the error is that of the first uniform that gets none. -/
theorem assignTextureUnits_spec (hmax : Fits max) (hn : (fields.map FieldLayout.name).Nodup) :
    ((∃ firsts, assignTextureUnits fields max = .ok firsts) ↔
      Fitting max (askedRanges (boundHolders fields)) ∧
      ∃ ranges, Places (Least max) (askedRanges (boundHolders fields)).reverse
        (freeHolders fields) ranges) ∧
    (∀ firsts, assignTextureUnits fields max = .ok firsts → Assigned fields max firsts) ∧
    ∀ cause, assignTextureUnits fields max = .error cause ↔ FailsFirst fields max cause := by
  refine ⟨?_, ?_, fun cause => assignTextureUnits_eq_error_iff hmax⟩
  · constructor
    · rintro ⟨firsts, h⟩
      obtain ⟨hfits, ranges, hplaces, -⟩ := (assignTextureUnits_eq_ok_iff hmax).1 h
      exact ⟨hfits, ranges, hplaces⟩
    · rintro ⟨hfits, ranges, hplaces⟩
      exact ⟨_, (assignTextureUnits_eq_ok_iff hmax).2 ⟨hfits, ranges, hplaces, rfl⟩⟩
  · intro firsts h
    obtain ⟨hfits, ranges, hplaces, rfl⟩ := (assignTextureUnits_eq_ok_iff hmax).1 h
    exact assigned_of_places hn hfits hplaces h

/-- A uniform that holds a texture, or an array of them. -/
def textureUniform (name : String) (binding : Option Nat) (array : Option ArrayLayout) :
    FieldLayout where
  name := name
  typeName := "sampler2D"
  shape := .base (.handle (.sampler .texture2D))
  offset := 0
  size := 0
  alignment := 1
  array := array
  qualifiers := { binding := binding }

/-- Two uniforms with a binding between two without, the last of them an array. -/
def surfaceUniforms : List FieldLayout :=
  [textureUniform "albedo" none none, textureUniform "shadow" (some 0) none,
    textureUniform "cascades" none (some ⟨3, 0⟩), textureUniform "env" (some 2) none]

theorem assignTextureUnits_spec_surface :
    Fits 16 ∧ (surfaceUniforms.map FieldLayout.name).Nodup ∧
      assignTextureUnits surfaceUniforms 16 =
        .ok [("albedo", 1), ("cascades", 3), ("env", 2), ("shadow", 0)] ∧
      Assigned surfaceUniforms 16 [("albedo", 1), ("cascades", 3), ("env", 2), ("shadow", 0)] ∧
      ¬ FailsFirst surfaceUniforms 16 .exhausted := by
  have hfits : Fits 16 := by decide
  have hn : (surfaceUniforms.map FieldLayout.name).Nodup := by decide
  have hrun : assignTextureUnits surfaceUniforms 16 =
      .ok [("albedo", 1), ("cascades", 3), ("env", 2), ("shadow", 0)] := by decide +kernel
  obtain ⟨-, hassigned, herror⟩ := assignTextureUnits_spec hfits hn
  refine ⟨hfits, hn, hrun, hassigned _ hrun, fun h => ?_⟩
  have hfail := (herror .exhausted).2 h
  rw [hrun] at hfail
  cases hfail

end UniformLayout
