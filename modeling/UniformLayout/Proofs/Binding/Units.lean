import UniformLayout.Binding.TextureUnit
import Mathlib.Data.List.Nodup

/-!
# Stretches of texture units

Each free uniform that holds handles gets a stretch of consecutive units, as long as it needs. The
stretches lie below the maximum, and those of different uniforms have no unit in common, whether a
binding or the search for free units has chosen their start.

* `UnitPlan.Apart.take`: one more stretch.
* `UnitPlan.Apart.serve`: all uniforms that a pass serves.

Main statement: `apart_of_assignTextureUnits`.
-/

namespace UniformLayout

namespace UnitPlan

variable {plan next : UnitPlan} {max : Nat} {served : List FieldLayout} {name : String}
  {first count : Nat}

theorem takeAt_eq_ok (h : plan.takeAt max name first count = .ok next) :
    first + count ≤ max ∧ (∀ u, first ≤ u → u < first + count → plan.isTaken u = false) ∧
      next = plan.take name ⟨first, count⟩ := by
  unfold takeAt at h
  split at h
  · cases h
  · split at h
    · cases h
    · rename_i hmax
      split at h
      · cases h
      · rename_i hfree
        exact ⟨Nat.not_lt.1 hmax, firstTaken?_eq_none_iff.1 hfree, (Except.ok.inj h).symm⟩

theorem takeAnywhere_eq_ok (h : plan.takeAnywhere max name count = .ok next) :
    ∃ first, first + count ≤ max ∧
      (∀ u, first ≤ u → u < first + count → plan.isTaken u = false) ∧
      next = plan.take name ⟨first, count⟩ := by
  unfold takeAnywhere at h
  split at h
  · rename_i first hf
    obtain ⟨hmax, hfree⟩ := firstStretch?_eq_some hf
    exact ⟨first, hmax, hfree, (Except.ok.inj h).symm⟩
  · cases h

/-- The uniforms that were served have stretches below `max`, and no unit has two owners. -/
structure Apart (max : Nat) (served : List FieldLayout) (plan : UnitPlan) : Prop where
  given : ∀ field ∈ served, ∃ first, plan.firsts.lookup field.name = some first ∧
    ⟨first, field.handleCount⟩ ∈ plan.taken ∧ first + field.handleCount ≤ max
  apart : ∀ field ∈ served, ∀ other ∈ served, field.name ≠ other.name →
    ∀ first ∈ plan.firsts.lookup field.name, ∀ start ∈ plan.firsts.lookup other.name,
      first + field.handleCount ≤ start ∨ start + other.handleCount ≤ first
  unserved : ∀ name, (∀ field ∈ served, field.name ≠ name) → plan.firsts.lookup name = none

theorem apart_empty (max : Nat) : Apart max [] {} := ⟨by simp, by simp, by simp⟩

/-- Free units are none of a stretch that was given out. -/
theorem apart_of_free {first' count' : Nat} (hm : ⟨first', count'⟩ ∈ plan.taken)
    (hfree : ∀ u, first ≤ u → u < first + count → plan.isTaken u = false) (hc : 0 < count)
    (hc' : 0 < count') : first + count ≤ first' ∨ first' + count' ≤ first := by
  have hnone : ∀ u, first ≤ u → u < first + count → ¬ (first' ≤ u ∧ u < first' + count') := by
    intro u hl hu hboth
    have htaken : plan.isTaken u = true :=
      List.any_eq_true.2 ⟨_, hm, by simpa [UnitRange.covers] using hboth⟩
    rw [hfree u hl hu] at htaken
    cases htaken
  have hlow := hnone first (Nat.le_refl _) (by omega)
  rcases Nat.lt_or_ge first' first with hlt | hge
  · omega
  · by_cases hin : first' < first + count
    · exact absurd ⟨Nat.le_refl _, by omega⟩ (hnone first' hge hin)
    · omega

theorem Apart.take (h : plan.Apart max served) (hpos : ∀ field ∈ served, 0 < field.handleCount)
    {field : FieldLayout} (hc : 0 < field.handleCount)
    (hnew : ∀ other ∈ served, other.name ≠ field.name) (hmax : first + field.handleCount ≤ max)
    (hfree : ∀ u, first ≤ u → u < first + field.handleCount → plan.isTaken u = false) :
    (plan.take field.name ⟨first, field.handleCount⟩).Apart max (field :: served) := by
  have hself : (plan.take field.name ⟨first, field.handleCount⟩).firsts.lookup field.name =
      some first := Table.lookup_insert_self _ _ _
  have hrest : ∀ name, name ≠ field.name →
      (plan.take field.name ⟨first, field.handleCount⟩).firsts.lookup name =
        plan.firsts.lookup name := fun name hne => Table.lookup_insert_of_ne hne _ _
  -- the new stretch against one that was there
  have hfresh : ∀ other ∈ served, ∀ start ∈ plan.firsts.lookup other.name,
      first + field.handleCount ≤ start ∨ start + other.handleCount ≤ first := by
    intro other hm start hs
    obtain ⟨found, hf, htaken, -⟩ := h.given other hm
    obtain rfl := Option.some.inj (hf.symm.trans hs)
    exact apart_of_free htaken hfree hc (hpos other hm)
  refine ⟨?_, ?_, ?_⟩
  · refine List.forall_mem_cons.2 ⟨⟨first, hself, List.mem_cons_self, hmax⟩, fun other hm => ?_⟩
    obtain ⟨found, hf, htaken, hle⟩ := h.given other hm
    exact ⟨found, (hrest _ (hnew other hm)).trans hf, List.mem_cons_of_mem _ htaken, hle⟩
  · intro one hone other hother hne start hs start' hs'
    rcases List.mem_cons.1 hone with rfl | ho
    · rcases List.mem_cons.1 hother with rfl | hm
      · exact absurd rfl hne
      · obtain rfl := Option.some.inj (hself.symm.trans hs)
        rw [hrest _ (hnew other hm)] at hs'
        exact hfresh other hm start' hs'
    · rw [hrest _ (hnew one ho)] at hs
      rcases List.mem_cons.1 hother with rfl | hm
      · obtain rfl := Option.some.inj (hself.symm.trans hs')
        exact (hfresh one ho start hs).symm
      · rw [hrest _ (hnew other hm)] at hs'
        exact h.apart one ho other hm hne start hs start' hs'
  · intro name hn
    obtain ⟨hne, hothers⟩ := List.forall_mem_cons.1 hn
    rw [hrest name (Ne.symm hne)]
    exact h.unserved name hothers

/-- A pass that gives each of some uniforms a stretch and skips all others keeps the stretches
apart. The induction is on the uniforms that the pass still has to look at. -/
theorem Apart.serve {pass : UnitPlan → FieldLayout → Except BindingError UnitPlan}
    {turn : FieldLayout → Bool}
    (hskip : ∀ plan next field, turn field = false → pass plan field = .ok next → next = plan)
    (htake : ∀ plan next field, turn field = true → pass plan field = .ok next →
      ∃ first, first + field.handleCount ≤ max ∧
        (∀ u, first ≤ u → u < first + field.handleCount → plan.isTaken u = false) ∧
        next = plan.take field.name ⟨first, field.handleCount⟩)
    {fields : List FieldLayout} (h : plan.Apart max served)
    (hpos : ∀ field ∈ served, 0 < field.handleCount)
    (hcounts : ∀ field ∈ fields, 0 < field.handleCount)
    (hnodup : (fields.map FieldLayout.name).Nodup)
    (hnew : ∀ field ∈ fields, turn field = true → ∀ other ∈ served, other.name ≠ field.name)
    (hpass : fields.foldlM pass plan = .ok next) :
    next.Apart max ((fields.filter turn).reverse ++ served) := by
  induction fields generalizing plan served with
  | nil =>
    obtain rfl := Except.ok.inj hpass
    exact h
  | cons field rest ih =>
    rw [List.foldlM_cons] at hpass
    obtain ⟨mid, hfirst, hrest⟩ := bind_eq_ok_iff.1 hpass
    obtain ⟨hcount, hcounts⟩ := List.forall_mem_cons.1 hcounts
    obtain ⟨hself, hnew⟩ := List.forall_mem_cons.1 hnew
    rw [List.map_cons, List.nodup_cons] at hnodup
    cases ht : turn field with
    | false =>
      obtain rfl := hskip plan mid field ht hfirst
      rw [List.filter_cons_of_neg (by simp [ht])]
      exact ih h hpos hcounts hnodup.2 hnew hrest
    | true =>
      obtain ⟨first, hmax, hfree, rfl⟩ := htake plan mid field ht hfirst
      have hmid := h.take hpos hcount (hself ht) hmax hfree
      rw [List.filter_cons_of_pos ht, List.reverse_cons, List.append_assoc, List.singleton_append]
      refine ih hmid (List.forall_mem_cons.2 ⟨hcount, hpos⟩) hcounts hnodup.2 ?_ hrest
      intro later hm hl
      refine List.forall_mem_cons.2 ⟨fun he => hnodup.1 ?_, hnew later hm hl⟩
      rw [he]
      exact List.mem_map_of_mem hm

theorem serveBound_skips (plan next : UnitPlan) (field : FieldLayout)
    (ht : field.qualifiers.binding.isSome = false) (h : serveBound max plan field = .ok next) :
    next = plan := by
  unfold serveBound at h
  rw [Option.isSome_eq_false_iff, Option.isNone_iff_eq_none] at ht
  rw [ht] at h
  exact (Except.ok.inj h).symm

theorem serveBound_takes (plan next : UnitPlan) (field : FieldLayout)
    (ht : field.qualifiers.binding.isSome = true) (h : serveBound max plan field = .ok next) :
    ∃ first, first + field.handleCount ≤ max ∧
      (∀ u, first ≤ u → u < first + field.handleCount → plan.isTaken u = false) ∧
      next = plan.take field.name ⟨first, field.handleCount⟩ := by
  obtain ⟨first, hb⟩ := Option.isSome_iff_exists.1 ht
  unfold serveBound at h
  rw [hb] at h
  exact ⟨first, takeAt_eq_ok h⟩

theorem serveFree_skips (plan next : UnitPlan) (field : FieldLayout)
    (ht : field.qualifiers.binding.isNone = false) (h : serveFree max plan field = .ok next) :
    next = plan := by
  obtain ⟨binding, hb⟩ := Option.isSome_iff_exists.1 (Option.isNone_eq_false_iff.1 ht)
  unfold serveFree at h
  rw [hb] at h
  exact (Except.ok.inj h).symm

theorem serveFree_takes (plan next : UnitPlan) (field : FieldLayout)
    (ht : field.qualifiers.binding.isNone = true) (h : serveFree max plan field = .ok next) :
    ∃ first, first + field.handleCount ≤ max ∧
      (∀ u, first ≤ u → u < first + field.handleCount → plan.isTaken u = false) ∧
      next = plan.take field.name ⟨first, field.handleCount⟩ := by
  unfold serveFree at h
  rw [Option.isNone_iff_eq_none.1 ht] at h
  exact takeAnywhere_eq_ok h

end UnitPlan

/-- The units that uniforms get are theirs alone: a stretch below `max` for each uniform that needs
units, apart from the stretches of all others, and none for the rest. -/
structure UnitsApart (fields : List FieldLayout) (max : Nat) (firsts : Table String Nat) : Prop where
  given : ∀ field ∈ fields, 0 < field.handleCount →
    ∃ first, firsts.lookup field.name = some first ∧ first + field.handleCount ≤ max
  apart : ∀ field ∈ fields, ∀ other ∈ fields, field.name ≠ other.name → 0 < field.handleCount →
    0 < other.handleCount → ∀ first ∈ firsts.lookup field.name,
      ∀ start ∈ firsts.lookup other.name,
        first + field.handleCount ≤ start ∨ start + other.handleCount ≤ first
  none_of_zero : ∀ field ∈ fields, field.handleCount = 0 → firsts.lookup field.name = none

/-- **Assignment.** Uniforms with different names get units of their own. -/
theorem apart_of_assignTextureUnits {fields : List FieldLayout} {max : Nat}
    {firsts : Table String Nat} (hn : (fields.map FieldLayout.name).Nodup)
    (h : assignTextureUnits fields max = .ok firsts) : UnitsApart fields max firsts := by
  unfold assignTextureUnits at h
  obtain ⟨bound, hbound, h⟩ := bind_eq_ok_iff.1 h
  obtain ⟨all, hall, h⟩ := bind_eq_ok_iff.1 h
  obtain rfl := Except.ok.inj h
  generalize hneeding : fields.filter (0 < ·.handleCount) = needing at hbound hall
  have hmem : ∀ field, field ∈ needing ↔ field ∈ fields ∧ 0 < field.handleCount := by
    intro field
    rw [← hneeding, List.mem_filter, decide_eq_true_iff]
  have hpos : ∀ field ∈ needing, 0 < field.handleCount := fun field hm => ((hmem field).1 hm).2
  have hnodup : (needing.map FieldLayout.name).Nodup := by
    rw [← hneeding]
    exact hn.sublist (List.filter_sublist.map _)
  have hfirst := (UnitPlan.apart_empty max).serve UnitPlan.serveBound_skips UnitPlan.serveBound_takes
    (by simp) hpos hnodup (by simp) hbound
  rw [List.append_nil] at hfirst
  have hserved : ∀ field ∈ (needing.filter (·.qualifiers.binding.isSome)).reverse,
      field ∈ needing ∧ field.qualifiers.binding.isSome := fun field hm =>
    List.mem_filter.1 (List.mem_reverse.1 hm)
  -- a uniform with a binding and one without are two uniforms, so they have two names
  have hnew : ∀ field ∈ needing, field.qualifiers.binding.isNone = true →
      ∀ other ∈ (needing.filter (·.qualifiers.binding.isSome)).reverse, other.name ≠ field.name := by
    intro field hm hfree other ho he
    obtain ⟨hother, hsome⟩ := hserved other ho
    obtain rfl := List.inj_on_of_nodup_map hnodup hother hm he
    rw [Option.isNone_iff_eq_none.1 hfree] at hsome
    cases hsome
  have hboth := hfirst.serve UnitPlan.serveFree_skips UnitPlan.serveFree_takes
    (fun field hm => hpos field (hserved field hm).1) hpos hnodup hnew hall
  have hall' : ∀ field ∈ fields, 0 < field.handleCount →
      field ∈ (needing.filter (·.qualifiers.binding.isNone)).reverse ++
        (needing.filter (·.qualifiers.binding.isSome)).reverse := by
    intro field hm hc
    have hneed := (hmem field).2 ⟨hm, hc⟩
    rw [List.mem_append, List.mem_reverse, List.mem_reverse, List.mem_filter, List.mem_filter]
    cases field.qualifiers.binding with
    | none => exact .inl ⟨hneed, rfl⟩
    | some binding => exact .inr ⟨hneed, rfl⟩
  refine ⟨fun field hm hc => ?_, fun field hm other ho hne hc hc' => ?_, fun field hm hz => ?_⟩
  · obtain ⟨first, hl, -, hmax⟩ := hboth.given field (hall' field hm hc)
    exact ⟨first, hl, hmax⟩
  · exact hboth.apart field (hall' field hm hc) other (hall' other ho hc') hne
  · refine hboth.unserved field.name fun other ho he => ?_
    have hother : other ∈ needing := by
      rw [List.mem_append, List.mem_reverse, List.mem_reverse] at ho
      rcases ho with ho | ho
      · exact List.mem_of_mem_filter ho
      · exact List.mem_of_mem_filter ho
    obtain ⟨hin, hc⟩ := (hmem other).1 hother
    obtain rfl := List.inj_on_of_nodup_map hn hin hm he
    omega

end UniformLayout
