import UniformLayout.Compilation.Unit
import Mathlib.Data.List.Basic

/-!
# The name of the set of free uniforms

The set of a unit is named after the key of the unit, and no base type is named like this: no name of a
base type ends in an `s`.

Main statement: `ofName?_uniformSetName`.
-/

namespace UniformLayout

/-- The name ends in a letter other than `s`. -/
def EndsPlainly (name : List Char) : Prop :=
  ∃ c, name.getLast? = some c ∧ c ≠ 's'

theorem EndsPlainly.append {name : List Char} (h : EndsPlainly name) (before : List Char) :
    EndsPlainly (before ++ name) := by
  obtain ⟨c, hc, hne⟩ := h
  refine ⟨c, ?_, hne⟩
  rw [List.getLast?_append, hc]
  rfl

theorem EndsPlainly.cons {name : List Char} (h : EndsPlainly name) (first : Char) :
    EndsPlainly (first :: name) :=
  h.append [first]

theorem endsPlainly_of_dimension {name : List Char} {n : Nat}
    (h : BaseType.dimension? name = some n) : EndsPlainly name := by
  unfold BaseType.dimension? at h
  split at h
  · exact ⟨'2', rfl, by decide⟩
  · exact ⟨'3', rfl, by decide⟩
  · exact ⟨'4', rfl, by decide⟩
  · cases h

theorem endsPlainly_of_vector {name : List Char} {type : BaseType}
    (h : BaseType.vectorOfName? name = some type) : EndsPlainly name := by
  unfold BaseType.vectorOfName? at h
  split at h
  rename_i kind rest hpair
  have hrest : EndsPlainly rest := by
    split at h
    · rename_i lanes _
      obtain ⟨n, hn, -⟩ := Option.map_eq_some_iff.1 h
      exact (endsPlainly_of_dimension hn).append ['v', 'e', 'c']
    · cases h
  split at hpair
  all_goals
    obtain ⟨-, rfl⟩ := Prod.mk.inj hpair
    first
    | exact hrest
    | exact hrest.cons _

theorem endsPlainly_of_matrix {name : List Char} {type : BaseType}
    (h : BaseType.matrixOfName? name = some type) : EndsPlainly name := by
  unfold BaseType.matrixOfName? at h
  split at h
  rename_i kind rest hpair
  have hrest : EndsPlainly rest := by
    split at h
    · rename_i columns rows
      obtain ⟨c, -, h⟩ := Option.bind_eq_some_iff.1 h
      obtain ⟨r, hr, -⟩ := Option.bind_eq_some_iff.1 h
      exact (endsPlainly_of_dimension hr).append ['m', 'a', 't', columns, 'x']
    · rename_i side _ _
      obtain ⟨n, hn, -⟩ := Option.map_eq_some_iff.1 h
      exact (endsPlainly_of_dimension hn).append ['m', 'a', 't']
    · cases h
  split at hpair
  all_goals
    obtain ⟨-, rfl⟩ := Prod.mk.inj hpair
    first
    | exact hrest
    | exact hrest.cons _

theorem endsPlainly_of_target {text : List Char} {target : TextureTarget}
    (h : TextureTarget.ofSuffix? text = some target) : EndsPlainly text := by
  have he : target.suffix.toList = text := by simpa using List.find?_some h
  rw [← he]
  cases target <;> exact ⟨_, rfl, by decide⟩

theorem endsPlainly_of_plainHandle {name : List Char} {kind : HandleKind}
    (h : HandleKind.ofPlainName? name = some kind) : EndsPlainly name := by
  unfold HandleKind.ofPlainName? at h
  split at h
  · rename_i suffix hs
    rw [Text.cutStart?_eq_some_iff] at hs
    obtain ⟨target, ht, -⟩ := Option.map_eq_some_iff.1 h
    rw [hs]
    apply EndsPlainly.append
    cases hc : Text.cutEnd? "Shadow".toList suffix with
    | none =>
      rw [hc] at ht
      exact endsPlainly_of_target ht
    | some plain =>
      rw [Text.cutEnd?_eq_some_iff] at hc
      rw [hc]
      exact EndsPlainly.append ⟨'w', rfl, by decide⟩ plain
  · obtain ⟨suffix, hs, h⟩ := Option.bind_eq_some_iff.1 h
    rw [Text.cutStart?_eq_some_iff] at hs
    obtain ⟨target, ht, -⟩ := Option.map_eq_some_iff.1 h
    rw [hs]
    exact (endsPlainly_of_target ht).append _

theorem endsPlainly_of_handle {name : List Char} {kind : HandleKind}
    (h : HandleKind.ofName? name = some kind) : EndsPlainly name := by
  unfold HandleKind.ofName? at h
  split at h
  · rename_i he
    rw [he]
    exact ⟨'t', rfl, by decide⟩
  · split at h
    · rename_i plain hp
      exact endsPlainly_of_plainHandle hp
    · exact (endsPlainly_of_plainHandle h).cons _
    · exact (endsPlainly_of_plainHandle h).cons _
    · cases h

/-- No name of a base type ends in an `s`. -/
theorem endsPlainly_of_baseType {name : String} {type : BaseType}
    (h : BaseType.ofName? name = some type) : EndsPlainly name.toList := by
  unfold BaseType.ofName? at h
  dsimp only at h
  rcases Option.or_eq_some_iff.1 h with h | ⟨-, h⟩
  · obtain ⟨kind, hk, -⟩ := Option.map_eq_some_iff.1 h
    have he : kind.name = name := by simpa using List.find?_some hk
    rw [← he]
    cases kind <;> exact ⟨_, rfl, by decide⟩
  · rcases Option.or_eq_some_iff.1 h with h | ⟨-, h⟩
    · exact endsPlainly_of_vector h
    · rcases Option.or_eq_some_iff.1 h with h | ⟨-, h⟩
      · exact endsPlainly_of_matrix h
      · obtain ⟨kind, hk, -⟩ := Option.map_eq_some_iff.1 h
        exact endsPlainly_of_handle hk

/-- The set of free uniforms is not named like a base type. -/
theorem ofName?_uniformSetName (key : String) : BaseType.ofName? (uniformSetName key) = none := by
  cases h : BaseType.ofName? (uniformSetName key) with
  | none => rfl
  | some type =>
    obtain ⟨c, hc, hne⟩ := endsPlainly_of_baseType h
    have hname : ∃ before : List Char, (uniformSetName key).toList = before ++ "Uniforms".toList := by
      unfold uniformSetName
      dsimp only
      split
      · exact ⟨_, String.toList_append⟩
      · exact ⟨_, String.toList_append⟩
    obtain ⟨before, hbefore⟩ := hname
    rw [hbefore, List.getLast?_append] at hc
    exact absurd (Option.some.inj hc).symm hne

theorem uniformSet?_eq_some {key : String} {uniforms : List UniformDeclaration}
    {set : TypeDeclaration} (h : uniformSet? key uniforms = some set) :
    set.name = uniformSetName key ∧ set.kind = .uniformSet := by
  cases uniforms with
  | nil => cases h
  | cons first rest =>
    rw [uniformSet?, Option.some.injEq] at h
    constructor
    · rw [← h]
    · rw [← h]

end UniformLayout
