/-!
# Cutting a known start or end off a text

Main statements: `cutStart?_eq_some_iff` and `cutEnd?_eq_some_iff`: a cut gives exactly the rest.
-/

namespace UniformLayout.Text

/-- The text behind `mark`, when the text starts with it. -/
def cutStart? : (mark text : List Char) → Option (List Char)
  | [], text => some text
  | _ :: _, [] => none
  | m :: mark, c :: text => if m = c then cutStart? mark text else none

/-- The text in front of `mark`, when the text ends with it. -/
def cutEnd? (mark text : List Char) : Option (List Char) :=
  (cutStart? mark.reverse text.reverse).map List.reverse

@[simp] theorem cutStart?_eq_some_iff {mark text rest : List Char} :
    cutStart? mark text = some rest ↔ text = mark ++ rest := by
  induction mark generalizing text with
  | nil => simp [cutStart?]
  | cons m mark ih =>
    cases text with
    | nil => simp [cutStart?]
    | cons c text =>
      by_cases h : m = c
      · simp [cutStart?, h, ih]
      · simp [cutStart?, h, Ne.symm h]

@[simp] theorem cutEnd?_eq_some_iff {mark text rest : List Char} :
    cutEnd? mark text = some rest ↔ text = rest ++ mark := by
  simp only [cutEnd?, Option.map_eq_some_iff, cutStart?_eq_some_iff]
  constructor
  · rintro ⟨r, h, rfl⟩
    simpa using congrArg List.reverse h
  · rintro rfl
    exact ⟨rest.reverse, by simp, by simp⟩

end UniformLayout.Text
