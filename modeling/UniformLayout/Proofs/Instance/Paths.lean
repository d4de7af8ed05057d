import UniformLayout.Proofs.Instance.Spots
import UniformLayout.Proofs.Source.Writing

/-!
# Paths as texts

Changes name the element that they belong to by a text: the steps to its instance and then its field,
with dots between them and the index of an array's element in brackets. Where the names of fields are
identifiers, the steps can be read off the text.

* `PathStep.text_append_inj`: one step.
* `pathText_inj`: a path.
-/

namespace UniformLayout

/-! ## Steps -/

def PathStep.text (step : PathStep) : String :=
  step.element.elim step.field fun index => s!"{step.field}[{index}]"

/-- What names an element: the steps to its instance, and then the last one, to the element itself. -/
def pathText (last : PathStep) : List PathStep → String
  | [] => last.text
  | step :: rest => step.text ++ "." ++ pathText last rest

theorem elementPath_eq (above : String) (field : FieldSchema) (index : Nat) :
    elementPath above field index =
      above ++ PathStep.text ⟨field.name, field.elementIndex index⟩ := by
  unfold elementPath PathStep.text FieldSchema.elementIndex
  cases field.isArray with
  | false => rfl
  | true =>
    change above ++ field.name ++ "[" ++ toString index ++ "]" =
      above ++ (field.name ++ "[" ++ toString index ++ "]")
    simp only [String.append_assoc]

theorem PathStep.toList_text (step : PathStep) : step.text.toList = step.field.toList ++
    step.element.elim [] fun index => '[' :: ((toString index).toList ++ [']']) := by
  unfold PathStep.text
  cases step.element with
  | none => simp
  | some index =>
    change (step.field ++ "[" ++ toString index ++ "]").toList = _
    simp [String.toList_append]

/-- Two texts with one beginning, where what belongs to it can be told from what follows. -/
theorem eq_of_append_stop {p : Char → Bool} {body other rest tail : List Char}
    (hbody : ∀ c ∈ body, p c) (hother : ∀ c ∈ other, p c) (hrest : ∀ c ∈ rest.head?, p c = false)
    (htail : ∀ c ∈ tail.head?, p c = false) (h : body ++ rest = other ++ tail) :
    body = other ∧ rest = tail := by
  obtain ⟨htake, hdrop⟩ := Source.takeWhile_of_stop hbody hrest
  obtain ⟨htake', hdrop'⟩ := Source.takeWhile_of_stop hother htail
  rw [h] at htake hdrop
  exact ⟨htake.symm.trans htake', hdrop.symm.trans hdrop'⟩

/-- A step can be read off a text that begins with it and goes on with a dot, if at all. -/
theorem PathStep.text_append_inj {step other : PathStep} (hs : IsIdentifier step.field)
    (ho : IsIdentifier other.field) {rest tail : List Char} (hrest : ∀ c ∈ rest.head?, c = '.')
    (htail : ∀ c ∈ tail.head?, c = '.')
    (h : step.text.toList ++ rest = other.text.toList ++ tail) : step = other ∧ rest = tail := by
  have hstop : ∀ (element : Option Nat) (rest : List Char), (∀ c ∈ rest.head?, c = '.') →
      ∀ c ∈ ((element.elim [] fun index => '[' :: ((toString index).toList ++ [']'])) ++ rest).head?,
        Source.inWord c = false := by
    intro element rest hrest c hc
    cases element with
    | none =>
      obtain rfl := hrest c hc
      decide
    | some index =>
      obtain rfl := Option.some.inj hc
      decide
  rw [PathStep.toList_text, PathStep.toList_text, List.append_assoc, List.append_assoc] at h
  obtain ⟨hname, h⟩ := eq_of_append_stop hs.inWord ho.inWord (hstop _ _ hrest) (hstop _ _ htail) h
  obtain ⟨name, element⟩ := step
  obtain ⟨name', element'⟩ := other
  obtain rfl : name = name' := String.toList_inj.1 hname
  cases element with
  | none =>
    cases element' with
    | none => exact ⟨rfl, h⟩
    | some index =>
      obtain rfl : rest = _ := h
      exact absurd (hrest _ rfl) (by decide)
  | some index =>
    cases element' with
    | none =>
      obtain rfl : _ = tail := h
      exact absurd (htail _ rfl) (by decide)
    | some other =>
      have hnumbers : (toString index).toList ++ ([']'] ++ rest) =
          (toString other).toList ++ ([']'] ++ tail) := by
        rw [← List.append_assoc, ← List.append_assoc]
        exact (List.cons.inj h).2
      have hbracket : ∀ rest : List Char, ∀ c ∈ ([']'] ++ rest).head?, c.isDigit = false := by
        intro rest c hc
        obtain rfl := Option.some.inj hc
        decide
      obtain ⟨hindex, hafter⟩ := eq_of_append_stop (fun _ => Text.isDigit_of_mem_natText)
        (fun _ => Text.isDigit_of_mem_natText) (hbracket _) (hbracket _) hnumbers
      obtain rfl := Text.natText_injective (String.toList_inj.1 hindex)
      exact ⟨rfl, (List.cons.inj hafter).2⟩

/-! ## Paths -/

/-- Different steps to an element make different texts. -/
theorem pathText_inj {steps others : List PathStep} {last end' : PathStep}
    (hlast : IsIdentifier last.field) (hend : IsIdentifier end'.field)
    (hs : ∀ step ∈ steps, IsIdentifier step.field)
    (ho : ∀ step ∈ others, IsIdentifier step.field)
    (h : pathText last steps = pathText end' others) : steps = others ∧ last = end' := by
  have hdot : ∀ (rest : String), (step : PathStep) → ((step.text ++ "." ++ rest).toList =
      step.text.toList ++ '.' :: rest.toList) := by
    intro rest step
    simp [String.toList_append]
  induction steps generalizing others with
  | nil =>
    cases others with
    | nil =>
      have htexts := congrArg String.toList h
      rw [pathText, pathText, ← List.append_nil last.text.toList,
        ← List.append_nil end'.text.toList] at htexts
      exact ⟨rfl, (PathStep.text_append_inj hlast hend (by simp) (by simp) htexts).1⟩
    | cons other rest =>
      have htexts := congrArg String.toList h
      rw [pathText, pathText, hdot, ← List.append_nil last.text.toList] at htexts
      cases (PathStep.text_append_inj hlast (ho other List.mem_cons_self) (by simp) (by simp)
        htexts).2
  | cons step rest ih =>
    obtain ⟨hstep, hrest⟩ := List.forall_mem_cons.1 hs
    have htexts := congrArg String.toList h
    cases others with
    | nil =>
      rw [pathText, pathText, hdot, ← List.append_nil end'.text.toList] at htexts
      cases (PathStep.text_append_inj hstep hend (by simp) (by simp) htexts).2
    | cons other others =>
      obtain ⟨hother, hothers⟩ := List.forall_mem_cons.1 ho
      rw [pathText, pathText, hdot, hdot] at htexts
      obtain ⟨rfl, htail⟩ := PathStep.text_append_inj hstep hother (by simp) (by simp) htexts
      obtain ⟨rfl, rfl⟩ := ih hrest hothers (String.toList_inj.1 (List.cons.inj htail).2)
      exact ⟨rfl, rfl⟩

end UniformLayout
