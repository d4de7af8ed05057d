/-!
# Numbered names

A stem that is taken is told apart by a number: the names that are tried for it are the stem itself
and then the stem with 2, 3 and so on behind it. These names differ from each other, so that a search
succeeds once it tries more of them than are taken.

Main statements: `firstNumbered?_eq_some` and `firstNumbered?_isSome`.
-/

namespace UniformLayout.Text

/-- The `n`-th name of a stem, counted from 0. -/
def numbered (stem separator : String) (n : Nat) : String :=
  if n = 0 then stem else s!"{stem}{separator}{n + 1}"

/-- The first name that is accepted among `left` names from the `n`-th on. -/
def firstNumbered? (accept : String → Bool) (stem separator : String) :
    (left n : Nat) → Option String
  | 0, _ => none
  | left + 1, n =>
    let name := numbered stem separator n
    if accept name then some name else firstNumbered? accept stem separator left (n + 1)

/-- Different numbers are written differently. -/
theorem natText_injective {n m : Nat} (h : toString n = toString m) : n = m := by
  have hd : Nat.toDigits 10 n = Nat.toDigits 10 m := by
    have : (toString n).toList = (toString m).toList := congrArg String.toList h
    simpa [toString, Nat.repr] using this
  rw [← Nat.ofDigitChars_toDigits (b := 10) (n := n) (by decide) (by decide), hd,
    Nat.ofDigitChars_toDigits (by decide) (by decide)]

/-- The characters of a number are digits. -/
theorem isDigit_of_mem_natText {n : Nat} {c : Char} (h : c ∈ (toString n).toList) : c.isDigit := by
  have hd : c ∈ Nat.toDigits 10 n := by simpa [toString, Nat.repr] using h
  exact Nat.isDigit_of_mem_toDigits (by decide) (by decide) hd

theorem numbered_of_ne_zero {n : Nat} (stem separator : String) (h : n ≠ 0) :
    numbered stem separator n = stem ++ (separator ++ toString (n + 1)) := by
  rw [numbered, if_neg h]
  exact String.append_assoc

theorem numbered_ne_stem {stem separator : String} {n : Nat} (h : n ≠ 0) :
    numbered stem separator n ≠ stem := by
  intro he
  have hlen := congrArg String.length he
  rw [numbered_of_ne_zero stem separator h, String.length_append, String.length_append] at hlen
  have : (toString (n + 1)).length ≠ 0 := by simp
  omega

/-- Different numbers give different names. -/
theorem numbered_injective {stem separator : String} {n m : Nat}
    (h : numbered stem separator n = numbered stem separator m) : n = m := by
  by_cases hn : n = 0
  · by_cases hm : m = 0
    · omega
    · exact absurd (h.symm.trans (by rw [numbered, if_pos hn])) (numbered_ne_stem hm)
  · by_cases hm : m = 0
    · exact absurd (h.trans (by rw [numbered, if_pos hm])) (numbered_ne_stem hn)
    · rw [numbered_of_ne_zero _ _ hn, numbered_of_ne_zero _ _ hm] at h
      have := natText_injective ((String.append_right_inj _).1 ((String.append_right_inj _).1 h))
      omega

/-- The name that is found is the first one that is accepted. -/
theorem firstNumbered?_eq_some {accept : String → Bool} {stem separator name : String}
    {left n : Nat} (h : firstNumbered? accept stem separator left n = some name) :
    ∃ k < left, name = numbered stem separator (n + k) ∧ accept name = true ∧
      ∀ j < k, accept (numbered stem separator (n + j)) = false := by
  induction left generalizing n with
  | zero => cases h
  | succ left ih =>
    rw [firstNumbered?] at h
    split at h
    · rename_i haccepted
      obtain rfl := Option.some.inj h
      exact ⟨0, Nat.succ_pos left, rfl, haccepted, by simp⟩
    · rename_i hrefused
      obtain ⟨k, hk, hname, haccepted, hbefore⟩ := ih h
      refine ⟨k + 1, Nat.succ_lt_succ hk, by rw [hname, Nat.add_right_comm, Nat.add_assoc],
        haccepted, fun j hj => ?_⟩
      cases j with
      | zero => exact Bool.eq_false_iff.2 hrefused
      | succ j =>
        rw [← Nat.add_assoc, Nat.add_right_comm]
        exact hbefore j (Nat.lt_of_succ_lt_succ hj)

/-- The name that is found is accepted. -/
theorem firstNumbered?_accepted {accept : String → Bool} {stem separator name : String}
    {left n : Nat} (h : firstNumbered? accept stem separator left n = some name) :
    accept name = true := by
  obtain ⟨k, -, -, haccepted, -⟩ := firstNumbered?_eq_some h
  exact haccepted

/-- The name that is found is one of those that are tried. -/
theorem exists_numbered {accept : String → Bool} {stem separator name : String} {left n : Nat}
    (h : firstNumbered? accept stem separator left n = some name) :
    ∃ k, name = numbered stem separator k := by
  obtain ⟨k, -, hname, -⟩ := firstNumbered?_eq_some h
  exact ⟨n + k, hname⟩

/-- The search succeeds when more names are tried than are refused. -/
theorem firstNumbered?_isSome {accept : String → Bool} {stem separator : String} {left n : Nat}
    (taken : List String)
    (h : ∀ k, n ≤ k → accept (numbered stem separator k) = false →
      numbered stem separator k ∈ taken) (hl : taken.length < left) :
    (firstNumbered? accept stem separator left n).isSome := by
  induction left generalizing taken n with
  | zero => exact absurd hl (Nat.not_lt_zero _)
  | succ left ih =>
    simp only [firstNumbered?]
    split
    · rfl
    · rename_i hr
      have hmem := h n (Nat.le_refl n) (by simpa using hr)
      refine ih (taken.erase (numbered stem separator n)) ?_ ?_
      · intro k hk hf
        have hne : numbered stem separator k ≠ numbered stem separator n := fun he =>
          absurd (numbered_injective he) (by omega)
        exact (List.mem_erase_of_ne hne).2 (h k (by omega) hf)
      · have := List.length_pos_of_mem hmem
        rw [List.length_erase_of_mem hmem]
        omega

end UniformLayout.Text
