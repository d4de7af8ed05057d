import UniformLayout.Proofs.Artifact.Members

/-!
# What identifiers look like

A field's identifier is a stem, or the stem with a number. Neither is a keyword: the stem of a keyword
has an underscore, and so has everything numbered. A stem does not start with the two underscores of
the wrapper's own members either, but a numbered one does where the stem is a single underscore.

* `underscore_mem_or_not_keyword`: the shape of a stem.
* `identifierStem_eq_underscore_iff`: the stem that numbering turns into a name of the wrapper's own.

Main statements: `numbered_not_mem_hostKeywords` and `ownedByWrapper_numbered_iff`.
-/

namespace UniformLayout

namespace Text

theorem underscore_mem_numbered (stem : String) {n : Nat} (h : n ≠ 0) :
    '_' ∈ (numbered stem "_" n).toList := by
  rw [numbered_of_ne_zero _ _ h, String.toList_append, String.toList_append]
  exact List.mem_append_right _ (List.mem_append_left _ (by decide))

theorem eq_underscore_of_toLower {c : Char} (h : c.toLower = '_') : c = '_' := by
  unfold Char.toLower at h
  split at h
  · rename_i hupper
    have hval := congrArg Char.val h
    dsimp only at hval
    have hc : c.val = '_'.val - ('a'.val - 'A'.val) := by rw [← hval, UInt32.add_sub_cancel]
    rw [hc] at hupper
    exact absurd hupper (by decide)
  · exact h

/-- Only the underscore itself has a single underscore as its snake case. -/
theorem eq_underscore_of_snakeCase {name : String} (h : snakeCase name = "_") : name = "_" := by
  have hl : snakeCaseFrom none name.toList = ['_'] := by
    rw [← String.toList_ofList (l := snakeCaseFrom none name.toList)]
    exact congrArg String.toList h
  rw [← String.toList_inj]
  generalize name.toList = letters at hl ⊢
  cases letters with
  | nil => cases hl
  | cons c rest =>
    have hstart : startsWord none c rest.head? = false := Bool.and_false _
    rw [snakeCaseFrom, hstart] at hl
    obtain ⟨hc, hrest⟩ := List.cons.inj hl
    obtain rfl := eq_underscore_of_toLower hc
    cases rest with
    | nil => rfl
    | cons d more =>
      rw [snakeCaseFrom] at hrest
      split at hrest <;> cases hrest

end Text

/-! ## Stems -/

/-- No keyword has an underscore in it. -/
theorem underscore_not_mem_of_mem_hostKeywords {word : String} (h : word ∈ hostKeywords) :
    '_' ∉ word.toList := by
  have hall : hostKeywords.all (fun word => !word.toList.contains '_') = true := by decide +kernel
  simpa using List.all_eq_true.1 hall word h

/-- A name that is no keyword and starts with no digit is kept in snake case; any other gets an
underscore behind it. -/
theorem plainIdentifier_cases (name : String) :
    plainIdentifier name = Text.snakeCase name ∧ Text.snakeCase name ∉ hostKeywords ∨
      plainIdentifier name = Text.snakeCase name ++ "_" ∧ Text.snakeCase name ≠ "" := by
  unfold plainIdentifier
  dsimp only
  split
  · rename_i hescaped
    refine .inr ⟨rfl, fun hempty => ?_⟩
    rw [hempty] at hescaped
    exact absurd hescaped (by decide +kernel)
  · rename_i hplain
    refine .inl ⟨rfl, fun hm => hplain ?_⟩
    rw [List.contains_iff_mem.2 hm, Bool.true_or]

/-- A stem is the plain identifier, or that without the underscores in front, or the name of a method
with something behind it. -/
theorem identifierStem_cases (name : String) :
    identifierStem name = plainIdentifier name ∨
      (∃ rest, identifierStem name = "field_" ++ rest) ∨
      ∃ method, identifierStem name = method ++ "_field" := by
  unfold identifierStem
  extract_lets plain stem
  have hstem : stem = plain ∨ ∃ rest, stem = "field_" ++ rest := by
    unfold stem
    split
    · exact .inr ⟨_, rfl⟩
    · exact .inl rfl
  clear_value stem
  split
  · exact .inr (.inr ⟨stem, rfl⟩)
  · exact hstem.imp_right .inl

theorem underscore_mem_or_not_keyword (name : String) :
    '_' ∈ (identifierStem name).toList ∨ identifierStem name ∉ hostKeywords := by
  rcases identifierStem_cases name with hplain | ⟨rest, hstem⟩ | ⟨method, hstem⟩
  · rw [hplain]
    rcases plainIdentifier_cases name with ⟨hsame, hword⟩ | ⟨hescaped, -⟩
    · exact .inr (hsame ▸ hword)
    · refine .inl ?_
      rw [hescaped, String.toList_append]
      exact List.mem_append_right _ (by decide)
  · refine .inl ?_
    rw [hstem, String.toList_append]
    exact List.mem_append_left _ (by decide)
  · refine .inl ?_
    rw [hstem, String.toList_append]
    exact List.mem_append_right _ (by decide)

/-- No candidate for an identifier is a keyword. -/
theorem numbered_not_mem_hostKeywords (name : String) (n : Nat) :
    Text.numbered (identifierStem name) "_" n ∉ hostKeywords := by
  by_cases hn : n = 0
  · rw [Text.numbered, if_pos hn]
    rcases underscore_mem_or_not_keyword name with hunderscore | hword
    · exact fun hm => underscore_not_mem_of_mem_hostKeywords hm hunderscore
    · exact hword
  · exact fun hm => underscore_not_mem_of_mem_hostKeywords hm (Text.underscore_mem_numbered _ hn)

/-- A single underscore is the stem of itself only. -/
theorem identifierStem_eq_underscore_iff {name : String} : identifierStem name = "_" ↔ name = "_" := by
  constructor
  · intro h
    rcases identifierStem_cases name with hplain | ⟨rest, hstem⟩ | ⟨method, hstem⟩
    · rw [h] at hplain
      rcases plainIdentifier_cases name with ⟨hsame, -⟩ | ⟨hescaped, hne⟩
      · exact Text.eq_underscore_of_snakeCase (hsame.symm.trans hplain.symm)
      · exact absurd ((String.append_left_inj "_").1 (hplain.trans hescaped).symm) hne
    · have hlength := congrArg String.length (h.symm.trans hstem)
      have hmark : "field_".length = 6 ∧ "_".length = 1 := by decide
      rw [String.length_append] at hlength
      omega
    · have hlength := congrArg String.length (h.symm.trans hstem)
      have hmark : "_field".length = 6 ∧ "_".length = 1 := by decide
      rw [String.length_append] at hlength
      omega
  · rintro rfl
    decide +kernel

/-! ## Names of the wrapper's own -/

/-- The name starts with two underscores, as the wrapper's own members do. -/
def OwnedByWrapper (name : String) : Prop := ['_', '_'] <+: name.toList

instance (name : String) : Decidable (OwnedByWrapper name) :=
  inferInstanceAs (Decidable (['_', '_'] <+: name.toList))

theorem not_ownedByWrapper_identifierStem (name : String) :
    ¬ OwnedByWrapper (identifierStem name) := by
  rintro ⟨rest, h⟩
  exact identifierStem_ne name rest h.symm

/-- What a stem is followed by, if it is not to start with two underscores itself, makes two of them
only where the stem is one underscore. -/
theorem ownedByWrapper_append_iff {stem : String} (h : ¬ OwnedByWrapper stem) (n : Nat) :
    OwnedByWrapper (stem ++ ("_" ++ toString n)) ↔ stem = "_" := by
  unfold OwnedByWrapper at h ⊢
  rw [String.toList_append, String.toList_append, ← String.toList_inj]
  have hdigits : ∀ c ∈ (toString n).toList, c ≠ '_' := by
    rintro c hm rfl
    exact absurd (Text.isDigit_of_mem_natText hm) (by decide)
  generalize (toString n).toList = digits at hdigits
  change ['_', '_'] <+: stem.toList ++ '_' :: digits ↔ stem.toList = ['_']
  generalize stem.toList = letters at h
  cases letters with
  | nil =>
    cases digits with
    | nil => simp
    | cons d more => simpa using fun hd => hdigits d List.mem_cons_self hd.symm
  | cons c rest =>
    cases rest with
    | nil => simp [eq_comm]
    | cons d more => simpa [eq_comm] using h

/-- A candidate starts with two underscores exactly where it is a numbered underscore. -/
theorem ownedByWrapper_numbered_iff (name : String) (n : Nat) :
    OwnedByWrapper (Text.numbered (identifierStem name) "_" n) ↔
      name = "_" ∧ Text.numbered (identifierStem name) "_" n ≠ "_" := by
  by_cases hn : n = 0
  · rw [Text.numbered, if_pos hn]
    refine ⟨fun h => absurd h (not_ownedByWrapper_identifierStem name), ?_⟩
    rintro ⟨rfl, hne⟩
    exact absurd (identifierStem_eq_underscore_iff.2 rfl) hne
  · rw [Text.numbered_of_ne_zero _ _ hn,
      ownedByWrapper_append_iff (not_ownedByWrapper_identifierStem name),
      identifierStem_eq_underscore_iff, ← Text.numbered_of_ne_zero _ _ hn]
    refine ⟨fun h => ⟨h, ?_⟩, And.left⟩
    rw [identifierStem_eq_underscore_iff.2 h]
    exact Text.numbered_ne_stem hn

end UniformLayout
