import UniformLayout.Proofs.Source.Twins

/-!
# Where a group stands

Readers meet a group in three places. Outside all groups it is passed over. Behind the head of a struct
or of a uniform block it is their body. In the value of an attribute it is a part of the value; in the
initialiser of a uniform it is passed over as far as commas and semicolons allow.

* `Within`: the lexemes up to a group end outside all groups, and nothing that they start takes the
  group for a part of itself.
* `Declaring` and `BehindUniform`: what is known between the names of a uniform statement.

Main statement: `Within.steady`.
-/

namespace UniformLayout.Source

/-! ## Where a group stands -/

/-- The groups that are open behind the lexemes. A brace that closes none counts for nothing. -/
def depth : Nat → List Lexeme → Nat
  | groups, [] => groups
  | groups, .punct '{' :: rest => depth (groups + 1) rest
  | groups, .punct '}' :: rest => depth (groups - 1) rest
  | groups, _ :: rest => depth groups rest

@[simp] theorem depth_nil (groups : Nat) : depth groups [] = groups := rfl

theorem depth_open (groups : Nat) (rest : List Lexeme) :
    depth groups (.punct '{' :: rest) = depth (groups + 1) rest := rfl

theorem depth_close (groups : Nat) (rest : List Lexeme) :
    depth groups (.punct '}' :: rest) = depth (groups - 1) rest := rfl

theorem depth_plain {lexeme : Lexeme} (hopen : lexeme ≠ .punct '{') (hclose : lexeme ≠ .punct '}')
    (groups : Nat) (rest : List Lexeme) : depth groups (lexeme :: rest) = depth groups rest := by
  rw [depth]
  · exact hopen
  · exact hclose

/-- More groups at the start never leave fewer at the end. -/
theorem depth_mono {groups more : Nat} (h : groups ≤ more) (lexemes : List Lexeme) :
    depth groups lexemes ≤ depth more lexemes := by
  induction lexemes generalizing groups more with
  | nil => exact h
  | cons lexeme rest ih =>
    by_cases hopen : lexeme = .punct '{'
    · subst hopen
      exact ih (Nat.succ_le_succ h)
    · by_cases hclose : lexeme = .punct '}'
      · subst hclose
        exact ih (Nat.sub_le_sub_right h 1)
      · rw [depth_plain hopen hclose, depth_plain hopen hclose]
        exact ih h

/-- A group behind the lexemes is the body of the struct or of the uniform block that they start. -/
def opensBody : List Lexeme → Bool
  | [.word "struct", .word _] => true
  | .word "uniform" :: rest =>
    match rest.dropWhile isIdle with
    | [] => true
    | [.word _] => true
    | _ => false
  | _ => false

/-- A group behind the lexemes is a part of the value of the attribute that they start. -/
def inAttribute : List Lexeme → Bool
  | .punct '[' :: .word _ :: .punct ':' :: inside => !inside.contains (.punct ']')
  | _ => false

/-- Whether the end of the lexemes stands in the value of a declarator, if their start does. -/
def inValue (value : Bool) : List Lexeme → Bool
  | [] => value
  | .punct ';' :: _ => false
  | .punct ',' :: rest => inValue false rest
  | .punct '=' :: rest => inValue true rest
  | _ :: rest => inValue value rest

/-- A group behind the lexemes is a part of the initialiser of a uniform that they declare. -/
def inInitialiser : List Lexeme → Bool
  | .word "uniform" :: rest => inValue false rest
  | _ => false

theorem inValue_plain {lexeme : Lexeme} (h : ∀ c ∈ [';', ',', '='], lexeme ≠ .punct c)
    (value : Bool) (rest : List Lexeme) : inValue value (lexeme :: rest) = inValue value rest := by
  rw [inValue]
  · exact h _ (by decide)
  · exact h _ (by decide)
  · exact h _ (by decide)

/-- What stands in a value stands in it also if the start does. -/
theorem inValue_mono {lexemes : List Lexeme} (h : inValue false lexemes) : inValue true lexemes := by
  induction lexemes with
  | nil => cases h
  | cons lexeme rest ih =>
    by_cases hplain : ∀ c ∈ [';', ',', '='], lexeme ≠ .punct c
    · rw [inValue_plain hplain] at h ⊢
      exact ih h
    · push Not at hplain
      obtain ⟨c, hc, rfl⟩ := hplain
      simp only [List.mem_cons, List.not_mem_nil, or_false] at hc
      rcases hc with rfl | rfl | rfl
      · cases h
      · exact h
      · exact h

/-- Neither a comma nor a semicolon stands in the groups. -/
def Swap.Plain (swap : Swap) : Prop :=
  ∀ token ∈ swap.first.inner ++ swap.second.inner, ∀ c ∈ [',', ';'], token.lexeme ≠ .punct c

/-- The lexemes up to the group, in so many open groups, end outside all groups; and they do not make
the group a part of what they start. -/
structure Within (swap : Swap) (groups : Nat) (front : List Lexeme) : Prop where
  depth : depth groups front = 0
  noBody : ∀ rest, rest <:+ front → ¬ opensBody rest
  noAttribute : ∀ rest, rest <:+ front → ¬ inAttribute rest
  plain : ∀ rest, rest <:+ front → inInitialiser rest → swap.Plain

namespace Within

variable {swap : Swap} {groups fewer : Nat} {front rest : List Lexeme} {lexeme : Lexeme}

theorem of_suffix (h : Within swap groups front) (hs : rest <:+ front) (hd : Source.depth fewer rest = 0) :
    Within swap fewer rest :=
  ⟨hd, fun r hr => h.noBody r (hr.trans hs), fun r hr => h.noAttribute r (hr.trans hs),
    fun r hr => h.plain r (hr.trans hs)⟩

theorem steady : Steady ['{', '}'] (Within swap groups) := by
  intro lexeme front hl h
  refine h.of_suffix (List.suffix_cons _ _) ?_
  rw [← depth_plain (hl _ (by decide)) (hl _ (by decide))]
  exact h.depth

theorem opened (h : Within swap groups (.punct '{' :: front)) : Within swap (groups + 1) front :=
  h.of_suffix (List.suffix_cons _ _) h.depth

theorem closed (h : Within swap groups (.punct '}' :: front)) : Within swap (groups - 1) front :=
  h.of_suffix (List.suffix_cons _ _) h.depth

/-- What ends outside all groups does so also if fewer are open at the start. -/
theorem less (h : Within swap groups front) (hle : fewer ≤ groups) : Within swap fewer front :=
  h.of_suffix (List.suffix_refl _)
    (Nat.eq_zero_of_le_zero (h.depth ▸ depth_mono hle front))

/-- Outside all groups any lexeme may be read. -/
theorem next (h : Within swap 0 (lexeme :: front)) : Within swap 0 front := by
  by_cases hopen : lexeme = .punct '{'
  · subst hopen
    exact h.opened.less (Nat.zero_le _)
  · by_cases hclose : lexeme = .punct '}'
    · subst hclose
      exact h.closed
    · exact steady lexeme front (by simp [hopen, hclose]) h

theorem behind (h : Within swap 0 (rest ++ front)) : Within swap 0 front := by
  induction rest with
  | nil => exact h
  | cons lexeme rest ih => exact ih h.next

theorem groups_eq_zero (h : Within swap groups []) : groups = 0 := h.depth

end Within

/-- Behind the type of free uniforms: a group that stands in a value has no commas and semicolons. -/
structure Declaring (swap : Swap) (front : List Lexeme) : Prop where
  within : Within swap 0 front
  value : inValue false front → swap.Plain

theorem Declaring.next {swap : Swap} {lexeme : Lexeme} {front : List Lexeme}
    (h : Declaring swap (lexeme :: front)) (hl : lexeme ≠ .punct ';') : Declaring swap front := by
  refine ⟨h.within.next, fun hv => h.value ?_⟩
  by_cases hplain : ∀ c ∈ [';', ',', '='], lexeme ≠ .punct c
  · rwa [inValue_plain hplain]
  · push Not at hplain
    obtain ⟨c, hc, rfl⟩ := hplain
    simp only [List.mem_cons, List.not_mem_nil, or_false] at hc
    rcases hc with rfl | rfl | rfl
    · exact absurd rfl hl
    · exact hv
    · exact inValue_mono hv

/-- Behind the word of uniforms, and qualifiers without effect. -/
def BehindUniform (swap : Swap) (front : List Lexeme) : Prop :=
  ∃ idle : List Lexeme, (∀ lexeme ∈ idle, isIdle lexeme) ∧
    Within swap 0 (.word "uniform" :: (idle ++ front))

namespace BehindUniform

variable {swap : Swap} {front : List Lexeme} {name : String}

theorem within (h : BehindUniform swap front) : Within swap 0 front := by
  obtain ⟨idle, -, hw⟩ := h
  exact hw.next.behind

theorem idle {lexeme : Lexeme} (hi : isIdle lexeme) (h : BehindUniform swap (lexeme :: front)) :
    BehindUniform swap front := by
  obtain ⟨idle, hidle, hw⟩ := h
  refine ⟨idle ++ [lexeme], ?_, by rwa [List.append_assoc]⟩
  intro other hm
  rcases List.mem_append.1 hm with hm | hm
  · exact hidle other hm
  · rwa [List.mem_singleton.1 hm]

/-- The group would be the body of a block without a name. -/
theorem not_nil : ¬ BehindUniform swap [] := by
  rintro ⟨idle, hidle, hw⟩
  apply hw.noBody _ (List.suffix_refl _)
  rw [List.append_nil, opensBody, List.dropWhile_eq_nil_iff.2 hidle]

/-- The group would be the body of a block with a name. -/
theorem not_word : ¬ BehindUniform swap [.word name] := by
  rintro ⟨idle, hidle, hw⟩
  apply hw.noBody _ (List.suffix_refl _)
  rw [opensBody, List.dropWhile_append_of_pos hidle, List.dropWhile_cons]
  by_cases hi : isIdle (.word name)
  · rw [if_pos hi]
    rfl
  · rw [if_neg hi]

/-- Behind the type names follow. -/
theorem declaring (h : BehindUniform swap (.word name :: front)) : Declaring swap front := by
  refine ⟨h.within.next, fun hv => ?_⟩
  obtain ⟨idle, hidle, hw⟩ := h
  apply hw.plain _ (List.suffix_refl _)
  rw [inInitialiser]
  clear hw
  induction idle with
  | nil => exact hv
  | cons lexeme idle ih =>
    obtain ⟨hl, hidle⟩ := List.forall_mem_cons.1 hidle
    rw [List.cons_append, inValue_plain]
    · exact ih hidle
    · rintro c - rfl
      cases hl

end BehindUniform

end UniformLayout.Source
