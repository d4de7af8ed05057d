import UniformLayout.Proofs.Source.Group

/-!
# Words and integer literals

A word that is read as a number is a decimal or hexadecimal literal, unless there is a sign in front of
its digits; and then it is one number of a source.

* `IsLiteral`: a decimal or hexadecimal literal with its value.
* `isSigned`: what is read as a number without being one of a source.

Main statements: `isLiteral_of_integerLiteral?` and `proper_of_integerLiteral?`.
-/

namespace UniformLayout

/-! ## Words -/

namespace Text

theorem words_of_isBlank {c : Char} (h : isBlank c) (rest : List Char) :
    words (c :: rest) = words rest := by
  rw [words, words, splitBy, if_pos h]
  rfl

theorem words_append_of_isBlank {blanks : List Char} (h : ∀ c ∈ blanks, isBlank c)
    (rest : List Char) : words (blanks ++ rest) = words rest := by
  induction blanks with
  | nil => rfl
  | cons c blanks ih =>
    obtain ⟨hc, hblanks⟩ := List.forall_mem_cons.1 h
    rw [List.cons_append, words_of_isBlank hc, ih hblanks]

theorem splitBy_append {p : Char → Bool} {word : List Char} (h : ∀ c ∈ word, p c = false)
    {rest piece : List Char} {pieces : List (List Char)} (hrest : splitBy p rest = piece :: pieces) :
    splitBy p (word ++ rest) = (word ++ piece) :: pieces := by
  induction word with
  | nil => exact hrest
  | cons c word ih =>
    obtain ⟨hc, hword⟩ := List.forall_mem_cons.1 h
    rw [List.cons_append, splitBy, hc, if_neg Bool.false_ne_true, ih hword]
    rfl

/-- A word in front of a blank, or of nothing. -/
theorem words_word {word rest : List Char} (hne : word ≠ []) (h : ∀ c ∈ word, isBlank c = false)
    (hrest : ∀ c ∈ rest.head?, isBlank c) : words (word ++ rest) = word :: words rest := by
  cases rest with
  | nil =>
    have hsplit : splitBy isBlank (word ++ []) = [word ++ []] := splitBy_append h rfl
    rw [words, hsplit]
    simp [hne, words, splitBy]
  | cons c rest =>
    have hc : isBlank c := hrest c rfl
    have hsplit : splitBy isBlank (c :: rest) = [] :: splitBy isBlank rest := by
      rw [splitBy, if_pos hc]
    rw [words, splitBy_append h hsplit, words, hsplit]
    simp [hne]

/-- A text by its first word, if it has one. -/
theorem words_cases (text : List Char) : words text = [] ∧ (∀ c ∈ text, isBlank c) ∨
    ∃ blanks word rest, text = blanks ++ (word ++ rest) ∧ words text = word :: words rest ∧
      (∀ c ∈ blanks, isBlank c) ∧ ∀ c ∈ word, isBlank c = false := by
  have hblanks : ∀ c ∈ text.takeWhile isBlank, isBlank c := fun c => List.mem_takeWhile_imp
  have hwords := words_append_of_isBlank hblanks (text.dropWhile isBlank)
  rw [List.takeWhile_append_dropWhile] at hwords
  rcases hdrop : text.dropWhile isBlank with _ | ⟨c, rest⟩
  · rw [hdrop] at hwords
    refine Or.inl ⟨hwords, fun c hc => hblanks c ?_⟩
    rwa [← List.takeWhile_append_dropWhile (p := isBlank) (l := text), hdrop, List.append_nil] at hc
  · have hc : isBlank c = false := by
      have hhead := List.head?_dropWhile_not isBlank text
      rwa [hdrop] at hhead
    have hrest : ∀ d ∈ (rest.dropWhile (!isBlank ·)).head?, isBlank d := by
      intro d hd
      have hhead := List.head?_dropWhile_not (!isBlank ·) rest
      rw [Option.mem_def.1 hd] at hhead
      simpa using hhead
    have hword : ∀ d ∈ c :: rest.takeWhile (!isBlank ·), isBlank d = false := by
      refine List.forall_mem_cons.2 ⟨hc, fun d hd => ?_⟩
      simpa using List.mem_takeWhile_imp hd
    have hsplit : c :: rest =
        (c :: rest.takeWhile (!isBlank ·)) ++ rest.dropWhile (!isBlank ·) := by
      rw [List.cons_append, List.takeWhile_append_dropWhile]
    refine Or.inr ⟨_, _, rest.dropWhile (!isBlank ·), ?_, ?_, hblanks, hword⟩
    · rw [← hsplit, ← hdrop, List.takeWhile_append_dropWhile]
    · rw [hwords, hdrop, hsplit, words_word (List.cons_ne_nil _ _) hword hrest]

end Text

namespace Source

open Text (isSpace isBlank)

/-! ## Literals -/

/-- The text is a mark with digits behind it, in either case and most significant first, and with an
optional `u` at its end. -/
def WritesIn (base : Nat) (mark : List Char) (text : String) (value : Nat) : Prop :=
  ∃ digits : List Nat, ∃ suffix ∈ [[], ['u']], digits ≠ [] ∧ (∀ digit ∈ digits, digit < base) ∧
    text.toList.map Char.toLower = mark ++ (digits.map Nat.digitChar ++ suffix) ∧
      digits.foldl (fun high digit => high * base + digit) 0 = value

/-- A decimal or hexadecimal literal of at most 32 bits. -/
def IsLiteral (text : String) (value : Nat) : Prop :=
  (WritesIn 10 [] text value ∨ WritesIn 16 ['0', 'x'] text value) ∧ Fits value

/-- There is a sign in front of the digits. -/
def isSigned (word : List Char) : Bool :=
  [['+'], ['0', 'x', '+'], ['0', 'X', '+']].any fun mark => (Text.cutStart? mark word).isSome

theorem isSigned_of_eq {mark word rest : List Char}
    (hmark : mark ∈ [['+'], ['0', 'x', '+'], ['0', 'X', '+']]) (h : word = mark ++ rest) :
    isSigned word = true :=
  List.any_eq_true.2 ⟨mark, hmark, by rw [Text.cutStart?_eq_some_iff.2 h]; rfl⟩

/-- A property of the ASCII characters is checked number by number. -/
theorem of_ascii {p : Char → Prop} (h : ∀ n < 128, p (Char.ofNat n)) {c : Char} (hc : c.toNat < 128) :
    p c := by
  have hp := h c.toNat hc
  rwa [Char.ofNat_toNat] at hp

theorem digitValue?_eq_some {base : Nat} (hbase : base ≤ 16) {c : Char} {digit : Nat}
    (h : Text.digitValue? base c = some digit) : digit < base ∧
      c.toLower = Nat.digitChar digit ∧ c.isAlphanum ∧ (digit < 10 → c.isDigit) := by
  obtain ⟨hdigit, hlt⟩ := Option.filter_eq_some_iff.1 h
  replace hlt : digit < base := by simpa using hlt
  have hhex : Text.digitValue? 16 c = some digit :=
    Option.filter_eq_some_iff.2 ⟨hdigit, by simpa using hlt.trans_le hbase⟩
  have hbound : c ≤ 'f' := by
    split at hdigit
    · rename_i hd
      have hnine : c ≤ '9' := by
        simp only [Char.isDigit, Bool.and_eq_true, decide_eq_true_eq] at hd
        exact hd.2
      exact Char.le_trans hnine (by decide)
    · split at hdigit
      · rename_i hd
        exact hd.2
      · split at hdigit
        · rename_i hd
          exact Char.le_trans hd.2 (by decide : 'F' ≤ 'f')
        · cases hdigit
  -- What is read as a digit is one, in lower or upper case.
  have hchar := of_ascii (p := fun c => ∀ digit ∈ Text.digitValue? 16 c,
      c.toLower = Nat.digitChar digit ∧ c.isAlphanum ∧ (digit < 10 → c.isDigit))
    (by decide +kernel) (Nat.lt_of_le_of_lt hbound (by decide : 'f'.toNat < 128))
  exact ⟨hlt, hchar digit hhex⟩

/-- The characters of a number, and the digits that they are. -/
structure WritesDigits (base : Nat) (text : List Char) (digits : List Nat) : Prop where
  below : ∀ digit ∈ digits, digit < base
  lower : text.map Char.toLower = digits.map Nat.digitChar
  alphanum : ∀ c ∈ text, c.isAlphanum
  decimal : base ≤ 10 → ∀ c ∈ text, c.isDigit

theorem number?_eq_some {base : Nat} (hbase : base ≤ 16) {text : List Char} {high value : Nat}
    (h : Text.number? base high text = some value) :
    ∃ digits : List Nat, WritesDigits base text digits ∧
      digits.foldl (fun high digit => high * base + digit) high = value := by
  induction text generalizing high with
  | nil => exact ⟨[], ⟨by simp, rfl, by simp, by simp⟩, Option.some.inj h⟩
  | cons c text ih =>
    rw [Text.number?, Option.bind_eq_bind, Option.bind_eq_some_iff] at h
    obtain ⟨digit, hdigit, h⟩ := h
    obtain ⟨digits, hdigits, hvalue⟩ := ih h
    obtain ⟨hlt, hlower, halphanum, hdecimal⟩ := digitValue?_eq_some hbase hdigit
    exact ⟨digit :: digits,
      { below := List.forall_mem_cons.2 ⟨hlt, hdigits.below⟩
        lower := by rw [List.map_cons, List.map_cons, hlower, hdigits.lower]
        alphanum := List.forall_mem_cons.2 ⟨halphanum, hdigits.alphanum⟩
        decimal := fun hten =>
          List.forall_mem_cons.2 ⟨hdecimal (hlt.trans_le hten), hdigits.decimal hten⟩ }, hvalue⟩

/-- A number without a sign is written by its digits. -/
theorem unsigned?_eq_some {base : Nat} (hbase : base ≤ 16) {text : List Char} {value : Nat}
    (h : Text.unsigned? base text = some value) (hsign : ∀ rest, text ≠ '+' :: rest) :
    ∃ digits : List Nat, digits ≠ [] ∧ WritesDigits base text digits ∧
      digits.foldl (fun high digit => high * base + digit) 0 = value := by
  unfold Text.unsigned? at h
  split at h
  · rename_i rest
    exact absurd rfl (hsign rest)
  · dsimp only at h
    split at h
    · cases h
    · rename_i hempty
      obtain ⟨number, hnumber, hchecked⟩ := Option.bind_eq_some_iff.1 h
      obtain ⟨digits, hdigits, hvalue⟩ := number?_eq_some hbase hnumber
      obtain ⟨-, rfl⟩ := checked_eq_some_iff.1 hchecked
      refine ⟨digits, ?_, hdigits, hvalue⟩
      rintro rfl
      exact hempty (List.isEmpty_iff.2 (List.map_eq_nil_iff.1 hdigits.lower))

/-- A text is what is left of it without an unsigned suffix, and the suffix. -/
theorem cutSuffix_cases (word : List Char) :
    ∃ suffix ∈ [[], ['u'], ['U']],
      word = ((Text.cutEnd? ['u'] word).or (Text.cutEnd? ['U'] word)).getD word ++ suffix := by
  cases hu : Text.cutEnd? ['u'] word with
  | some digits => exact ⟨['u'], by simp, Text.cutEnd?_eq_some_iff.1 hu⟩
  | none =>
    cases hU : Text.cutEnd? ['U'] word with
    | some digits => exact ⟨['U'], by simp, Text.cutEnd?_eq_some_iff.1 hU⟩
    | none => exact ⟨[], by simp, by simp⟩

/-- A word without a sign that is read as a number, by its parts. -/
theorem integerLiteral?_eq_some {text : String} {value : Nat}
    (h : Text.integerLiteral? text = some value) (hsign : isSigned text.toList = false) :
    ∃ base, ∃ mark body suffix : List Char, ∃ digits : List Nat,
      (base = 10 ∧ mark = [] ∨ base = 16 ∧ mark ∈ [['0', 'x'], ['0', 'X']]) ∧
        suffix ∈ [[], ['u'], ['U']] ∧ text.toList = mark ++ (body ++ suffix) ∧ digits ≠ [] ∧
          WritesDigits base body digits ∧
            digits.foldl (fun high digit => high * base + digit) 0 = value := by
  obtain ⟨suffix, hsuffix, htext⟩ := cutSuffix_cases text.toList
  unfold Text.integerLiteral? at h
  dsimp only at h
  generalize ((Text.cutEnd? ['u'] text.toList).or (Text.cutEnd? ['U'] text.toList)).getD
    text.toList = word at h htext
  have hnosign : ∀ mark ∈ [['+'], ['0', 'x', '+'], ['0', 'X', '+']], ∀ rest,
      word ≠ mark ++ rest := by
    rintro mark hmark rest rfl
    rw [isSigned_of_eq hmark (by rw [htext, List.append_assoc])] at hsign
    cases hsign
  split at h
  · rename_i hex hhex
    have hmark : ∃ x ∈ ['x', 'X'], word = '0' :: x :: hex := by
      rcases Option.or_eq_some_iff.1 hhex with hx | ⟨-, hx⟩
      · exact ⟨'x', by simp, Text.cutStart?_eq_some_iff.1 hx⟩
      · exact ⟨'X', by simp, Text.cutStart?_eq_some_iff.1 hx⟩
    obtain ⟨x, hx, rfl⟩ := hmark
    have hplus : ∀ rest, hex ≠ '+' :: rest := by
      rintro rest rfl
      refine hnosign ['0', x, '+'] ?_ rest rfl
      simpa using hx
    obtain ⟨digits, hne, hdigits, hvalue⟩ := unsigned?_eq_some (by decide) h hplus
    exact ⟨16, ['0', x], hex, suffix, digits, Or.inr ⟨rfl, by simpa using hx⟩, hsuffix, htext, hne,
      hdigits, hvalue⟩
  · obtain ⟨digits, hne, hdigits, hvalue⟩ :=
      unsigned?_eq_some (by decide) h (hnosign ['+'] (by simp))
    exact ⟨10, [], word, suffix, digits, Or.inl ⟨rfl, rfl⟩, hsuffix, htext, hne, hdigits, hvalue⟩

/-- A word that is read as a number is a literal, if it has no sign. -/
theorem isLiteral_of_integerLiteral? {text : String} {value : Nat}
    (h : Text.integerLiteral? text = some value) (hsign : isSigned text.toList = false) :
    IsLiteral text value := by
  have hfits : Fits value := by
    unfold Text.integerLiteral? at h
    dsimp only at h
    split at h <;> exact Text.unsigned?_fits h
  obtain ⟨base, mark, body, suffix, digits, hbase, hsuffix, htext, hne, hdigits, hvalue⟩ :=
    integerLiteral?_eq_some h hsign
  have hlower : ∀ suffix ∈ [[], ['u'], ['U']], suffix.map Char.toLower ∈ [[], ['u']] := by decide
  refine ⟨hbase.imp ?_ ?_, hfits⟩
  · rintro ⟨rfl, rfl⟩
    exact ⟨digits, _, hlower suffix hsuffix, hne, hdigits.below,
      by rw [htext, List.nil_append, List.map_append, hdigits.lower, List.nil_append], hvalue⟩
  · rintro ⟨rfl, hmark⟩
    have hzero : ∀ mark ∈ [['0', 'x'], ['0', 'X']], mark.map Char.toLower = ['0', 'x'] := by decide
    exact ⟨digits, _, hlower suffix hsuffix, hne, hdigits.below,
      by rw [htext, List.map_append, List.map_append, hzero mark hmark, hdigits.lower], hvalue⟩

/-- Such a word is one number of a source. -/
theorem proper_of_integerLiteral? {text : String} {value : Nat}
    (h : Text.integerLiteral? text = some value) (hsign : isSigned text.toList = false) :
    (Lexeme.number text).Proper := by
  obtain ⟨base, mark, body, suffix, digits, hbase, hsuffix, htext, hne, hdigits, -⟩ :=
    integerLiteral?_eq_some h hsign
  have hinner : ∀ c ∈ body ++ suffix, inNumber c := by
    intro c hc
    rcases List.mem_append.1 hc with hc | hc
    · simp [inNumber, hdigits.alphanum c hc]
    · have hall : ∀ suffix ∈ [[], ['u'], ['U']], ∀ c ∈ suffix, inNumber c := by decide
      exact hall suffix hsuffix c hc
  rcases hbase with ⟨rfl, rfl⟩ | ⟨rfl, hmark⟩
  · cases body with
    | nil => exact absurd (List.map_eq_nil_iff.1 hdigits.lower.symm) hne
    | cons c body =>
      exact ⟨c, body ++ suffix, htext, hdigits.decimal (by decide) c List.mem_cons_self,
        fun d hd => hinner d (List.mem_cons_of_mem _ hd)⟩
  · obtain ⟨x, hx, rfl⟩ : ∃ x, inNumber x ∧ mark = ['0', x] := by
      simp only [List.mem_cons, List.not_mem_nil, or_false] at hmark
      rcases hmark with rfl | rfl
      · exact ⟨'x', by decide, rfl⟩
      · exact ⟨'X', by decide, rfl⟩
    exact ⟨'0', x :: (body ++ suffix), htext, by decide, List.forall_mem_cons.2 ⟨hx, hinner⟩⟩

/-- An identifier is no number. -/
theorem integerLiteral?_of_isIdentifier {text : String} (h : IsIdentifier text) :
    Text.integerLiteral? text = none := by
  refine Option.eq_none_iff_forall_ne_some.2 fun value hvalue => ?_
  obtain ⟨c, rest, htext, hc, -⟩ := h
  have hnosign : isSigned text.toList = false := by
    have hplus : '+' ≠ c := by
      rintro rfl
      exact absurd hc (by decide)
    have hzero : '0' ≠ c := by
      rintro rfl
      exact absurd hc (by decide)
    simp [isSigned, htext, Text.cutStart?, hplus, hzero]
  obtain ⟨d, rest', htext', hd, -⟩ := proper_of_integerLiteral? hvalue hnosign
  rw [htext] at htext'
  obtain ⟨rfl, -⟩ := List.cons.inj htext'
  exact not_startsWord_of_isDigit hd hc

theorem proper_lexeme {c : Char} {rest : List Char} {digits : String}
    (h : (lexeme c rest).1 = .number digits) : (Lexeme.number digits).Proper := by
  unfold lexeme at h
  split at h
  · cases h
  · split at h
    · rename_i hc
      obtain rfl := Lexeme.number.inj h
      exact ⟨c, rest.takeWhile inNumber, String.toList_ofList, hc,
        fun d hd => List.mem_takeWhile_imp hd⟩
    · cases h

theorem plain_lexeme {c mark : Char} {rest : List Char} (h : (lexeme c rest).1 = .punct mark) :
    ¬ startsWord mark ∧ ¬ mark.isDigit := by
  unfold lexeme at h
  split at h
  · cases h
  · rename_i hword
    split at h
    · cases h
    · rename_i hdigit
      obtain rfl := Lexeme.punct.inj h
      exact ⟨hword, hdigit⟩

/-- Each token of a text is cut off at some place of it. -/
theorem exists_lexeme {line column : Nat} {fresh : Bool} {lead text : List Char} {token : Token}
    (h : token ∈ tokensOf (itemsFrom line column fresh lead text)) :
    ∃ c rest, (lexeme c rest).1 = token.lexeme := by
  fun_induction itemsFrom line column fresh lead text with
  | case1 => cases h
  | case2 _ _ _ _ _ ih => exact ih h
  | case3 _ _ _ _ _ _ _ _ ih => exact ih h
  | case4 _ _ _ _ _ _ _ _ _ _ _ ih => exact ih h
  | case5 _ _ _ _ _ _ _ _ _ _ _ ih =>
    rw [tokensOf_cons] at h
    rcases List.mem_cons.1 h with rfl | h
    · exact ⟨_, _, rfl⟩
    · exact ih h

/-- The numbers of a text are digits and what may stand behind them. -/
theorem proper_of_number {line column : Nat} {fresh : Bool} {lead text : List Char} {token : Token}
    {digits : String} (h : token ∈ tokensOf (itemsFrom line column fresh lead text))
    (hl : token.lexeme = .number digits) : (Lexeme.number digits).Proper := by
  obtain ⟨c, rest, hlexeme⟩ := exists_lexeme h
  exact proper_lexeme (hlexeme.trans hl)

/-- A number of a source has no sign. -/
theorem isSigned_of_proper {digits : String} (h : (Lexeme.number digits).Proper) :
    isSigned digits.toList = false := by
  obtain ⟨c, rest, htext, hc, hrest⟩ := h
  have hplus : '+' ∉ digits.toList := by
    rw [htext, List.mem_cons, not_or]
    refine ⟨?_, fun hm => absurd (hrest '+' hm) (by decide)⟩
    rintro rfl
    exact absurd hc (by decide)
  refine Bool.eq_false_iff.2 fun hsigned => hplus ?_
  obtain ⟨mark, hmark, hcut⟩ := List.any_eq_true.1 hsigned
  obtain ⟨behind, hcut⟩ := Option.isSome_iff_exists.1 hcut
  rw [Text.cutStart?_eq_some_iff.1 hcut]
  refine List.mem_append_left _ ?_
  simp only [List.mem_cons, List.not_mem_nil, or_false] at hmark
  rcases hmark with rfl | rfl | rfl <;> simp

/-- A mark that is no digit is no number. -/
theorem integerLiteral?_of_mark {c : Char} (h : ¬ c.isDigit) :
    Text.integerLiteral? c.toString = none := by
  by_cases hplus : c = '+'
  · subst hplus
    decide
  · refine Option.eq_none_iff_forall_ne_some.2 fun value hvalue => ?_
    have htext : c.toString.toList = [c] := by simp
    have hnosign : isSigned c.toString.toList = false := by
      have hsign : '+' ≠ c := Ne.symm hplus
      simp [isSigned, Text.cutStart?, hsign]
    obtain ⟨d, rest, hd, hdigit, -⟩ := proper_of_integerLiteral? hvalue hnosign
    rw [htext] at hd
    obtain ⟨rfl, -⟩ := List.cons.inj hd
    exact h hdigit

end Source

end UniformLayout
