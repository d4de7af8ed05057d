import UniformLayout.Proofs.Identity.Fingerprint
import UniformLayout.Source.Comment
import Mathlib.Data.List.Chain
import Mathlib.Data.List.TakeWhile

/-!
# Sources as they are written

A source is written as lexemes with fillers between them: spaces and comments, as many as one likes.
Two words or numbers that follow each other need a filler between them; next to a punctuation mark there
may be none. What is found in such a source are its lexemes, whatever the fillers are.

* `stripFrom_filler`: what blanking out the comments leaves of a filler.
* `text_induction`: a text is empty, or starts with a line feed, another space, a directive or a lexeme.
* `LexesTo`: the lexemes that are found in a text, wherever the text stands; one lemma for a space and
  one for a lexeme.

Main statement: `Script.lexesTo`.
-/

namespace UniformLayout.Source

open Text (isSpace)

/-- What is said of the characters of a list is decided one by one, not by going through all characters
that there are. -/
instance (priority := high) decidableForallMem {p : Char → Prop} [DecidablePred p]
    (list : List Char) : Decidable (∀ c ∈ list, p c) :=
  List.decidableBAll p list

/-! ## Fillers -/

/-- What may stand between two lexemes. The line feed that ends a line comment belongs to it. -/
inductive Filler where
  | blank (c : Char) (space : isSpace c)
  | line (body : List Char) (inside : '\n' ∉ body)
  | block (body : List Char) (inside : ¬ ['*', '/'] <:+: body)

namespace Filler

def text : Filler → List Char
  | .blank c _ => [c]
  | .line body _ => '/' :: '/' :: (body ++ ['\n'])
  | .block body _ => '/' :: '*' :: (body ++ ['*', '/'])

/-- What is left of the filler without its comment. -/
def blanks : Filler → List Char
  | .blank c _ => [c]
  | .line _ _ => [' ', '\n']
  | .block body _ => body.filter (· = '\n') ++ [' ']

theorem blanks_ne_nil (filler : Filler) : filler.blanks ≠ [] := by
  cases filler <;> simp [blanks]

theorem isSpace_of_mem_blanks {filler : Filler} {c : Char} (h : c ∈ filler.blanks) : isSpace c := by
  cases filler with
  | blank d space =>
    obtain rfl := List.mem_singleton.1 h
    exact space
  | line body _ =>
    simp only [blanks, List.mem_cons, List.not_mem_nil, or_false] at h
    rcases h with rfl | rfl <;> decide
  | block body _ =>
    simp only [blanks, List.mem_append, List.mem_filter, decide_eq_true_eq, List.mem_singleton] at h
    rcases h with ⟨-, rfl⟩ | rfl <;> decide

end Filler

theorem stripFrom_of_ne_slash {c : Char} (h : c ≠ '/') (rest : List Char) :
    stripFrom .code (c :: rest) = c :: stripFrom .code rest := by
  rw [stripFrom]
  · exact fun _ hc _ => h hc
  · exact fun _ hc _ => h hc

theorem stripFrom_append {text : List Char} (h : '/' ∉ text) (rest : List Char) :
    stripFrom .code (text ++ rest) = text ++ stripFrom .code rest := by
  induction text with
  | nil => rfl
  | cons c text ih =>
    rw [List.mem_cons, not_or] at h
    obtain ⟨hc, htext⟩ := h
    rw [List.cons_append, stripFrom_of_ne_slash (Ne.symm hc), ih htext, List.cons_append]

theorem stripFrom_lineComment {body : List Char} (h : '\n' ∉ body) (rest : List Char) :
    stripFrom .lineComment (body ++ rest) = stripFrom .lineComment rest := by
  induction body with
  | nil => rfl
  | cons c body ih =>
    rw [List.mem_cons, not_or] at h
    obtain ⟨hc, hbody⟩ := h
    rw [List.cons_append, stripFrom, if_neg (Ne.symm hc), ih hbody]

/-- The star that is remembered inside a comment counts as a part of its body. -/
theorem stripFrom_body {afterStar : Bool} {body : List Char}
    (h : ¬ ['*', '/'] <:+: (if afterStar then '*' :: body else body)) :
    ∃ star, ∀ rest, stripFrom (.blockComment afterStar) (body ++ rest) =
      body.filter (· = '\n') ++ stripFrom (.blockComment star) rest := by
  induction body generalizing afterStar with
  | nil => exact ⟨afterStar, fun _ => rfl⟩
  | cons c body ih =>
    have hrest : ¬ ['*', '/'] <:+: c :: body := by
      intro hin
      apply h
      cases afterStar with
      | false => exact hin
      | true => exact List.infix_cons hin
    have hbody : ¬ ['*', '/'] <:+: body := fun hin => hrest (List.infix_cons hin)
    by_cases hc : c = '\n'
    · subst hc
      obtain ⟨star, hstar⟩ := @ih false (by simpa using hbody)
      refine ⟨star, fun rest => ?_⟩
      rw [List.cons_append, stripFrom, if_pos rfl, hstar]
      simp
    · have hopen : ¬ (afterStar = true ∧ c = '/') := by
        rintro ⟨rfl, rfl⟩
        exact h ⟨[], body, rfl⟩
      have hnext : ¬ ['*', '/'] <:+: (if decide (c = '*') then '*' :: body else body) := by
        by_cases hstar : c = '*'
        · subst hstar
          simpa using hrest
        · simpa [hstar] using hbody
      obtain ⟨star, hstar⟩ := ih hnext
      refine ⟨star, fun rest => ?_⟩
      rw [List.cons_append, stripFrom, if_neg hc, if_neg hopen, hstar]
      simp [hc]

theorem stripFrom_closed {body : List Char} (h : ¬ ['*', '/'] <:+: body) (rest : List Char) :
    stripFrom (.blockComment false) (body ++ '*' :: '/' :: rest) =
      body.filter (· = '\n') ++ ' ' :: stripFrom .code rest := by
  obtain ⟨star, hstar⟩ := @stripFrom_body false body h
  simp [hstar, stripFrom]

theorem stripFrom_filler (filler : Filler) (rest : List Char) :
    stripFrom .code (filler.text ++ rest) = filler.blanks ++ stripFrom .code rest := by
  cases filler with
  | blank c space =>
    apply stripFrom_append
    rintro hc
    obtain rfl := List.mem_singleton.1 hc
    exact absurd space (by decide)
  | line body inside =>
    simp [Filler.text, Filler.blanks, stripFrom, stripFrom_lineComment inside]
  | block body inside =>
    simp [Filler.text, Filler.blanks, stripFrom, stripFrom_closed inside]

theorem stripFrom_fillers (gap : List Filler) (rest : List Char) :
    stripFrom .code (gap.flatMap Filler.text ++ rest) =
      gap.flatMap Filler.blanks ++ stripFrom .code rest := by
  induction gap with
  | nil => rfl
  | cons filler gap ih =>
    rw [List.flatMap_cons, List.append_assoc, stripFrom_filler, ih, List.flatMap_cons,
      List.append_assoc]

theorem isSpace_of_mem_gap {gap : List Filler} {c : Char} (h : c ∈ gap.flatMap Filler.blanks) :
    isSpace c := by
  obtain ⟨filler, -, hc⟩ := List.mem_flatMap.1 h
  exact Filler.isSpace_of_mem_blanks hc

/-! ## Lexemes -/

/-- The punctuation of declarations. -/
def marks : List Char := ['{', '}', '(', ')', '[', ']', ',', ';', '=']

namespace Lexeme

/-- A lexeme as declarations have them. -/
def Proper : Lexeme → Prop
  | .word text => IsIdentifier text
  | .number text => ∃ c rest, text.toList = c :: rest ∧ c.isDigit ∧ ∀ d ∈ rest, inNumber d
  | .punct c => c ∈ marks

@[simp] theorem proper_word {text : String} : (Lexeme.word text).Proper ↔ IsIdentifier text :=
  Iff.rfl

@[simp] theorem proper_punct {c : Char} : (Lexeme.punct c).Proper ↔ c ∈ marks :=
  Iff.rfl

def isMark : Lexeme → Bool
  | .punct _ => true
  | _ => false

/-- Behind the lexeme, the character would be read as a part of it. -/
def continues : Lexeme → Char → Bool
  | .word _ => inWord
  | .number _ => inNumber
  | .punct _ => fun _ => false

end Lexeme

theorem inNumber_of_isDigit {c : Char} (h : c.isDigit) : inNumber c := by
  unfold inNumber Char.isAlphanum
  simp [h]

theorem not_startsWord_of_isDigit {c : Char} (h : c.isDigit) : ¬ startsWord c := by
  intro hw
  unfold startsWord Char.isAlpha Char.isUpper Char.isLower at hw
  unfold Char.isDigit at h
  simp only [Bool.or_eq_true, Bool.and_eq_true, decide_eq_true_eq, beq_iff_eq, ge_iff_le,
    UInt32.le_iff_toNat_le] at hw h
  rcases hw with (⟨hw, -⟩ | ⟨hw, -⟩) | rfl
  · have := h.2
    simp at hw this
    omega
  · have := h.2
    simp at hw this
    omega
  · exact absurd h (by decide)

theorem marks_plain {c : Char} (h : c ∈ marks) : isSpace c = false ∧ c ≠ '#' ∧ c ≠ '/' ∧
    inWord c = false ∧ inNumber c = false ∧ startsWord c = false ∧ c.isDigit = false := by
  simp only [marks, List.mem_cons, List.not_mem_nil, or_false] at h
  rcases h with rfl | rfl | rfl | rfl | rfl | rfl | rfl | rfl | rfl <;> decide

theorem isSpace_plain {c : Char} (h : isSpace c) : inWord c = false ∧ inNumber c = false := by
  simp only [isSpace, Bool.or_eq_true, beq_iff_eq] at h
  rcases h with (((rfl | rfl) | rfl) | rfl) | rfl <;> decide

theorem Lexeme.not_continues {lexeme : Lexeme} {c : Char} (hw : inWord c = false)
    (hn : inNumber c = false) : lexeme.continues c = false := by
  cases lexeme with
  | word text => exact hw
  | number text => exact hn
  | punct mark => rfl

theorem takeWhile_of_stop {p : Char → Bool} {body rest : List Char} (hbody : ∀ c ∈ body, p c)
    (hrest : ∀ c ∈ rest.head?, p c = false) :
    (body ++ rest).takeWhile p = body ∧ (body ++ rest).dropWhile p = rest := by
  rw [List.takeWhile_append_of_pos hbody, List.dropWhile_append_of_pos hbody]
  cases rest with
  | nil => exact ⟨List.append_nil body, rfl⟩
  | cons c rest =>
    have hc := hrest c rfl
    simp [hc]

theorem Lexeme.continues_of_isMark {lexeme : Lexeme} (h : lexeme.isMark) (c : Char) :
    lexeme.continues c = false := by
  cases lexeme with
  | word text => cases h
  | number text => cases h
  | punct mark => rfl

/-- What goes on with a lexeme is no space and starts neither a directive nor a comment. -/
theorem Lexeme.plain_of_continues {lexeme : Lexeme} {c : Char} (h : lexeme.continues c) :
    isSpace c = false ∧ c ≠ '#' ∧ c ≠ '/' := by
  have hplain : ¬ (inWord c = false ∧ inNumber c = false) := by
    rintro ⟨hw, hn⟩
    rw [not_continues hw hn] at h
    cases h
  refine ⟨?_, ?_, ?_⟩
  · by_contra hs
    exact hplain (isSpace_plain (Bool.of_not_eq_false hs))
  · rintro rfl
    exact hplain (by decide)
  · rintro rfl
    exact hplain (by decide)

/-- The lexeme goes on with `body` behind `c`, up to `tail`, and it would do so in front of any other
text that does not go on with it. -/
structure Lexeme.Takes (found : Lexeme) (c : Char) (body tail : List Char) : Prop where
  text : found.text.toList = c :: body
  plain : ∀ d ∈ body, isSpace d = false
  stops : ∀ d ∈ tail.head?, found.continues d = false
  again : ∀ more : List Char, (∀ d ∈ more.head?, found.continues d = false) →
    lexeme c (body ++ more) = (found, more)

theorem Lexeme.Takes.append_mark {found : Lexeme} {c mark : Char} {body tail : List Char}
    (h : found.Takes c body tail) (hm : mark ∈ marks) (rest : List Char) :
    lexeme c (body ++ (tail ++ mark :: rest)) = (found, tail ++ mark :: rest) := by
  apply h.again
  cases tail with
  | nil =>
    intro d hd
    obtain rfl := Option.some.inj hd
    obtain ⟨-, -, -, hword, hnumber, -⟩ := marks_plain hm
    exact Lexeme.not_continues hword hnumber
  | cons e tail => exact h.stops

theorem lexeme_takes (c : Char) (rest : List Char) :
    ∃ body, rest = body ++ (lexeme c rest).2 ∧
      (lexeme c rest).1.Takes c body (lexeme c rest).2 := by
  have hstop : ∀ p : Char → Bool, ∀ d ∈ (rest.dropWhile p).head?, p d = false := by
    intro p d hd
    have hhead := List.head?_dropWhile_not p rest
    rwa [Option.mem_def.1 hd] at hhead
  by_cases hword : startsWord c
  · have hbody : ∀ d ∈ rest.takeWhile inWord, inWord d := fun d => List.mem_takeWhile_imp
    have hfound : lexeme c rest =
        (.word (String.ofList (c :: rest.takeWhile inWord)), rest.dropWhile inWord) := by
      rw [lexeme, if_pos hword]
    rw [hfound]
    refine ⟨rest.takeWhile inWord, List.takeWhile_append_dropWhile.symm, String.toList_ofList,
      fun d hd => (@Lexeme.plain_of_continues (.word "") d (hbody d hd)).1, hstop inWord,
      fun more hmore => ?_⟩
    obtain ⟨htake, hdrop⟩ := takeWhile_of_stop hbody hmore
    rw [lexeme, if_pos hword, htake, hdrop]
  · by_cases hdigit : c.isDigit
    · have hbody : ∀ d ∈ rest.takeWhile inNumber, inNumber d := fun d => List.mem_takeWhile_imp
      have hfound : lexeme c rest =
          (.number (String.ofList (c :: rest.takeWhile inNumber)), rest.dropWhile inNumber) := by
        rw [lexeme, if_neg hword, if_pos hdigit]
      rw [hfound]
      refine ⟨rest.takeWhile inNumber, List.takeWhile_append_dropWhile.symm, String.toList_ofList,
        fun d hd => (@Lexeme.plain_of_continues (.number "") d (hbody d hd)).1, hstop inNumber,
        fun more hmore => ?_⟩
      obtain ⟨htake, hdrop⟩ := takeWhile_of_stop hbody hmore
      rw [lexeme, if_neg hword, if_pos hdigit, htake, hdrop]
    · have hfound : ∀ more, lexeme c more = (.punct c, more) := fun more => by
        rw [lexeme, if_neg hword, if_neg hdigit]
      rw [hfound]
      exact ⟨[], rfl, by simp [Lexeme.text], by simp, fun _ _ => rfl, fun more _ => hfound more⟩

/-- A lexeme starts with a character that is no space and starts no directive, and it is read up to
where it ends. -/
theorem Lexeme.Proper.start {found : Lexeme} (h : found.Proper) :
    ∃ c body, found.text.toList = c :: body ∧ isSpace c = false ∧ c ≠ '#' ∧
      ∀ rest : List Char, (∀ d ∈ rest.head?, found.continues d = false) →
        lexeme c (body ++ rest) = (found, rest) := by
  cases found with
  | word text =>
    obtain ⟨c, body, ht, hc, hbody⟩ := h
    obtain ⟨hspace, hhash, -⟩ :=
      @Lexeme.plain_of_continues (.word text) c (inWord_of_startsWord hc)
    refine ⟨c, body, ht, hspace, hhash, fun rest hrest => ?_⟩
    obtain ⟨htake, hdrop⟩ := takeWhile_of_stop (p := inWord) hbody hrest
    rw [lexeme, if_pos hc, htake, hdrop, ← ht, String.ofList_toList]
  | number text =>
    obtain ⟨c, body, ht, hc, hbody⟩ := h
    obtain ⟨hspace, hhash, -⟩ :=
      @Lexeme.plain_of_continues (.number text) c (inNumber_of_isDigit hc)
    refine ⟨c, body, ht, hspace, hhash, fun rest hrest => ?_⟩
    obtain ⟨htake, hdrop⟩ := takeWhile_of_stop (p := inNumber) hbody hrest
    rw [lexeme, if_neg (not_startsWord_of_isDigit hc), if_pos hc, htake, hdrop, ← ht,
      String.ofList_toList]
  | punct c =>
    obtain ⟨hspace, hhash, -, -, -, hstart, hdigit⟩ := marks_plain h
    refine ⟨c, [], by simp [Lexeme.text], hspace, hhash, fun rest _ => ?_⟩
    simp [lexeme, hstart, hdigit]

theorem Lexeme.Proper.no_slash {found : Lexeme} (h : found.Proper) :
    '/' ∉ found.text.toList := by
  intro hm
  cases found with
  | word text =>
    exact (@Lexeme.plain_of_continues (.word text) _ (IsIdentifier.inWord h _ hm)).2.2 rfl
  | number text =>
    obtain ⟨c, body, ht, hc, hbody⟩ := h
    have hall : ∀ d ∈ c :: body, inNumber d :=
      List.forall_mem_cons.2 ⟨inNumber_of_isDigit hc, hbody⟩
    exact (@Lexeme.plain_of_continues (.number text) _ (hall _ (ht ▸ hm))).2.2 rfl
  | punct c =>
    have hc : c = '/' := by simpa [Lexeme.text, eq_comm] using hm
    exact (marks_plain h).2.2.1 hc

theorem Lexeme.Proper.start_of_isMark {found : Lexeme} (h : found.Proper) (hm : found.isMark)
    {c : Char} {body : List Char} (ht : found.text.toList = c :: body) :
    inWord c = false ∧ inNumber c = false := by
  cases found with
  | word text => cases hm
  | number text => cases hm
  | punct mark =>
    obtain rfl : mark = c := by simpa [Lexeme.text, eq_comm] using congrArg List.head? ht
    have hplain := marks_plain h
    exact ⟨hplain.2.2.2.1, hplain.2.2.2.2.1⟩

/-! ## Items

What is read next depends on the first character that is left: it is a line feed or another space, or it
starts a directive, which goes on to the end of its line, or a lexeme. -/

/-- A text at the end of a line. -/
def LineEnd (text : List Char) : Prop := ∀ c ∈ text.head?, c = '\n'

theorem lineEnd_dropWhile (text : List Char) : LineEnd (text.dropWhile (· != '\n')) := by
  intro c hc
  have hhead := List.head?_dropWhile_not (· != '\n') text
  rw [Option.mem_def.1 hc] at hhead
  simpa using hhead

theorem LineEnd.append {text rest : List Char} (h : LineEnd text) (hrest : LineEnd rest) :
    LineEnd (text ++ rest) := by
  cases text with
  | nil => exact hrest
  | cons c text => exact h

theorem count_newline_append {body : List Char} (h : '\n' ∉ body) (rest : List Char) :
    (body ++ rest).count '\n' = rest.count '\n' := by
  rw [List.count_append, List.count_eq_zero_of_not_mem h, Nat.zero_add]

theorem ne_newline_of_plain {c : Char} (h : isSpace c = false) : c ≠ '\n' := by
  rintro rfl
  exact absurd h (by decide)

/-- A lexeme stands on one line. -/
theorem Lexeme.Takes.newline_not_mem {found : Lexeme} {c : Char} {body tail : List Char}
    (h : found.Takes c body tail) : '\n' ∉ body :=
  fun hm => ne_newline_of_plain (h.plain _ hm) rfl

theorem Lexeme.Takes.eq {found : Lexeme} {c : Char} {body tail : List Char}
    (h : found.Takes c body tail) : lexeme c (body ++ tail) = (found, tail) :=
  h.again tail h.stops

section Items

variable {c : Char} {found : Lexeme} {body rest : List Char} {fresh : Bool}

theorem itemsFrom_feed (line column : Nat) (fresh : Bool) (lead rest : List Char) :
    itemsFrom line column fresh lead ('\n' :: rest) =
      itemsFrom (line + 1) 1 true (lead ++ ['\n']) rest := by
  rw [itemsFrom, if_pos rfl]

theorem itemsFrom_space (hfeed : c ≠ '\n') (h : isSpace c) (line column : Nat) (fresh : Bool)
    (lead rest : List Char) : itemsFrom line column fresh lead (c :: rest) =
      itemsFrom line (column + 1) fresh (lead ++ [c]) rest := by
  rw [itemsFrom, if_neg hfeed, if_pos h]

theorem itemsFrom_directive (hbody : '\n' ∉ body) (hrest : LineEnd rest) (line column : Nat)
    (lead : List Char) : itemsFrom line column true lead ('#' :: (body ++ rest)) =
      .directive ('#' :: body) :: itemsFrom line column true (lead ++ '#' :: body) rest := by
  obtain ⟨htake, hdrop⟩ := @takeWhile_of_stop (· != '\n') body rest
    (fun c hc => bne_iff_ne.2 fun heq => hbody (heq ▸ hc)) (fun c hc => by rw [hrest c hc]; rfl)
  rw [itemsFrom, if_neg (by decide), if_neg (by decide), if_pos ⟨rfl, rfl⟩]
  simp only [htake, hdrop]

theorem itemsFrom_lexeme (hspace : isSpace c = false) (hhash : ¬ (c = '#' ∧ fresh))
    {tail : List Char} (h : lexeme c rest = (found, tail)) (line column : Nat) (lead : List Char) :
    itemsFrom line column fresh lead (c :: rest) = .token ⟨found, line, column, lead⟩ ::
      itemsFrom line (column + found.text.utf8ByteSize) false [] tail := by
  rw [itemsFrom, if_neg (ne_newline_of_plain hspace), if_neg (by simp [hspace]), if_neg hhash]
  simp only [h]

/-- Induction on what is read one after the other. `fresh` says that the line holds no token yet. -/
@[elab_as_elim]
theorem text_induction {motive : Bool → List Char → Prop} (nil : ∀ fresh, motive fresh [])
    (feed : ∀ fresh rest, motive true rest → motive fresh ('\n' :: rest))
    (space : ∀ fresh c rest, c ≠ '\n' → isSpace c → motive fresh rest → motive fresh (c :: rest))
    (directive : ∀ body rest, '\n' ∉ body → LineEnd rest → motive true rest →
      motive true ('#' :: (body ++ rest)))
    (lexeme : ∀ (fresh : Bool) c found body rest, isSpace c = false → ¬ (c = '#' ∧ fresh) →
      Lexeme.Takes found c body rest → motive false rest → motive fresh (c :: (body ++ rest)))
    (fresh : Bool) (text : List Char) : motive fresh text := by
  refine itemsFrom.induct (motive := fun _ _ fresh _ text => motive fresh text) ?_ ?_ ?_ ?_ ?_
    1 1 fresh [] text
  · exact fun _ _ fresh _ => nil fresh
  · exact fun _ _ fresh _ rest ih => feed fresh rest ih
  · exact fun _ _ fresh _ c rest hfeed hspace ih => space fresh c rest hfeed hspace ih
  · rintro _ _ _ _ _ rest - - ⟨rfl, rfl⟩ - _ ih
    have hline : '\n' ∉ rest.takeWhile (· != '\n') := fun hm =>
      absurd (List.mem_takeWhile_imp hm) (by decide)
    have h := directive _ _ hline (lineEnd_dropWhile rest) ih
    rwa [List.takeWhile_append_dropWhile] at h
  · intro _ _ fresh _ c rest _ hspace hhash _ _ ih
    obtain ⟨body, hbody, htakes⟩ := lexeme_takes c rest
    have h := lexeme fresh c _ body _ (Bool.not_eq_true _ ▸ hspace) hhash htakes ih
    rwa [← hbody] at h

end Items

/-! ## Texts -/

/-- The lexemes that are found in the text, wherever it stands. -/
def LexesTo (text : List Char) (lexemes : List Lexeme) : Prop :=
  ∀ line column fresh lead,
    (tokensOf (itemsFrom line column fresh lead text)).map Token.lexeme = lexemes

theorem lexesTo_nil : LexesTo [] [] := by
  intro line column fresh lead
  rw [itemsFrom_nil]
  rfl

theorem LexesTo.space {c : Char} {text : List Char} {lexemes : List Lexeme}
    (h : LexesTo text lexemes) (hc : isSpace c) : LexesTo (c :: text) lexemes := by
  intro line column fresh lead
  by_cases hfeed : c = '\n'
  · subst hfeed
    rw [itemsFrom_feed]
    exact h _ _ _ _
  · rw [itemsFrom_space hfeed hc]
    exact h _ _ _ _

theorem LexesTo.spaces {blanks text : List Char} {lexemes : List Lexeme}
    (h : LexesTo text lexemes) (hb : ∀ c ∈ blanks, isSpace c) :
    LexesTo (blanks ++ text) lexemes := by
  induction blanks with
  | nil => exact h
  | cons c blanks ih =>
    obtain ⟨hc, hblanks⟩ := List.forall_mem_cons.1 hb
    exact (ih hblanks).space hc

theorem LexesTo.cons {found : Lexeme} {text : List Char} {lexemes : List Lexeme}
    (h : LexesTo text lexemes) (hp : found.Proper)
    (hstop : ∀ c ∈ text.head?, found.continues c = false) :
    LexesTo (found.text.toList ++ text) (found :: lexemes) := by
  intro line column fresh lead
  obtain ⟨c, body, ht, hspace, hhash, hlexeme⟩ := hp.start
  rw [ht, List.cons_append, itemsFrom_lexeme hspace (fun hdirective => hhash hdirective.1)
    (hlexeme text hstop)]
  exact congrArg (found :: ·) (h _ _ _ _)

/-! ## Scripts -/

/-- A lexeme with what is written in front of it. -/
structure Piece where
  gap : List Filler
  lexeme : Lexeme

namespace Piece

def text (piece : Piece) : List Char :=
  piece.gap.flatMap Filler.text ++ piece.lexeme.text.toList

/-- Two words or numbers do not run together. -/
def Apart (piece next : Piece) : Prop :=
  next.gap ≠ [] ∨ piece.lexeme.isMark ∨ next.lexeme.isMark

instance (piece next : Piece) : Decidable (piece.Apart next) :=
  inferInstanceAs (Decidable (_ ∨ _))

end Piece

/-- A source as it is written. Behind the last lexeme there may be fillers again, and at the very end
a line comment that no line feed ends. -/
structure Script where
  pieces : List Piece
  apart : pieces.IsChain Piece.Apart
  ending : List Filler := []
  remark : Option {body : List Char // '\n' ∉ body} := none

namespace Script

def lexemes (script : Script) : List Lexeme := script.pieces.map Piece.lexeme

/-- What stands behind the last lexeme. -/
def tail (script : Script) : List Char :=
  script.ending.flatMap Filler.text ++
    script.remark.elim [] fun remark => '/' :: '/' :: remark.val

def text (script : Script) : List Char := script.pieces.flatMap Piece.text ++ script.tail

/-- Any lexemes can be written, for instance with a space in front of each. -/
theorem exists_lexemes_eq (lexemes : List Lexeme) : ∃ script : Script, script.lexemes = lexemes := by
  let spaced (lexeme : Lexeme) : Piece := ⟨[.blank ' ' rfl], lexeme⟩
  have hapart : (lexemes.map spaced).IsChain Piece.Apart := by
    apply List.Pairwise.isChain
    rw [List.pairwise_map]
    exact List.pairwise_of_forall fun _ _ => Or.inl (List.cons_ne_nil _ _)
  refine ⟨{ pieces := lexemes.map spaced, apart := hapart }, ?_⟩
  simp [Script.lexemes, spaced, Function.comp_def]

theorem isSpace_of_mem_tail {script : Script} {c : Char} (h : c ∈ stripFrom .code script.tail) :
    isSpace c := by
  rw [tail, stripFrom_fillers] at h
  rcases List.mem_append.1 h with h | h
  · exact isSpace_of_mem_gap h
  · cases hr : script.remark with
    | none =>
      rw [hr] at h
      cases h
    | some remark =>
      have hstrip : stripFrom .lineComment remark.val = [] := by
        simpa [stripFrom] using stripFrom_lineComment remark.property []
      rw [hr, Option.elim_some, stripFrom, hstrip, List.mem_singleton] at h
      rw [h]
      decide

end Script

theorem stripFrom_piece {piece : Piece} (h : piece.lexeme.Proper) (rest : List Char) :
    stripFrom .code (piece.text ++ rest) =
      piece.gap.flatMap Filler.blanks ++ (piece.lexeme.text.toList ++ stripFrom .code rest) := by
  rw [Piece.text, List.append_assoc, stripFrom_fillers, stripFrom_append h.no_slash]

/-- The lexemes of pieces in front of a text without any. -/
theorem lexesTo_pieces {pieces : List Piece} {tail : List Char}
    (hp : ∀ piece ∈ pieces, piece.lexeme.Proper) (hapart : pieces.IsChain Piece.Apart)
    (ht : ∀ c ∈ stripFrom .code tail, isSpace c) :
    LexesTo (stripFrom .code (pieces.flatMap Piece.text ++ tail)) (pieces.map Piece.lexeme) := by
  induction pieces with
  | nil => simpa using lexesTo_nil.spaces ht
  | cons piece pieces ih =>
    obtain ⟨hpiece, hpieces⟩ := List.forall_mem_cons.1 hp
    rw [List.flatMap_cons, List.append_assoc, stripFrom_piece hpiece, List.map_cons]
    refine ((ih hpieces hapart.tail).cons hpiece ?_).spaces fun _ hc => isSpace_of_mem_gap hc
    have hblank : ∀ c, isSpace c → piece.lexeme.continues c = false := fun c hc =>
      Lexeme.not_continues (isSpace_plain hc).1 (isSpace_plain hc).2
    cases pieces with
    | nil => exact fun c hc => hblank c (ht c (List.mem_of_mem_head? hc))
    | cons next pieces =>
      have hnext := hpieces next List.mem_cons_self
      rw [List.flatMap_cons, List.append_assoc, stripFrom_piece hnext]
      intro c hc
      cases hgap : next.gap.flatMap Filler.blanks with
      | cons d blanks =>
        rw [hgap] at hc
        obtain rfl : d = c := by simpa using hc
        apply hblank
        exact isSpace_of_mem_gap (hgap ▸ List.mem_cons_self)
      | nil =>
        have hnone : next.gap = [] := by
          rw [List.flatMap_eq_nil_iff] at hgap
          exact List.eq_nil_iff_forall_not_mem.2 fun filler hm =>
            filler.blanks_ne_nil (hgap filler hm)
        obtain ⟨d, body, hd, -⟩ := hnext.start
        rw [hgap, hd] at hc
        obtain rfl : d = c := by simpa using hc
        rcases hapart.rel with hsome | hmark | hmark
        · exact absurd hnone hsome
        · exact Lexeme.continues_of_isMark hmark _
        · obtain ⟨hw, hn⟩ := hnext.start_of_isMark hmark hd
          exact Lexeme.not_continues hw hn

/-- What is found in a script is its lexemes. -/
theorem Script.lexesTo {script : Script} (h : ∀ lexeme ∈ script.lexemes, lexeme.Proper) :
    LexesTo (stripComments script.text) script.lexemes := by
  apply lexesTo_pieces
  · intro piece hm
    exact h _ (List.mem_map_of_mem hm)
  · exact script.apart
  · exact fun c hc => isSpace_of_mem_tail hc

end UniformLayout.Source
