import UniformLayout.Proofs.Source.Group
import UniformLayout.Proofs.Source.Passing
import Mathlib.Data.List.Infix

/-!
# Function bodies

The body of a function is a group outside of all others. What stands in it does not matter to what is
read of a source, with one exception: a constant that is defined in a body counts for the whole source.

* `TopGroup`: a group at the top level, as the text has it.
* `statement_tally`: two readings that differ in such a group take each step alike.

Main statement: `read_around`.
-/

namespace UniformLayout

namespace Source

open Logged

variable {swap : Swap} {groups : Nat} {scope scope' : Scope} {cursor cursor' : Cursor}
  {tokens tokens' : List Token} {line line' : Nat}

/-! ## Attributes -/

/-- The value of an attribute, as it is written. -/
def valueText (inside : List Token) (close : Token) : List Char :=
  inside.flatMap (fun token => token.lead ++ token.text.toList) ++ close.lead

theorem valueText_onLine (inside : List Token) (close : Token) :
    valueText (inside.map Token.onLine) close.onLine = valueText inside close := by
  rw [valueText, valueText, List.flatMap_map]
  rfl

/-- A bracket that closes is found in front of what follows it. -/
theorem splitAtBracket_append {front : List Token}
    (h : .punct ']' ∈ front.map Token.lexeme) :
    ∃ inside close behind, front = inside ++ close :: behind ∧
      ∀ rest, splitAtBracket (front ++ rest) = some (inside, close, behind ++ rest) := by
  induction front with
  | nil => cases h
  | cons token front ih =>
    by_cases hc : token.lexeme = .punct ']'
    · exact ⟨[], token, front, rfl, fun rest => by simp [splitAtBracket, hc]⟩
    · obtain hrest : Lexeme.punct ']' ∈ front.map Token.lexeme :=
        (List.mem_cons.1 h).resolve_left (Ne.symm hc)
      obtain ⟨inside, close, behind, rfl, hsplit⟩ := ih hrest
      refine ⟨token :: inside, close, behind, rfl, fun rest => ?_⟩
      rw [List.cons_append, splitAtBracket, if_neg hc, hsplit]
      rfl

theorem splitAtBracket_onLine (tokens : List Token) :
    splitAtBracket (tokens.map Token.onLine) =
      (splitAtBracket tokens).map fun (inside, close, behind) =>
        (inside.map Token.onLine, close.onLine, behind.map Token.onLine) := by
  induction tokens with
  | nil => rfl
  | cons token rest ih =>
    by_cases hc : token.lexeme = .punct ']'
    · have hc' : token.onLine.lexeme = .punct ']' := hc
      simp [splitAtBracket, hc, hc']
    · have hc' : token.onLine.lexeme ≠ .punct ']' := hc
      simp only [List.map_cons, splitAtBracket, if_neg hc, if_neg hc', ih, Option.map_map]
      rfl

/-- The brackets of an attribute are found in both readings or in neither, around the same value. -/
theorem splitAtBracket_near {text : String} (h : swap.Near (fun front =>
      Within swap 0 (.punct '[' :: .word text :: .punct ':' :: front)) tokens tokens') :
    (splitAtBracket tokens = none ∧ splitAtBracket tokens' = none) ∨
      ∃ inside inside' close close' behind behind',
        splitAtBracket tokens = some (inside, close, behind) ∧
          splitAtBracket tokens' = some (inside', close', behind') ∧
          valueText inside close = valueText inside' close' ∧ close.line = close'.line ∧
          swap.Near (Within swap 0) behind behind' := by
  rcases h with ⟨front, hfront, rfl, rfl⟩ | ⟨hfirst, hsecond, hsame⟩
  · have hclosed : .punct ']' ∈ front.map Token.lexeme := by
      simpa [inAttribute] using hfront.noAttribute _ (List.suffix_refl _)
    obtain ⟨inside, close, behind, rfl, hsplit⟩ := splitAtBracket_append hclosed
    refine Or.inr ⟨inside, inside, close, close, _, _, hsplit _, hsplit _, rfl, rfl,
      Or.inl ⟨behind, ?_, rfl, rfl⟩⟩
    rw [List.map_append, List.map_cons] at hfront
    exact hfront.next.next.next.behind.next
  · have hmap := congrArg splitAtBracket hsame
    rw [splitAtBracket_onLine, splitAtBracket_onLine] at hmap
    cases hs : splitAtBracket tokens with
    | none =>
      cases hs' : splitAtBracket tokens' with
      | none => exact Or.inl ⟨rfl, rfl⟩
      | some found =>
        rw [hs, hs'] at hmap
        cases hmap
    | some found =>
      cases hs' : splitAtBracket tokens' with
      | none =>
        rw [hs, hs'] at hmap
        cases hmap
      | some found' =>
        obtain ⟨inside, close, behind⟩ := found
        obtain ⟨inside', close', behind'⟩ := found'
        simp only [hs, hs', Option.map_some, Option.some.injEq, Prod.mk.injEq] at hmap
        obtain ⟨hinside, hclose, hbehind⟩ := hmap
        refine Or.inr ⟨inside, inside', close, close', behind, behind', rfl, rfl, ?_,
          (Token.onLine_eq_iff.1 hclose).2.1, Or.inr ⟨(splitAtBracket_suffix hs).trans hfirst,
            (splitAtBracket_suffix hs').trans hsecond, hbehind⟩⟩
        rw [← valueText_onLine, hinside, hclose, valueText_onLine]

theorem attribute?_twin
    (h : swap.Near (fun front => Within swap 0 (.punct '[' :: front)) tokens tokens') :
    (attribute? tokens = none ∧ attribute? tokens' = none) ∨
      ∃ found final final', attribute? tokens = some (found, final) ∧
        attribute? tokens' = some (found, final') ∧ swap.Twin (Within swap 0) final final' := by
  rcases h.cases with ⟨rfl, rfl⟩ | ⟨name, name', rest, rest', rfl, rfl, hname, hrest⟩
  · exact Or.inl ⟨rfl, rfl⟩
  have hlexeme := (Token.onLine_eq_iff.1 hname).1
  by_cases hword : ∃ text, name.lexeme = .word text
  · obtain ⟨text, hword⟩ := hword
    rw [hword] at hrest hlexeme
    have hrest := hrest fun ho => by cases ho
    rcases hrest.cases with ⟨rfl, rfl⟩ | ⟨colon, colon', body, body', rfl, rfl, hcolon, hbody⟩
    · exact Or.inl ⟨rfl, rfl⟩
    have hlexeme' := (Token.onLine_eq_iff.1 hcolon).1
    by_cases hmark : colon.lexeme = .punct ':'
    · rw [hmark] at hbody hlexeme'
      simp only [attribute?, hword, ← hlexeme, hmark, ← hlexeme']
      rcases splitAtBracket_near (hbody fun ho => by cases ho) with
        ⟨hs, hs'⟩ | ⟨inside, inside', close, close', behind, behind', hs, hs', hvalue, hline, hbehind⟩
      · rw [hs, hs']
        exact Or.inl ⟨rfl, rfl⟩
      · rw [hs, hs']
        refine Or.inr ⟨⟨text, String.ofList (Text.trim (valueText inside close))⟩,
          ⟨close.line, behind⟩, ⟨close'.line, behind'⟩, rfl, ?_, ⟨hline, hbehind⟩⟩
        rw [hvalue]
        rfl
    · left
      simp [attribute?, hword, ← hlexeme, hmark, ← hlexeme']
  · left
    cases hn : name.lexeme with
    | word text => exact absurd ⟨text, hn⟩ hword
    | number text =>
      rw [hn] at hlexeme
      exact ⟨by cases rest <;> simp [attribute?, hn], by cases rest' <;> simp [attribute?, ← hlexeme]⟩
    | punct c =>
      rw [hn] at hlexeme
      exact ⟨by cases rest <;> simp [attribute?, hn], by cases rest' <;> simp [attribute?, ← hlexeme]⟩

/-! ## Statements -/

theorem struct_tally (hs : scope.Alike scope') (attributes : List Attribute)
    {keyword keyword' : Token} (hkeyword : keyword.onLine = keyword'.onLine) (name : String)
    (h : swap.Twin (Within swap 1) cursor cursor') :
    Tally swap Entry.onLine (Within swap 0) (struct scope attributes keyword name cursor)
      (struct scope' attributes keyword' name cursor') := by
  unfold struct
  refine (members_tally hs Within.steady (fun hf => absurd hf.groups_eq_zero Nat.one_ne_zero)
    (fun _ hf => hf.closed) (fun _ hf => hf.less (Nat.zero_le _)) _ h).bind ?_
  rintro ⟨fields, behind⟩ ⟨fields', behind'⟩ ⟨hfields, hbehind⟩
  dsimp only at hfields hbehind ⊢
  refine agree_pure ⟨?_, ?_⟩
  · simp [Entry.onLine, TypeDeclaration.onLine, hfields, Scope.locate_onLine hs.file hkeyword]
  · rcases hbehind.eat? (c := ';') (by decide) with ⟨he, he'⟩ | ⟨final, final', he, he', hfinal⟩
    · rw [he, he']
      exact hbehind
    · rw [he, he']
      exact hfinal.mono fun _ hf => hf.next

/-- The group that differs is no body of a struct. -/
theorem structHead?_twin
    (h : swap.Near (fun front => Within swap 0 (.word "struct" :: front)) tokens tokens') :
    (structHead? tokens = none ∧ structHead? tokens' = none) ∨
      ∃ name body body', structHead? tokens = some (name, body) ∧
        structHead? tokens' = some (name, body') ∧ swap.Twin (Within swap 1) body body' := by
  rcases h.cases with ⟨rfl, rfl⟩ | ⟨name, name', rest, rest', rfl, rfl, hname, hrest⟩
  · exact Or.inl ⟨rfl, rfl⟩
  have hlexeme := (Token.onLine_eq_iff.1 hname).1
  by_cases hword : ∃ text, name.lexeme = .word text
  · obtain ⟨text, hword⟩ := hword
    rw [hword] at hrest hlexeme
    have hrest := hrest fun ho => by cases ho
    rcases hrest.cases with ⟨rfl, rfl⟩ | ⟨brace, brace', body, body', rfl, rfl, hbrace, hbody⟩
    · exact Or.inl ⟨rfl, rfl⟩
    obtain ⟨hlexeme', hline, -⟩ := Token.onLine_eq_iff.1 hbrace
    by_cases hopen : brace.lexeme = .punct '{'
    · rw [hopen] at hbody hlexeme'
      have hbody := hbody fun _ hnil => hnil.noBody _ (List.suffix_refl _) rfl
      exact Or.inr ⟨text, ⟨brace.line, body⟩, ⟨brace'.line, body'⟩,
        by simp [structHead?, hword, hopen], by simp [structHead?, ← hlexeme, ← hlexeme'],
        hline, hbody.mono fun _ hf => hf.next.next.opened⟩
    · left
      simp [structHead?, hword, ← hlexeme, hopen, ← hlexeme']
  · left
    cases hn : name.lexeme with
    | word text => exact absurd ⟨text, hn⟩ hword
    | number text =>
      rw [hn] at hlexeme
      exact ⟨by cases rest <;> simp [structHead?, hn],
        by cases rest' <;> simp [structHead?, ← hlexeme]⟩
    | punct c =>
      rw [hn] at hlexeme
      exact ⟨by cases rest <;> simp [structHead?, hn],
        by cases rest' <;> simp [structHead?, ← hlexeme]⟩

/-- Outside all groups both readings take the same step, past the group that differs if they stand in
front of it. -/
theorem statement_tally (hs : scope.Alike scope') (pending : Pending)
    (h : swap.Twin (Within swap 0) cursor cursor') :
    Agree (Turns swap Entry.onLine (Within swap 0) (Within swap 0)) (statement scope pending cursor)
      (statement scope' pending cursor') := by
  have hdeclared : ∀ {x y : Reading (Entry × Cursor)}, Tally swap Entry.onLine (Within swap 0) x y →
      Agree (Turns swap Entry.onLine (Within swap 0) (Within swap 0)) (pending.turn <$> x)
        (pending.turn <$> y) := by
    intro x y hxy
    refine Agree.map hxy ?_
    rintro ⟨entry, next⟩ ⟨entry', next'⟩ ⟨hentry, hnext⟩
    have hafter : pending.after entry = pending.after entry' := by
      rw [← pending.after_onLine, hentry, pending.after_onLine]
    dsimp only [Pending.turn]
    rw [hafter]
    exact .again hentry hnext
  obtain ⟨line, tokens⟩ := cursor
  obtain ⟨line', tokens'⟩ := cursor'
  rcases h.rest.cases with ⟨he, he'⟩ | ⟨token, token', rest, rest', he, he', htoken, hrest⟩
  · dsimp only at he he'
    subst he he'
    exact agree_pure (.done h)
  dsimp only at he he'
  subst he he'
  obtain ⟨hlexeme, hline, -⟩ := Token.onLine_eq_iff.1 htoken
  have hpass : token.lexeme ≠ .punct '{' → ∀ pending : Pending,
      Agree (Turns swap Entry.onLine (Within swap 0) (Within swap 0))
        (pure (.again .nothing pending, ⟨token.line, rest⟩) :
          Reading (Cursor.Turn Pending Entry × Cursor))
        (pure (.again .nothing pending, ⟨token'.line, rest'⟩)) := fun ho _ =>
    agree_pure (.again rfl ⟨hline, (hrest fun hopen => absurd hopen ho).mono fun _ hf => hf.next⟩)
  rcases start_cases token.lexeme with hm | hm | hm | hm | hm | hm
  · rw [statement_struct _ _ _ hm, statement_struct _ _ _ (hlexeme ▸ hm)]
    have hpass := hpass (by simp [hm]) pending
    rw [hm] at hrest
    rcases structHead?_twin (hrest (by simp)) with ⟨hh, hh'⟩ | ⟨name, body, body', hh, hh', hbody⟩
    · rw [hh, hh']
      exact hpass
    · rw [hh, hh']
      exact hdeclared (struct_tally hs _ htoken name hbody)
  · rw [statement_word _ _ _ hm, statement_word _ _ _ (hlexeme ▸ hm)]
    exact hdeclared (uniformStatement_tally hs _ _ htoken hm h.rest)
  · rw [statement_attribute _ _ _ hm, statement_attribute _ _ _ (hlexeme ▸ hm)]
    have hpass := hpass (by simp [hm]) pending
    rw [hm] at hrest
    rcases attribute?_twin (hrest (by simp)) with ⟨ha, ha'⟩ | ⟨found, final, final', ha, ha', hfinal⟩
    · rw [ha, ha']
      exact hpass
    · rw [ha, ha']
      exact agree_pure (.again rfl hfinal)
  · rw [statement_group _ _ _ hm, statement_group _ _ _ (hlexeme ▸ hm)]
    exact agree_pure (.again rfl (group_twin hm h.rest hline))
  · rw [statement_end _ _ _ hm, statement_end _ _ _ (hlexeme ▸ hm)]
    exact hpass (by simp [hm]) _
  · rw [statement_passedOver _ _ _ hm, statement_passedOver _ _ _ (hlexeme ▸ hm)]
    exact hpass (hm.1 '{' (by decide)) pending

/-! ## Sources -/

/-- The text with the group is read alike whatever stands in the group, if the names stand for the same
numbers. -/
theorem entries_agree (key : String) {swap : Swap} {text text' : List Char} {front : List Token}
    (hfront : Within swap 0 (front.map Token.lexeme))
    (htokens : tokensOf (items (stripComments text)) = front ++ swap.first.tokens swap.opening)
    (htokens' : tokensOf (items (stripComments text')) = front ++ swap.second.tokens swap.opening)
    (hnumber : ∀ name, (constantsOf text).resolve? name = (constantsOf text').resolve? name)
    (hbrace : ∀ c ∈ ['{', '}'], (constantsOf text).resolve? c.toString = none) :
    Agree (fun list list' => list.map Entry.onLine = list'.map Entry.onLine)
      (SourceContents.entries key (String.ofList text))
      (SourceContents.entries key (String.ofList text')) := by
  have hs : Scope.Alike ⟨key, constantsOf text⟩ ⟨key, constantsOf text'⟩ :=
    ⟨rfl, hnumber, hbrace⟩
  unfold SourceContents.entries
  dsimp only
  rw [String.toList_ofList, String.toList_ofList, htokens, htokens']
  have hstart : swap.Twin (Within swap 0) ⟨0, front ++ swap.first.tokens swap.opening⟩
      ⟨0, front ++ swap.second.tokens swap.opening⟩ :=
    ⟨rfl, Or.inl ⟨front, hfront, rfl, rfl⟩⟩
  refine (loop_tally (fun _ hf => hf) (fun pending _ _ hc => statement_tally hs pending hc) {}
    hstart).bind ?_
  rintro ⟨list, final⟩ ⟨list', final'⟩ ⟨hlist, -⟩
  exact agree_pure hlist

/-- Entries that look alike add up to contents that look alike. -/
theorem read_agree (key : String) {text text' : String}
    (h : Agree (fun list list' => list.map Entry.onLine = list'.map Entry.onLine)
      (SourceContents.entries key text) (SourceContents.entries key text')) :
    Agree (fun contents contents' => contents.onLine = contents'.onLine)
      (SourceContents.read key text) (SourceContents.read key text') := by
  obtain ⟨hnotices, ⟨e, he, he'⟩ | ⟨list, list', hl, hl', hlist⟩⟩ := h
  · exact ⟨hnotices, Or.inl ⟨e, by simp [SourceContents.read, he, Except.map],
      by simp [SourceContents.read, he', Except.map]⟩⟩
  · refine ⟨hnotices, Or.inr ⟨_, _, by simp [SourceContents.read, hl, Except.map]; rfl,
      by simp [SourceContents.read, hl', Except.map]; rfl, ?_⟩⟩
    dsimp only
    rw [SourceContents.ofEntries_onLine, SourceContents.ofEntries_onLine, hlist,
      ← warningsOf_onLine, ← warningsOf_onLine, hnotices]

/-- A group behind the text stands outside all groups. It is neither the body of a struct or of a
uniform block nor a part of an attribute; and where it is a part of an initialiser it has no commas and
semicolons. Its own braces are balanced. -/
structure TopGroup (front body : List Char) : Prop where
  opens : InCode front
  closes : InCode (front ++ '{' :: body)
  outside : depth 0 (lexemesIn true front) = 0
  noBody : ∀ rest ∈ (lexemesIn true front).tails, ¬ opensBody rest
  noAttribute : ∀ rest ∈ (lexemesIn true front).tails, ¬ inAttribute rest
  plain : ∀ rest ∈ (lexemesIn true front).tails, inInitialiser rest →
    ∀ c ∈ [',', ';'], .punct c ∉ lexemesIn false body
  balanced : nesting? 0 (lexemesIn false body) = some 0

instance (front body : List Char) : Decidable (TopGroup front body) :=
  decidable_of_iff (InCode front ∧ InCode (front ++ '{' :: body) ∧
      depth 0 (lexemesIn true front) = 0 ∧
      (∀ rest ∈ (lexemesIn true front).tails, ¬ opensBody rest) ∧
      (∀ rest ∈ (lexemesIn true front).tails, ¬ inAttribute rest) ∧
      (∀ rest ∈ (lexemesIn true front).tails, inInitialiser rest →
        .punct ',' ∉ lexemesIn false body ∧ .punct ';' ∉ lexemesIn false body) ∧
      nesting? 0 (lexemesIn false body) = some 0)
    ⟨fun ⟨h₁, h₂, h₃, h₄, h₅, h₆, h₇⟩ => ⟨h₁, h₂, h₃, h₄, h₅, by simpa using h₆, h₇⟩,
      fun ⟨h₁, h₂, h₃, h₄, h₅, h₆, h₇⟩ => ⟨h₁, h₂, h₃, h₄, h₅, by simpa using h₆, h₇⟩⟩

/-- The group whose braces stand in the text as the two tokens. -/
def Group.ofText (opening closing : Token) (body back : List Char)
    (hclosing : closing.lexeme = .punct '}') (h : nesting? 0 (lexemesIn false body) = some 0) :
    Group where
  inner := tokensOf (itemsFrom opening.line (opening.column + 1) false [] (stripComments body))
  closing := closing
  behind := tokensOf (itemsFrom closing.line (closing.column + 1) false [] (stripComments back))
  closes := hclosing
  balanced := by
    rw [lexemes_itemsFrom]
    exact h

/-- Two texts that differ in a group at the top level have the same tokens in front of it, and groups
that one may stand in the place of the other. -/
theorem exists_swap {front body body' : List Char} (back : List Char) (h : TopGroup front body)
    (h' : TopGroup front body') (hlines : body.count '\n' = body'.count '\n') :
    ∃ (swap : Swap) (tokens : List Token), Within swap 0 (tokens.map Token.lexeme) ∧
      tokensOf (items (stripComments (around front body back))) =
        tokens ++ swap.first.tokens swap.opening ∧
      tokensOf (items (stripComments (around front body' back))) =
        tokens ++ swap.second.tokens swap.opening := by
  obtain ⟨opening, hopening, hgroup⟩ := items_group h.opens
  obtain ⟨closing, hclosing, hline, hitems⟩ := hgroup body h.closes
  obtain ⟨closing', hclosing', hline', hitems'⟩ := hgroup body' h'.closes
  have hsame : closing.line = closing'.line := by rw [hline, hline', hlines]
  refine ⟨⟨opening, .ofText opening closing body back hclosing h.balanced,
    .ofText opening closing' body' back hclosing' h'.balanced, hopening, hsame, ?_⟩,
    tokensOf (items (stripComments front)), ?_, ?_, ?_⟩
  · dsimp only [Group.ofText]
    rw [← tokensOf_onLine, ← tokensOf_onLine, hsame, itemsFrom_column]
  · refine ⟨h.outside, fun rest hr => h.noBody rest ((List.mem_tails _ _).2 hr),
      fun rest hr => h.noAttribute rest ((List.mem_tails _ _).2 hr), fun rest hr hi token hm c hc ht => ?_⟩
    have hrest := (List.mem_tails _ _).2 hr
    rcases List.mem_append.1 hm with hm | hm
    · refine h.plain rest hrest hi c hc ?_
      rw [← ht, ← lexemes_itemsFrom opening.line (opening.column + 1) false []]
      exact List.mem_map_of_mem hm
    · refine h'.plain rest hrest hi c hc ?_
      rw [← ht, ← lexemes_itemsFrom opening.line (opening.column + 1) false []]
      exact List.mem_map_of_mem hm
  · rw [hitems back, tokensOf_append, tokensOf_cons, tokensOf_append, tokensOf_cons]
    rfl
  · rw [hitems' back, tokensOf_append, tokensOf_cons, tokensOf_append, tokensOf_cons]
    rfl

end Source

open Source Logged

/-- What stands in a group at the top level does not change what is read, apart from columns, if it has
as many line feeds and leaves to all names the numbers they stand for. -/
theorem read_around (key : String) {front body body' : List Char} (back : List Char)
    (h : TopGroup front body) (h' : TopGroup front body')
    (hlines : body.count '\n' = body'.count '\n')
    (hnumber : ∀ name, (constantsOf (around front body back)).resolve? name =
      (constantsOf (around front body' back)).resolve? name)
    (hbrace : ∀ c ∈ ['{', '}'], (constantsOf (around front body back)).resolve? c.toString = none) :
    Agree (fun contents contents' => contents.onLine = contents'.onLine)
      (SourceContents.read key (String.ofList (around front body back)))
      (SourceContents.read key (String.ofList (around front body' back))) := by
  obtain ⟨swap, tokens, hwithin, htokens, htokens'⟩ := exists_swap back h h' hlines
  exact read_agree key (entries_agree key hwithin htokens htokens' hnumber hbrace)

/-- A source with a function in front of a struct. -/
def spreadSource (body : String) : List Char :=
  around "float spread()".toList body.toList
    "\nconst int N=2;\nstruct Kernel\x7bfloat taps[N];\x7d;".toList

/-- Another body with other groups and remarks in it, on as many lines. -/
theorem read_around_spread :
    TopGroup "float spread()".toList "\n  return 1.0;\n".toList ∧
      TopGroup "float spread()".toList "if (x) \x7b y; \x7d // \x7b\n struct S\n".toList ∧
      Agree (fun contents contents' => contents.onLine = contents'.onLine)
        (SourceContents.read "spread.frag" (String.ofList (spreadSource "\n  return 1.0;\n")))
        (SourceContents.read "spread.frag"
          (String.ofList (spreadSource "if (x) \x7b y; \x7d // \x7b\n struct S\n"))) := by
  have hshort : TopGroup "float spread()".toList "\n  return 1.0;\n".toList := by decide +kernel
  have hlong : TopGroup "float spread()".toList
      "if (x) \x7b y; \x7d // \x7b\n struct S\n".toList := by decide +kernel
  refine ⟨hshort, hlong, read_around "spread.frag" _ hshort hlong (by decide +kernel) (fun name => ?_)
    (List.forall_mem_cons.2 ⟨by decide +kernel, List.forall_mem_singleton.2 (by decide +kernel)⟩)⟩
  rw [constantsOf_around _ hshort.opens hshort.closes (by decide +kernel),
    constantsOf_around _ hlong.opens hlong.closes (by decide +kernel)]

/-- The array lengths of the fields of all declarations. -/
def arrayLengths (contents : SourceContents) : List (List (Option Nat)) :=
  contents.declarations.map fun decl => decl.fields.map (·.arrayLength)

theorem arrayLengths_onLine (contents : SourceContents) :
    arrayLengths contents.onLine = arrayLengths contents := by
  simp [arrayLengths, SourceContents.onLine, TypeDeclaration.onLine, FieldDeclaration.onLine,
    Function.comp_def]

/-- A constant that a function has for itself becomes the length of an array outside of it. -/
theorem spread_recounted :
    TopGroup "float spread()".toList "return 1.0;".toList ∧
      TopGroup "float spread()".toList "const int N=3;return 1.0;".toList ∧
      directivesIn false "const int N=3;return 1.0;".toList = [] ∧
      "return 1.0;".toList.count '\n' = "const int N=3;return 1.0;".toList.count '\n' ∧
      ¬ Agree (fun contents contents' => contents.onLine = contents'.onLine)
        (SourceContents.read "spread.frag" (String.ofList (spreadSource "return 1.0;")))
        (SourceContents.read "spread.frag"
          (String.ofList (spreadSource "const int N=3;return 1.0;"))) := by
  refine ⟨by decide +kernel, by decide +kernel, by decide +kernel, by decide +kernel, ?_⟩
  have hshort : (SourceContents.read "spread.frag"
      (String.ofList (spreadSource "return 1.0;"))).result.map arrayLengths = .ok [[some 2]] := by
    decide +kernel
  have hlong : (SourceContents.read "spread.frag" (String.ofList
      (spreadSource "const int N=3;return 1.0;"))).result.map arrayLengths = .ok [[some 3]] := by
    decide +kernel
  rintro ⟨-, ⟨e, he, -⟩ | ⟨contents, contents', hc, hc', hsame⟩⟩
  · rw [he] at hshort
    cases hshort
  · rw [hc] at hshort
    rw [hc'] at hlong
    have hlengths := congrArg arrayLengths hsame
    rw [arrayLengths_onLine, arrayLengths_onLine, Except.ok.inj hshort, Except.ok.inj hlong]
      at hlengths
    cases hlengths

end UniformLayout