import UniformLayout.Proofs.Source.Writing

/-!
# Comments and lines

A text is read as signs: characters that are kept, characters that belong to a comment, and places
where a comment ends. Blanking out the comments leaves the kept characters and the line feeds, and puts
one space in where a comment ends, so that each line and each token stays where it was.

* `exists_readAs`, `ReadAs.unique`: every text is read in exactly one way.
* `splitOn_flatMap`: the lines of a text are those of its signs.
* `ReadAs.word`: a word that is found behind the comments is a stretch of kept characters.

Main statement: `stripComments_keeps_lines`.
-/

namespace UniformLayout.Source

open Text (isSpace)

/-! ## Comments -/

/-- A comment starts here. -/
def OpensComment (text : List Char) : Prop := ['/', '/'] <+: text ∨ ['/', '*'] <+: text

theorem not_opensComment_nil : ¬ OpensComment [] := by
  rintro (h | h) <;> cases List.prefix_nil.1 h

/-- A comment and the text behind it. The line feed behind a line comment does not belong to it, and a
block comment that is never closed goes on to the end. -/
inductive Comment : List Char → List Char → Prop where
  | line {body rest : List Char} (inside : '\n' ∉ body) (stop : ∀ c ∈ rest.head?, c = '\n') :
    Comment ('/' :: '/' :: body) rest
  | block {body : List Char} (inside : ¬ ['*', '/'] <:+: body) (rest : List Char) :
    Comment ('/' :: '*' :: (body ++ ['*', '/'])) rest
  | unclosed {body : List Char} (inside : ¬ ['*', '/'] <:+: body) :
    Comment ('/' :: '*' :: body) []

/-- Either nothing closes the comment, or there is a first place where it is closed. -/
theorem closed_or_not (text : List Char) : ¬ ['*', '/'] <:+: text ∨
    ∃ body rest, text = body ++ '*' :: '/' :: rest ∧ ¬ ['*', '/'] <:+: body := by
  induction text with
  | nil => exact .inl (by simp)
  | cons c text ih =>
    by_cases hstart : ['*', '/'] <+: c :: text
    · obtain ⟨rest, hrest⟩ := hstart
      exact .inr ⟨[], rest, hrest.symm, by simp⟩
    · rcases ih with hopen | ⟨body, rest, rfl, hbody⟩
      · exact .inl fun hin => (List.infix_cons_iff.1 hin).elim hstart hopen
      · refine .inr ⟨c :: body, rest, rfl, fun hin => ?_⟩
        rcases List.infix_cons_iff.1 hin with hfirst | hin
        · exact hstart (hfirst.trans (List.prefix_append (c :: body) _))
        · exact hbody hin

/-- Of two places where a comment is closed, the one without a closer in front of it is not the later
one. -/
theorem length_body_le {body body' tail tail' : List Char} (h : ¬ ['*', '/'] <:+: body')
    (he : body ++ '*' :: '/' :: tail = body' ++ '*' :: '/' :: tail') : body'.length ≤ body.length := by
  rcases List.append_eq_append_iff.1 he with ⟨more, rfl, hmore⟩ | ⟨more, rfl, -⟩
  · match more with
    | [] => simp
    | [d] =>
      obtain ⟨-, hslash⟩ := List.cons.inj hmore
      cases hslash
    | d :: e :: more =>
      obtain ⟨hd, hmore⟩ := List.cons.inj hmore
      obtain ⟨hslash, -⟩ := List.cons.inj hmore
      subst hd hslash
      exact absurd ⟨body, more, by simp⟩ h
  · simp

namespace Comment

variable {span rest span' rest' : List Char}

theorem opens (h : Comment span rest) : OpensComment (span ++ rest) := by
  cases h with
  | line => exact .inl ⟨_, rfl⟩
  | block => exact .inr ⟨_, rfl⟩
  | unclosed => exact .inr ⟨_, rfl⟩

/-- A text starts with at most one comment. -/
theorem unique (h : Comment span rest) (h' : Comment span' rest')
    (he : span ++ rest = span' ++ rest') : span = span' ∧ rest = rest' := by
  refine List.append_inj he ?_
  cases h with
  | @line body _ inside stop =>
    cases h' with
    | @line body' _ inside' stop' =>
      have hbodies : body ++ rest = body' ++ rest' := by simpa using he
      have hfound : ∀ {body rest : List Char}, '\n' ∉ body → (∀ c ∈ rest.head?, c = '\n') →
          (body ++ rest).takeWhile (· != '\n') = body := fun hin hstop =>
        (takeWhile_of_stop (fun c hc => by simpa using ne_of_mem_of_not_mem hc hin)
          (fun c hc => by simpa using hstop c hc)).1
      have hsame : body = body' := by
        rw [← hfound inside stop, hbodies, hfound inside' stop']
      rw [hsame]
    | block => simp at he
    | unclosed => simp at he
  | @block body inside =>
    cases h' with
    | line => simp at he
    | @block body' inside' =>
      have hbodies : body ++ '*' :: '/' :: rest = body' ++ '*' :: '/' :: rest' := by simpa using he
      have hlength : body.length = body'.length :=
        Nat.le_antisymm (length_body_le inside hbodies.symm) (length_body_le inside' hbodies)
      simp [hlength]
    | @unclosed body' inside' =>
      have hbodies : body ++ '*' :: '/' :: rest = body' := by simpa using he
      exact absurd ⟨body, rest, by simpa using hbodies⟩ inside'
  | @unclosed body inside =>
    cases h' with
    | line => simp at he
    | @block body' inside' =>
      have hbodies : body = body' ++ '*' :: '/' :: rest' := by simpa using he
      exact absurd ⟨body', rest', by simpa using hbodies.symm⟩ inside
    | unclosed => simpa using congrArg List.length he

/-- Of a comment, the line feeds and one space are left. -/
theorem strip (h : Comment span rest) :
    stripFrom .code (span ++ rest) = span.filter (· = '\n') ++ ' ' :: stripFrom .code rest := by
  cases h with
  | @line body _ inside stop =>
    have hnone : ('/' :: '/' :: body).filter (· = '\n') = [] :=
      List.filter_eq_nil_iff.2 fun c hc => by
        rintro hfeed
        obtain rfl := of_decide_eq_true hfeed
        simp [inside] at hc
    have hrest : stripFrom .lineComment rest = stripFrom .code rest := by
      cases rest with
      | nil => rfl
      | cons c rest =>
        obtain rfl := stop c rfl
        simp [stripFrom]
    rw [hnone, List.cons_append, List.cons_append, stripFrom, stripFrom_lineComment inside, hrest]
    rfl
  | @block body inside =>
    simp [stripFrom, stripFrom_closed inside]
  | @unclosed body inside =>
    obtain ⟨star, hstar⟩ := @stripFrom_body false body inside
    have hend := hstar []
    rw [List.append_nil] at hend
    simp [stripFrom, hend]

end Comment

/-! ## Signs -/

/-- What a text is made of: characters that are kept or dropped, and the ends of comments. -/
inductive Sign where
  | kept (c : Char)
  | dropped (c : Char)
  | ending
  deriving DecidableEq, Repr

namespace Sign

/-- What stands in the text. -/
def source : Sign → List Char
  | kept c => [c]
  | dropped c => [c]
  | ending => []

/-- What is left without the comments: of a comment its line feeds, and a space where it ends. -/
def left : Sign → List Char
  | kept c => [c]
  | dropped c => if c = '\n' then [c] else []
  | ending => [' ']

/-- The sign is a line feed. -/
def breaks (sign : Sign) : Bool := sign.source == ['\n']

end Sign

/-- The signs of a text. -/
inductive ReadAs : List Char → List Sign → Prop where
  | nil : ReadAs [] []
  | code {c : Char} {rest : List Char} {signs : List Sign} (plain : ¬ OpensComment (c :: rest))
    (behind : ReadAs rest signs) : ReadAs (c :: rest) (.kept c :: signs)
  | comment {span rest : List Char} {signs : List Sign} (found : Comment span rest)
    (behind : ReadAs rest signs) :
    ReadAs (span ++ rest) (span.map Sign.dropped ++ .ending :: signs)

theorem exists_comment {text : List Char} (h : OpensComment text) :
    ∃ span rest, text = span ++ rest ∧ rest.length < text.length ∧ Comment span rest := by
  rcases h with ⟨text, rfl⟩ | ⟨text, rfl⟩
  · have hsplit := List.takeWhile_append_dropWhile (p := (· != '\n')) (l := text)
    refine ⟨'/' :: '/' :: text.takeWhile (· != '\n'), text.dropWhile (· != '\n'), ?_, ?_,
      .line (fun hm => ?_) fun c hc => ?_⟩
    · simp [hsplit]
    · have := length_dropWhile_le (· != '\n') text
      simp only [List.length_append, List.length_cons]
      omega
    · simpa using List.mem_takeWhile_imp hm
    · have hstop := List.head?_dropWhile_not (· != '\n') text
      rw [Option.mem_def.1 hc] at hstop
      simpa using hstop
  · rcases closed_or_not text with hopen | ⟨body, rest, rfl, hbody⟩
    · exact ⟨'/' :: '*' :: text, [], by simp, by simp, .unclosed hopen⟩
    · refine ⟨_, rest, ?_, ?_, .block hbody rest⟩
      · simp
      · simp only [List.length_append, List.length_cons]
        omega

/-- Every text is read. The induction is on its length, since a comment is read at once. -/
theorem exists_readAs (text : List Char) : ∃ signs, ReadAs text signs := by
  induction h : text.length using Nat.strongRecOn generalizing text with
  | ind n ih =>
    subst h
    by_cases hopens : OpensComment text
    · obtain ⟨span, rest, rfl, hlt, hcomment⟩ := exists_comment hopens
      obtain ⟨signs, hsigns⟩ := ih _ hlt rest rfl
      exact ⟨_, .comment hcomment hsigns⟩
    · cases text with
      | nil => exact ⟨[], .nil⟩
      | cons c rest =>
        obtain ⟨signs, hsigns⟩ := ih _ (Nat.lt_succ_self _) rest rfl
        exact ⟨_, .code hopens hsigns⟩

/-- Where a comment starts nothing else is read. -/
theorem stripFrom_of_not_opens {c : Char} {rest : List Char} (h : ¬ OpensComment (c :: rest)) :
    stripFrom .code (c :: rest) = c :: stripFrom .code rest := by
  rw [stripFrom]
  · rintro _ rfl rfl
    exact h (.inl ⟨_, rfl⟩)
  · rintro _ rfl rfl
    exact h (.inr ⟨_, rfl⟩)

/-- What is left of a comment. -/
def blanksOf (span : List Char) : List Char := span.filter (· = '\n') ++ [' ']

theorem isSpace_of_mem_blanksOf {span : List Char} {c : Char} (h : c ∈ blanksOf span) : isSpace c := by
  rcases List.mem_append.1 h with hfeed | hspace
  · obtain rfl := of_decide_eq_true (List.mem_filter.1 hfeed).2
    decide
  · obtain rfl := List.mem_singleton.1 hspace
    decide

theorem flatMap_left_comment (span : List Char) (signs : List Sign) :
    (span.map Sign.dropped ++ .ending :: signs).flatMap Sign.left =
      blanksOf span ++ signs.flatMap Sign.left := by
  have hspan : (span.map Sign.dropped).flatMap Sign.left = span.filter (· = '\n') := by
    induction span with
    | nil => rfl
    | cons c span ih =>
      rw [List.map_cons, List.flatMap_cons, ih, Sign.left, List.filter_cons]
      by_cases hc : c = '\n' <;> simp [hc]
  rw [List.flatMap_append, hspan, blanksOf, List.append_assoc]
  rfl

namespace ReadAs

variable {text : List Char} {signs : List Sign}

/-- There is only one way to read a text. -/
theorem unique (h : ReadAs text signs) : ∀ other, ReadAs text other → other = signs := by
  induction h with
  | nil =>
    intro other ho
    generalize he : ([] : List Char) = text at ho
    cases ho with
    | nil => rfl
    | code => cases he
    | comment found => exact absurd (he ▸ found.opens) not_opensComment_nil
  | @code c rest signs plain _ ih =>
    intro other ho
    generalize he : c :: rest = text at ho
    cases ho with
    | nil => cases he
    | code _ behind =>
      obtain ⟨rfl, rfl⟩ := List.cons.inj he
      rw [ih _ behind]
    | comment found =>
      exact absurd (he ▸ found.opens) plain
  | @comment span rest signs found _ ih =>
    intro other ho
    generalize he : span ++ rest = text at ho
    cases ho with
    | nil => exact absurd (he ▸ found.opens) not_opensComment_nil
    | code plain => exact absurd (he ▸ found.opens) plain
    | comment found' behind =>
      obtain ⟨rfl, rfl⟩ := found.unique found' he
      rw [ih _ behind]

theorem flatMap_source (h : ReadAs text signs) : signs.flatMap Sign.source = text := by
  induction h with
  | nil => rfl
  | code _ _ ih => simpa [Sign.source] using ih
  | @comment span rest signs _ _ ih =>
    have hspan : (span.map Sign.dropped).flatMap Sign.source = span := by
      simp [List.flatMap_map, Sign.source]
    rw [List.flatMap_append, hspan]
    simpa [Sign.source] using ih

theorem flatMap_left (h : ReadAs text signs) : signs.flatMap Sign.left = stripComments text := by
  unfold stripComments
  induction h with
  | nil => rfl
  | code plain _ ih =>
    rw [stripFrom_of_not_opens plain, ← ih]
    rfl
  | comment found _ ih =>
    rw [found.strip, ← ih, flatMap_left_comment, blanksOf, List.append_assoc]
    rfl

end ReadAs

/-! ## Lines -/

theorem splitOn_append_of_notMem {sep : Char} {front : List Char} (h : sep ∉ front)
    (back : List Char) :
    (front ++ back).splitOn sep = (back.splitOn sep).modifyHead (front ++ ·) := by
  induction front with
  | nil => exact (congrFun List.modifyHead_id _).symm
  | cons c front ih =>
    rw [List.mem_cons, not_or] at h
    obtain ⟨hc, hfront⟩ := h
    rw [List.cons_append, List.splitOn_cons_eq_if_modifyHead, if_neg (by simpa using Ne.symm hc),
      ih hfront, List.modifyHead_modifyHead]
    rfl

/-- A text that is put together from pieces has the lines of its pieces, if the pieces that are no
separators have none inside. -/
theorem splitOn_flatMap {α : Type} {sep : Char} {p : α → Bool} {f : α → List Char}
    (hsep : ∀ a, p a → f a = [sep]) (hother : ∀ a, ¬ p a → sep ∉ f a) (l : List α) :
    (l.flatMap f).splitOn sep = (l.splitOnP p).map (List.flatMap f) := by
  induction l with
  | nil => simp
  | cons a l ih =>
    rw [List.splitOnP_cons_eq_if_modifyHead]
    by_cases ha : p a
    · rw [if_pos ha, List.flatMap_cons, hsep a ha, List.singleton_append,
        List.splitOn_cons_eq_if_modifyHead, if_pos (beq_self_eq_true sep), ih]
      rfl
    · obtain ⟨first, lines, hlines⟩ := List.exists_cons_of_ne_nil (List.splitOnP_ne_nil p l)
      rw [if_neg ha, List.flatMap_cons, splitOn_append_of_notMem (hother a ha), ih, hlines]
      rfl

namespace Sign

theorem source_of_breaks {sign : Sign} (h : sign.breaks) : sign.source = ['\n'] :=
  eq_of_beq h

theorem left_of_breaks {sign : Sign} (h : sign.breaks) : sign.left = ['\n'] := by
  have hsource := source_of_breaks h
  cases sign with
  | kept c => exact hsource
  | dropped c =>
    obtain rfl : c = '\n' := List.head_eq_of_cons_eq hsource
    rfl
  | ending => cases hsource

theorem notMem_source {sign : Sign} (h : ¬ sign.breaks) : '\n' ∉ sign.source := by
  intro hm
  apply h
  cases sign with
  | kept c =>
    obtain rfl := List.mem_singleton.1 hm
    rfl
  | dropped c =>
    obtain rfl := List.mem_singleton.1 hm
    rfl
  | ending => cases hm

theorem notMem_left {sign : Sign} (h : ¬ sign.breaks) : '\n' ∉ sign.left := by
  cases sign with
  | kept c => exact notMem_source h
  | dropped c =>
    have hc : c ≠ '\n' := by
      rintro rfl
      exact h rfl
    simp [left, hc]
  | ending => decide

end Sign

/-! ## Openers -/

/-- No comment starts in the text. -/
def NoOpener (text : List Char) : Prop := ∀ back, back <:+ text → ¬ OpensComment back

theorem noOpener_cons {c : Char} {text : List Char} :
    NoOpener (c :: text) ↔ ¬ OpensComment (c :: text) ∧ NoOpener text := by
  simp only [NoOpener, List.suffix_cons_iff, forall_eq_or_imp]

theorem stripComments_of_noOpener {text : List Char} (h : NoOpener text) :
    stripComments text = text := by
  unfold stripComments
  induction text with
  | nil => rfl
  | cons c text ih =>
    obtain ⟨hplain, htext⟩ := noOpener_cons.1 h
    rw [stripFrom_of_not_opens hplain, ih htext]

theorem noOpener_append {blanks text : List Char} (h : '/' ∉ blanks) (ht : NoOpener text) :
    NoOpener (blanks ++ text) := by
  induction blanks with
  | nil => exact ht
  | cons c blanks ih =>
    rw [List.mem_cons, not_or] at h
    obtain ⟨hc, hblanks⟩ := h
    refine noOpener_cons.2 ⟨?_, ih hblanks⟩
    rintro (⟨_, he⟩ | ⟨_, he⟩)
    · exact hc (List.head_eq_of_cons_eq he)
    · exact hc (List.head_eq_of_cons_eq he)

namespace ReadAs

variable {text : List Char} {signs : List Sign}

/-- What comes first without the comments came first with them, if it is no space. -/
theorem head_of_left (h : ReadAs text signs) {c : Char} {rest : List Char}
    (he : signs.flatMap Sign.left = c :: rest) (hc : isSpace c = false) :
    ∃ behind, text = c :: behind ∧ ∃ signs', signs = .kept c :: signs' ∧ ReadAs behind signs' := by
  cases h with
  | nil => cases he
  | code _ behind =>
    obtain ⟨rfl, -⟩ := List.cons.inj he
    exact ⟨_, rfl, _, rfl, behind⟩
  | @comment span _ signs' =>
    rw [flatMap_left_comment] at he
    have hm : c ∈ blanksOf span := by
      cases hb : blanksOf span with
      | nil => simp [blanksOf] at hb
      | cons d blanks =>
        rw [hb] at he
        obtain ⟨rfl, -⟩ := List.cons.inj he
        exact List.mem_cons_self
    rw [isSpace_of_mem_blanksOf hm] at hc
    cases hc

/-- No comment starts in what is left: what stands behind a slash stood behind it before, or is the
space of a comment. -/
theorem noOpener_left (h : ReadAs text signs) : NoOpener (signs.flatMap Sign.left) := by
  induction h with
  | nil =>
    intro back hb
    obtain rfl := List.suffix_nil.1 hb
    exact not_opensComment_nil
  | @code c rest signs plain behind ih =>
    refine noOpener_cons.2 ⟨fun hopens => plain ?_, ih⟩
    have hkept : ∀ d, isSpace d = false → [c, d] <+: c :: signs.flatMap Sign.left →
        [c, d] <+: c :: rest := by
      rintro d hd ⟨_, he⟩
      obtain ⟨_, rfl, -⟩ := behind.head_of_left (List.cons.inj he).2.symm hd
      exact ⟨_, rfl⟩
    rcases hopens with hline | hblock
    · obtain rfl : '/' = c := List.head_eq_of_cons_eq hline.choose_spec
      exact .inl (hkept '/' (by decide) hline)
    · obtain rfl : '/' = c := List.head_eq_of_cons_eq hblock.choose_spec
      exact .inr (hkept '*' (by decide) hblock)
  | @comment span _ _ _ _ ih =>
    rw [flatMap_left_comment]
    exact noOpener_append (fun hm => absurd (isSpace_of_mem_blanksOf hm) (by decide)) ih

/-! ## Words -/

theorem word_first (h : ReadAs text signs) {word post : List Char}
    (he : signs.flatMap Sign.left = word ++ post) (hw : ∀ c ∈ word, isSpace c = false) :
    ∃ after, signs = word.map Sign.kept ++ after ∧ after.flatMap Sign.left = post := by
  induction word generalizing text signs with
  | nil => exact ⟨signs, rfl, he⟩
  | cons c word ih =>
    obtain ⟨hc, hword⟩ := List.forall_mem_cons.1 hw
    obtain ⟨behind, -, signs', rfl, hbehind⟩ := h.head_of_left he hc
    obtain ⟨after, rfl, hafter⟩ := ih hbehind (List.cons.inj he).2 hword
    exact ⟨after, rfl, hafter⟩

/-- A word without a space inside is a stretch of kept characters. -/
theorem word (h : ReadAs text signs) {pre word post : List Char}
    (he : signs.flatMap Sign.left = pre ++ (word ++ post)) (hw : ∀ c ∈ word, isSpace c = false)
    (hne : word ≠ []) : ∃ before after, signs = before ++ (word.map Sign.kept ++ after) ∧
      before.flatMap Sign.left = pre ∧ after.flatMap Sign.left = post := by
  induction h generalizing pre with
  | nil =>
    simp at he
    exact absurd he.2.1 hne
  | @code c rest signs plain behind ih =>
    cases pre with
    | nil =>
      rw [List.nil_append] at he
      obtain ⟨after, hsigns, hafter⟩ := (ReadAs.code plain behind).word_first he hw
      exact ⟨[], after, hsigns, rfl, hafter⟩
    | cons d pre =>
      obtain ⟨rfl, hrest⟩ := List.cons.inj he
      have hleft : signs.flatMap Sign.left = pre ++ (word ++ post) := hrest
      obtain ⟨before, after, rfl, rfl, hafter⟩ := ih hleft
      exact ⟨.kept c :: before, after, rfl, rfl, hafter⟩
  | @comment span rest signs found behind ih =>
    -- the space of the comment is in front of the word
    have hpre : ∃ pre', pre = blanksOf span ++ pre' ∧
        signs.flatMap Sign.left = pre' ++ (word ++ post) := by
      rw [flatMap_left_comment] at he
      rcases List.append_eq_append_iff.1 he with ⟨pre', hpre, hbehind⟩ | ⟨more, hblanks, hbehind⟩
      · exact ⟨pre', hpre, hbehind⟩
      · cases more with
        | nil => exact ⟨[], by simpa using hblanks.symm, hbehind.symm⟩
        | cons c more =>
          obtain ⟨d, word, rfl⟩ := List.exists_cons_of_ne_nil hne
          obtain rfl : d = c := List.head_eq_of_cons_eq hbehind
          have hm : d ∈ blanksOf span := by simp [hblanks]
          have hspace := isSpace_of_mem_blanksOf hm
          rw [hw d List.mem_cons_self] at hspace
          cases hspace
    obtain ⟨pre', rfl, hbehind⟩ := hpre
    obtain ⟨before, after, rfl, rfl, hafter⟩ := ih hbehind
    refine ⟨span.map Sign.dropped ++ .ending :: before, after, ?_, ?_, hafter⟩
    · simp
    · exact flatMap_left_comment span before

end ReadAs

/-! ## Tokens -/

/-- A token is a stretch of the text without spaces, its line is told by the line feeds in front of it,
and the text in front of it has the items in front of it. -/
theorem itemsFrom_eq_append {line column : Nat} {fresh : Bool} {lead text : List Char}
    {front back : List Item} {token : Token}
    (h : itemsFrom line column fresh lead text = front ++ .token token :: back) :
    ∃ pre post, text = pre ++ (token.text.toList ++ post) ∧
      token.text.toList ≠ [] ∧ (∀ c ∈ token.text.toList, isSpace c = false) ∧
      token.line = line + pre.count '\n' ∧ itemsFrom line column fresh lead pre = front := by
  induction fresh, text using text_induction generalizing line column lead front with
  | nil => simp at h
  | feed fresh rest ih =>
    rw [itemsFrom_feed] at h
    obtain ⟨pre, post, rfl, hne, hplain, hline, hfront⟩ := ih h
    refine ⟨'\n' :: pre, post, rfl, hne, hplain, ?_, ?_⟩
    · rw [hline, List.count_cons_self]
      omega
    · rwa [itemsFrom_feed]
  | space fresh c rest hfeed hspace ih =>
    rw [itemsFrom_space hfeed hspace] at h
    obtain ⟨pre, post, rfl, hne, hplain, hline, hfront⟩ := ih h
    refine ⟨c :: pre, post, rfl, hne, hplain, ?_, ?_⟩
    · rw [hline, List.count_cons_of_ne hfeed]
    · rwa [itemsFrom_space hfeed hspace]
  | directive body rest hbody hrest ih =>
    rw [itemsFrom_directive hbody hrest] at h
    cases front with
    | nil => simp at h
    | cons item front =>
      obtain ⟨rfl, hbehind⟩ := List.cons.inj h
      obtain ⟨pre, post, rfl, hne, hplain, hline, hfront⟩ := ih hbehind
      refine ⟨'#' :: (body ++ pre), post, by simp, hne, hplain, ?_, ?_⟩
      · rw [hline, List.count_cons_of_ne (by decide), count_newline_append hbody]
      · have hend : LineEnd pre := fun d hd => hrest d (List.mem_head?_append_of_mem_head? hd)
        rw [itemsFrom_directive hbody hend, hfront]
  | lexeme fresh c found body rest hspace hhash htakes ih =>
    rw [itemsFrom_lexeme hspace hhash htakes.eq] at h
    cases front with
    | nil =>
      obtain ⟨htoken, -⟩ := List.cons.inj h
      obtain rfl := Item.token.inj htoken
      have htext : found.text.toList = c :: body := htakes.text
      refine ⟨[], rest, congrArg (· ++ rest) htext.symm, ?_, ?_, rfl, itemsFrom_nil _ _ _ _⟩
      · exact htext ▸ List.cons_ne_nil c body
      · exact htext ▸ List.forall_mem_cons.2 ⟨hspace, htakes.plain⟩
    | cons item front =>
      obtain ⟨rfl, hbehind⟩ := List.cons.inj h
      obtain ⟨pre, post, rfl, hne, hplain, hline, hfront⟩ := ih hbehind
      refine ⟨c :: (body ++ pre), post, by simp, hne, hplain, ?_, ?_⟩
      · rw [hline, List.count_cons_of_ne (ne_newline_of_plain hspace),
          count_newline_append htakes.newline_not_mem]
      · have hagain : lexeme c (body ++ pre) = (found, pre) :=
          htakes.again pre fun d hd =>
            htakes.stops d (List.mem_head?_append_of_mem_head? hd)
        rw [itemsFrom_lexeme hspace hhash hagain, hfront]

theorem count_flatMap_left (signs : List Sign) :
    (signs.flatMap Sign.left).count '\n' = (signs.flatMap Sign.source).count '\n' := by
  induction signs with
  | nil => rfl
  | cons sign signs ih =>
    have hsign : sign.left.count '\n' = sign.source.count '\n' := by
      by_cases hb : sign.breaks
      · rw [Sign.left_of_breaks hb, Sign.source_of_breaks hb]
      · rw [List.count_eq_zero_of_not_mem (Sign.notMem_left hb),
          List.count_eq_zero_of_not_mem (Sign.notMem_source hb)]
    rw [List.flatMap_cons, List.flatMap_cons, List.count_append, List.count_append, hsign, ih]

theorem ReadAs.token {text : List Char} {signs : List Sign} (h : ReadAs text signs)
    {front back : List Item} {token : Token}
    (ht : items (stripComments text) = front ++ .token token :: back) :
    ∃ before after, signs = before ++ (token.text.toList.map .kept ++ after) ∧
      items (before.flatMap Sign.left) = front ∧
      token.line = 1 + (before.flatMap Sign.source).count '\n' := by
  obtain ⟨pre, post, hsplit, hne, hplain, hline, hfront⟩ := itemsFrom_eq_append ht
  rw [← h.flatMap_left] at hsplit
  obtain ⟨before, after, hsigns, rfl, -⟩ := h.word hsplit hplain hne
  exact ⟨before, after, hsigns, hfront, count_flatMap_left before ▸ hline⟩

/-- **Comments.** Every text is read in exactly one way. Without its comments it has as many lines, and
each of them is the same line with the characters of the comments dropped and a space for each comment
that ends there. Each token is a stretch of kept characters, and has the line where it stands in the
text. No comment starts in what is left, and nothing changes where no comment starts. -/
theorem stripComments_keeps_lines (text : List Char) :
    ∃ signs, ReadAs text signs ∧ (∀ other, ReadAs text other → other = signs) ∧
      (stripComments text).count '\n' = text.count '\n' ∧
      text.splitOn '\n' = (signs.splitOnP Sign.breaks).map (List.flatMap Sign.source) ∧
      (stripComments text).splitOn '\n' =
        (signs.splitOnP Sign.breaks).map (List.flatMap Sign.left) ∧
      (∀ front token back, items (stripComments text) = front ++ .token token :: back →
        ∃ before after, signs = before ++ (token.text.toList.map .kept ++ after) ∧
          items (before.flatMap Sign.left) = front ∧
          token.line = 1 + (before.flatMap Sign.source).count '\n') ∧
      NoOpener (stripComments text) ∧
      stripComments (stripComments text) = stripComments text ∧
      (NoOpener text → stripComments text = text) := by
  obtain ⟨signs, hreads⟩ := exists_readAs text
  have hleft : NoOpener (stripComments text) := hreads.flatMap_left ▸ hreads.noOpener_left
  refine ⟨signs, hreads, hreads.unique, count_newline_stripComments text, ?_, ?_,
    fun front token back => hreads.token, hleft, stripComments_of_noOpener hleft,
    stripComments_of_noOpener⟩
  · rw [← hreads.flatMap_source]
    exact splitOn_flatMap (fun _ => Sign.source_of_breaks) (fun _ => Sign.notMem_source) signs
  · rw [← hreads.flatMap_left]
    exact splitOn_flatMap (fun _ => Sign.left_of_breaks) (fun _ => Sign.notMem_left) signs

end UniformLayout.Source
