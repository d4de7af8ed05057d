import UniformLayout.Proofs.Source.Lines
import UniformLayout.Proofs.Source.Writing

/-!
# A group in a text

A group is a stretch of a text between two braces. Where the braces are tokens, the text in front of
the group, the group's inside and the text behind it are read one after the other: what stands in the
group changes the columns of the line it ends on, and nothing else behind it.

* `InCode`: a character behind the text is neither in a comment nor in a directive.
* `items_group`: the items of a text with a group.

Main statement: `items_group`.
-/

namespace UniformLayout.Source

open Text (isSpace)

/-! ## Comments -/

/-- The region that a character behind the text stands in. -/
def regionAfter : Region → List Char → Region
  | region, [] => region
  | .code, '/' :: '/' :: rest => regionAfter .lineComment rest
  | .code, '/' :: '*' :: rest => regionAfter (.blockComment false) rest
  | .code, _ :: rest => regionAfter .code rest
  | .lineComment, c :: rest =>
    if c = '\n' then regionAfter .code rest else regionAfter .lineComment rest
  | .blockComment afterStar, c :: rest =>
    if c = '\n' then regionAfter (.blockComment false) rest
    else if afterStar ∧ c = '/' then regionAfter .code rest
    else regionAfter (.blockComment (c = '*')) rest

/-- A text in code is stripped of its comments by itself, if what follows completes no opener. -/
theorem stripFrom_append_code {region : Region} {text : List Char} {c : Char}
    (h : regionAfter region text = .code) (hslash : c ≠ '/') (hstar : c ≠ '*') (rest : List Char) :
    stripFrom region (text ++ c :: rest) = stripFrom region text ++ c :: stripFrom .code rest := by
  fun_induction regionAfter region text with
  | case1 region =>
    subst h
    exact stripFrom_of_ne_slash hslash rest
  | case2 rest ih => simp [stripFrom, ih h]
  | case3 rest ih => simp [stripFrom, ih h]
  | case4 d text hline hblock ih =>
    -- The character stays what it is: also where the text ends with a slash, no comment starts.
    have hopen : ∀ e more, d = '/' → text ++ c :: rest = e :: more → e ≠ '/' ∧ e ≠ '*' := by
      rintro e more hd he
      cases text with
      | nil =>
        obtain ⟨rfl, -⟩ := List.cons.inj he
        exact ⟨hslash, hstar⟩
      | cons f text =>
        obtain ⟨rfl, -⟩ := List.cons.inj he
        exact ⟨fun hf => hline text hd (congrArg (· :: text) hf),
          fun hf => hblock text hd (congrArg (· :: text) hf)⟩
    rw [List.cons_append, stripFrom, ih h, stripFrom, List.cons_append]
    · exact fun more hd ht => hline more hd ht
    · exact fun more hd ht => hblock more hd ht
    · exact fun more hd ht => (hopen _ _ hd ht).1 rfl
    · exact fun more hd ht => (hopen _ _ hd ht).2 rfl
  | case5 text ih => simp [stripFrom, ih h]
  | case6 d text hd ih => simp [stripFrom, hd, ih h]
  | case7 afterStar text ih => simp [stripFrom, ih h]
  | case8 afterStar d text hd hclose ih => simp [stripFrom, hclose, ih h]
  | case9 afterStar d text hd hclose ih => simp [stripFrom, hd, hclose, ih h]

/-! ## Directives -/

/-- What the next character of a line would belong to. -/
inductive Spot where
  | fresh
  | used
  | directive
  deriving DecidableEq, Repr

/-- Where one is behind a character. -/
def Spot.next (spot : Spot) (c : Char) : Spot :=
  if c = '\n' then .fresh
  else if spot = .directive ∨ isSpace c then spot
  else if spot = .fresh ∧ c = '#' then .directive
  else .used

/-- Where one is behind a text without comments. -/
def Spot.after (spot : Spot) (text : List Char) : Spot := text.foldl Spot.next spot

/-- A character behind the text is read by itself, neither in a comment nor in a directive. -/
def InCode (text : List Char) : Prop :=
  regionAfter .code text = .code ∧ Spot.fresh.after (stripComments text) ≠ .directive

instance (text : List Char) : Decidable (InCode text) := inferInstanceAs (Decidable (_ ∧ _))

@[simp] theorem Spot.after_nil (spot : Spot) : spot.after [] = spot := rfl

@[simp] theorem Spot.after_cons (spot : Spot) (c : Char) (rest : List Char) :
    spot.after (c :: rest) = (spot.next c).after rest := rfl

theorem Spot.after_append (spot : Spot) (text rest : List Char) :
    spot.after (text ++ rest) = (spot.after text).after rest :=
  List.foldl_append

theorem Spot.next_feed (spot : Spot) : spot.next '\n' = .fresh := by
  simp [next]

/-- A directive goes on to the end of its line. -/
theorem Spot.directive_after {text : List Char} (h : ∀ c ∈ text, c ≠ '\n') :
    Spot.directive.after text = .directive := by
  induction text with
  | nil => rfl
  | cons c text ih =>
    obtain ⟨hc, htext⟩ := List.forall_mem_cons.1 h
    rw [after_cons, show Spot.directive.next c = .directive by simp [next, hc], ih htext]

/-- Behind a token of the line there is no directive. -/
theorem Spot.used_after {text : List Char} (h : ∀ c ∈ text, isSpace c = false) :
    Spot.used.after text = .used := by
  induction text with
  | nil => rfl
  | cons c text ih =>
    obtain ⟨hc, htext⟩ := List.forall_mem_cons.1 h
    have hfeed := ne_newline_of_plain hc
    rw [after_cons, show Spot.used.next c = .used by simp [next, hc, hfeed], ih htext]

/-! ## Tokens -/

/-- A brace is a token of its own. -/
def IsBrace (c : Char) : Prop := c = '{' ∨ c = '}'

theorem IsBrace.mem_marks {c : Char} (h : IsBrace c) : c ∈ marks := by
  rcases h with rfl | rfl <;> decide

theorem IsBrace.ne_star {c : Char} (h : IsBrace c) : c ≠ '*' := by
  rcases h with rfl | rfl <;> decide

/-- Where a line starts that holds a token already, or none. -/
def Spot.ofFresh (fresh : Bool) : Spot := if fresh then .fresh else .used

theorem Spot.next_ofFresh_of_isSpace {c : Char} (fresh : Bool) (hfeed : c ≠ '\n')
    (hspace : isSpace c) : (ofFresh fresh).next c = ofFresh fresh := by
  simp [next, hfeed, hspace]

theorem Spot.next_ofFresh_of_lexeme {c : Char} {fresh : Bool} (hfeed : c ≠ '\n')
    (hspace : ¬ isSpace c) (hhash : ¬ (c = '#' ∧ fresh)) : (ofFresh fresh).next c = .used := by
  cases fresh <;> simp_all [next, ofFresh]

theorem itemsFrom_brace {c : Char} (hc : IsBrace c) (line column : Nat) (fresh : Bool)
    (lead rest : List Char) : itemsFrom line column fresh lead (c :: rest) =
      .token ⟨.punct c, line, column, lead⟩ :: itemsFrom line (column + 1) false [] rest := by
  obtain ⟨hspace, hhash, -, -, -, hstart, hdigit⟩ := marks_plain hc.mem_marks
  have hsize : (Lexeme.punct c).text.utf8ByteSize = 1 := by
    rcases hc with rfl | rfl <;> decide
  have hlexeme : lexeme c rest = (.punct c, rest) := by simp [lexeme, hstart, hdigit]
  rw [itemsFrom_lexeme hspace (fun hdirective => hhash hdirective.1) hlexeme, hsize]

/-- A brace that stands in code is a token, and what is behind it is read on its own. -/
theorem itemsFrom_append_brace {line column : Nat} {fresh : Bool} {lead text : List Char}
    (h : (Spot.ofFresh fresh).after text ≠ .directive) :
    ∃ column' lead', ∀ c rest, IsBrace c →
      itemsFrom line column fresh lead (text ++ c :: rest) =
        itemsFrom line column fresh lead text ++
          .token ⟨.punct c, line + text.count '\n', column', lead'⟩ ::
            itemsFrom (line + text.count '\n') (column' + 1) false [] rest := by
  induction fresh, text using text_induction generalizing line column lead with
  | nil fresh =>
    refine ⟨column, lead, fun c rest hc => ?_⟩
    rw [List.nil_append, itemsFrom_brace hc, itemsFrom_nil]
    rfl
  | feed fresh text ih =>
    rw [Spot.after_cons, Spot.next_feed] at h
    obtain ⟨column', lead', hsplit⟩ := ih h
    refine ⟨column', lead', fun c rest hc => ?_⟩
    have hline : line + ('\n' :: text).count '\n' = line + 1 + text.count '\n' := by
      rw [List.count_cons_self]
      omega
    rw [List.cons_append, itemsFrom_feed, itemsFrom_feed, hsplit c rest hc, hline]
  | space fresh d text hfeed hspace ih =>
    rw [Spot.after_cons, Spot.next_ofFresh_of_isSpace fresh hfeed hspace] at h
    obtain ⟨column', lead', hsplit⟩ := ih h
    refine ⟨column', lead', fun c rest hc => ?_⟩
    rw [List.cons_append, itemsFrom_space hfeed hspace, itemsFrom_space hfeed hspace,
      hsplit c rest hc, List.count_cons_of_ne hfeed]
  | directive body text hbody htext ih =>
    rw [Spot.after_cons, Spot.after_append, show (Spot.ofFresh true).next '#' = .directive by decide,
      Spot.directive_after fun c hc heq => hbody (heq ▸ hc)] at h
    -- The line of the directive ends within the text, for what follows it is no directive.
    obtain ⟨more, rfl⟩ : ∃ more, text = '\n' :: more := by
      cases text with
      | nil => exact absurd rfl h
      | cons c more => exact ⟨more, by rw [htext c rfl]⟩
    obtain ⟨column', lead', hsplit⟩ := ih (by rwa [Spot.after_cons, Spot.next_feed] at h ⊢)
    refine ⟨column', lead', fun c rest hc => ?_⟩
    have hcount : ('#' :: (body ++ '\n' :: more)).count '\n' = ('\n' :: more).count '\n' := by
      rw [List.count_cons_of_ne (by decide), count_newline_append hbody]
    have hend : LineEnd ('\n' :: more ++ c :: rest) := fun d hd => (Option.some.inj hd).symm
    rw [List.cons_append, List.append_assoc, itemsFrom_directive hbody hend,
      itemsFrom_directive hbody htext, hsplit c rest hc, hcount]
    rfl
  | lexeme fresh d found body text hspace hhash htakes ih =>
    have hfeed := ne_newline_of_plain hspace
    rw [Spot.after_cons, Spot.next_ofFresh_of_lexeme hfeed (Bool.eq_false_iff.1 hspace) hhash,
      Spot.after_append, Spot.used_after htakes.plain] at h
    obtain ⟨column', lead', hsplit⟩ := ih h
    refine ⟨column', lead', fun c rest hc => ?_⟩
    have hcount : (d :: (body ++ text)).count '\n' = text.count '\n' := by
      rw [List.count_cons_of_ne hfeed, count_newline_append htakes.newline_not_mem]
    rw [List.cons_append, List.append_assoc,
      itemsFrom_lexeme hspace hhash (htakes.append_mark hc.mem_marks rest),
      itemsFrom_lexeme hspace hhash htakes.eq, hsplit c rest hc, hcount]
    rfl

/-- Where a line goes on changes the columns on that line and nothing else. -/
theorem itemsFrom_column (line column column' : Nat) (fresh : Bool) (lead text : List Char) :
    (itemsFrom line column fresh lead text).map Item.onLine =
      (itemsFrom line column' fresh lead text).map Item.onLine := by
  induction fresh, text using text_induction generalizing line column column' lead with
  | nil => rw [itemsFrom_nil, itemsFrom_nil]
  | feed => rw [itemsFrom_feed, itemsFrom_feed]
  | space _ _ _ hfeed hspace ih =>
    rw [itemsFrom_space hfeed hspace, itemsFrom_space hfeed hspace]
    exact ih _ _ _ _
  | directive _ _ hbody hrest ih =>
    rw [itemsFrom_directive hbody hrest, itemsFrom_directive hbody hrest]
    exact congrArg (_ :: ·) (ih _ _ _ _)
  | lexeme _ _ _ _ _ hspace hhash htakes ih =>
    rw [itemsFrom_lexeme hspace hhash htakes.eq, itemsFrom_lexeme hspace hhash htakes.eq]
    exact congrArg (_ :: ·) (ih _ _ _ _)

/-- The lexemes of a text. `fresh` says that it stands at the start of a line. -/
def lexemesIn (fresh : Bool) (text : List Char) : List Lexeme :=
  (tokensOf (itemsFrom 1 1 fresh [] (stripComments text))).map Token.lexeme

/-- The directives of a text. -/
def directivesIn (fresh : Bool) (text : List Char) : List (List Char) :=
  directivesOf (itemsFrom 1 1 fresh [] (stripComments text))

/-- What a text is made of does not depend on where it stands. -/
theorem content_itemsFrom (line line' column column' : Nat) (fresh : Bool)
    (lead lead' text : List Char) :
    (tokensOf (itemsFrom line column fresh lead text)).map Token.lexeme =
        (tokensOf (itemsFrom line' column' fresh lead' text)).map Token.lexeme ∧
      directivesOf (itemsFrom line column fresh lead text) =
        directivesOf (itemsFrom line' column' fresh lead' text) := by
  induction fresh, text using text_induction generalizing line line' column column' lead lead' with
  | nil => simp
  | feed _ _ ih =>
    rw [itemsFrom_feed, itemsFrom_feed]
    exact ih _ _ _ _ _ _
  | space _ _ _ hfeed hspace ih =>
    rw [itemsFrom_space hfeed hspace, itemsFrom_space hfeed hspace]
    exact ih _ _ _ _ _ _
  | directive body _ hbody hrest ih =>
    rw [itemsFrom_directive hbody hrest, itemsFrom_directive hbody hrest]
    obtain ⟨hlexemes, hdirectives⟩ :=
      ih line line' column column' (lead ++ '#' :: body) (lead' ++ '#' :: body)
    exact ⟨hlexemes, congrArg (_ :: ·) hdirectives⟩
  | lexeme _ _ found _ _ hspace hhash htakes ih =>
    rw [itemsFrom_lexeme hspace hhash htakes.eq, itemsFrom_lexeme hspace hhash htakes.eq]
    obtain ⟨hlexemes, hdirectives⟩ := ih line line' (column + found.text.utf8ByteSize)
      (column' + found.text.utf8ByteSize) [] []
    exact ⟨congrArg (_ :: ·) hlexemes, hdirectives⟩

theorem lexemes_itemsFrom (line column : Nat) (fresh : Bool) (lead text : List Char) :
    (tokensOf (itemsFrom line column fresh lead (stripComments text))).map Token.lexeme =
      lexemesIn fresh text :=
  (content_itemsFrom line 1 column 1 fresh lead [] _).1

theorem directives_itemsFrom (line column : Nat) (fresh : Bool) (lead text : List Char) :
    directivesOf (itemsFrom line column fresh lead (stripComments text)) =
      directivesIn fresh text :=
  (content_itemsFrom line 1 column 1 fresh lead [] _).2

/-! ## Texts with a group -/

/-- The text with a group between the two others. -/
def around (front body back : List Char) : List Char := front ++ '{' :: (body ++ '}' :: back)

theorem Spot.next_brace {spot : Spot} {c : Char} (hc : IsBrace c) (h : spot ≠ .directive) :
    spot.next c = .used := by
  rcases hc with rfl | rfl <;> cases spot <;> first | rfl | exact absurd rfl h

theorem InCode.stripComments_brace {text : List Char} {c : Char} (h : InCode text) (hc : IsBrace c)
    (rest : List Char) :
    stripComments (text ++ c :: rest) = stripComments text ++ c :: stripComments rest :=
  stripFrom_append_code h.1 (marks_plain hc.mem_marks).2.2.1 hc.ne_star rest

/-- The opening brace does not depend on what follows it, and neither does what is in front of it. The
closing brace stands as many lines below as the group has line feeds. -/
theorem items_group {front : List Char} (hopen : InCode front) :
    ∃ opening : Token, opening.lexeme = .punct '{' ∧
      ∀ body, InCode (front ++ '{' :: body) →
        ∃ closing : Token, closing.lexeme = .punct '}' ∧
          closing.line = opening.line + body.count '\n' ∧
          ∀ back, items (stripComments (around front body back)) =
            items (stripComments front) ++ .token opening ::
              (itemsFrom opening.line (opening.column + 1) false [] (stripComments body) ++
                .token closing ::
                  itemsFrom closing.line (closing.column + 1) false [] (stripComments back)) := by
  obtain ⟨column, lead, hsplit⟩ := @itemsFrom_append_brace 1 1 true [] _ hopen.2
  generalize 1 + (stripComments front).count '\n' = line at hsplit
  refine ⟨⟨.punct '{', line, column, lead⟩, rfl, fun body hclose => ?_⟩
  have hspot := hclose.2
  rw [hopen.stripComments_brace (Or.inl rfl), Spot.after_append, Spot.after_cons,
    Spot.next_brace (Or.inl rfl) hopen.2] at hspot
  obtain ⟨column', lead', hsplit'⟩ :=
    @itemsFrom_append_brace line (column + 1) false [] _ hspot
  rw [count_newline_stripComments body] at hsplit'
  refine ⟨⟨.punct '}', line + body.count '\n', column', lead'⟩, rfl, rfl, fun back => ?_⟩
  have hstrip : stripComments (around front body back) =
      stripComments front ++ '{' :: (stripComments body ++ '}' :: stripComments back) := by
    calc stripComments (around front body back)
        = stripComments ((front ++ '{' :: body) ++ '}' :: back) := by simp [around]
      _ = stripComments (front ++ '{' :: body) ++ '}' :: stripComments back :=
        hclose.stripComments_brace (Or.inr rfl) back
      _ = stripComments front ++ '{' :: (stripComments body ++ '}' :: stripComments back) := by
        simp [hopen.stripComments_brace (Or.inl rfl)]
  rw [hstrip, items, hsplit _ _ (Or.inl rfl), hsplit' _ _ (Or.inr rfl)]
  rfl

theorem tokensOf_append (found more : List Item) :
    tokensOf (found ++ more) = tokensOf found ++ tokensOf more :=
  List.filterMap_append

theorem tokensOf_cons (token : Token) (found : List Item) :
    tokensOf (.token token :: found) = token :: tokensOf found := rfl

theorem directivesOf_append (found more : List Item) :
    directivesOf (found ++ more) = directivesOf found ++ directivesOf more :=
  List.filterMap_append

theorem directivesOf_cons (token : Token) (found : List Item) :
    directivesOf (.token token :: found) = directivesOf found := rfl

/-! ## Constants -/

/-- The constants of a text. -/
def constantsOf (text : List Char) : Constants :=
  Constants.ofItems (items (stripComments text))

namespace Constants

theorem ofStatement?_of_ne_const {token : Token} (h : token.text ≠ "const") (rest : List Token) :
    ofStatement? (token :: rest) = none := by
  unfold ofStatement?
  split
  · rename_i heq
    obtain ⟨rfl, -⟩ := List.cons.inj heq
    simp only [h, false_and, if_false]
    split <;> rfl
  · rfl

/-- A statement that defines a constant does not reach over a brace. -/
theorem ofStatement?_append {brace : Token} {c : Char} (hc : IsBrace c)
    (hb : brace.lexeme = .punct c) (token : Token) (tokens rest : List Token) :
    ofStatement? (token :: tokens ++ brace :: rest) = ofStatement? (token :: tokens) := by
  have hsign : c ≠ '=' ∧ c ≠ ';' := by rcases hc with rfl | rfl <;> decide
  have htype : brace.text ≠ "int" ∧ brace.text ≠ "uint" := by
    rw [Token.text, hb]
    rcases hc with rfl | rfl <;> decide
  -- The brace cannot be any of the tokens of such a statement.
  match tokens with
  | [] =>
    rcases rest with _ | ⟨_, _ | ⟨_, _ | ⟨_, _ | ⟨_, _⟩⟩⟩⟩ <;> simp [ofStatement?, htype]
    split <;> rfl
  | [_] => rcases rest with _ | ⟨_, _ | ⟨_, _ | ⟨_, _⟩⟩⟩ <;> simp [ofStatement?, hb]
  | [_, _] =>
    rcases rest with _ | ⟨_, _ | ⟨_, _⟩⟩ <;> simp [ofStatement?, hb, hsign]
    split <;> rfl
  | [_, _, _] => rcases rest with _ | ⟨_, _⟩ <;> simp [ofStatement?, hb]
  | [_, _, _, _] =>
    simp [ofStatement?, hb, hsign]
    split <;> rfl
  | _ :: _ :: _ :: _ :: _ :: _ => rfl

theorem ofStatements_append_brace {brace : Token} {c : Char} (hc : IsBrace c)
    (hb : brace.lexeme = .punct c) (tokens rest : List Token) :
    ofStatements (tokens ++ brace :: rest) = ofStatements tokens ++ ofStatements rest := by
  induction tokens with
  | nil =>
    have hconst : brace.text ≠ "const" := by
      rw [Token.text, hb]
      rcases hc with rfl | rfl <;> decide
    simp only [List.nil_append, ofStatements, ofStatement?_of_ne_const hconst, Option.toList_none]
  | cons token tokens ih =>
    rw [List.cons_append, ofStatements, ih, ← List.cons_append, ofStatement?_append hc hb,
      ofStatements, List.append_assoc]

theorem ofStatements_eq_nil {tokens : List Token} (h : ∀ token ∈ tokens, token.text ≠ "const") :
    ofStatements tokens = [] := by
  induction tokens with
  | nil => rfl
  | cons token tokens ih =>
    obtain ⟨htoken, htokens⟩ := List.forall_mem_cons.1 h
    rw [ofStatements, ofStatement?_of_ne_const htoken, ih htokens]
    rfl

/-- Where the tokens stand does not matter. -/
theorem ofStatements_congr {tokens tokens' : List Token}
    (h : tokens.map Token.lexeme = tokens'.map Token.lexeme) :
    ofStatements tokens = ofStatements tokens' := by
  let bare (lexeme : Lexeme) : Token := ⟨lexeme, 0, 0, []⟩
  have hone : ∀ tokens : List Token,
      ofStatement? ((tokens.map Token.lexeme).map bare) = ofStatement? tokens
    | [] | [_] | [_, _] | [_, _, _] | [_, _, _, _] | [_, _, _, _, _] => rfl
    | _ :: _ :: _ :: _ :: _ :: _ :: _ => rfl
  have hall : ∀ tokens : List Token,
      ofStatements ((tokens.map Token.lexeme).map bare) = ofStatements tokens := by
    intro tokens
    induction tokens with
    | nil => rfl
    | cons token tokens ih =>
      have htoken := hone (token :: tokens)
      simp only [List.map_cons] at htoken ih ⊢
      rw [ofStatements, ofStatements, htoken, ih]
  rw [← hall tokens, h, hall]

end Constants

/-- The constants that the statements of a text define. -/
def statementsIn (fresh : Bool) (text : List Char) : Constants :=
  Constants.ofStatements (tokensOf (itemsFrom 1 1 fresh [] (stripComments text)))

/-- The text has no directives and no statements that could define a constant. -/
def DefinesNothing (body : List Char) : Prop :=
  directivesIn false body = [] ∧ ∀ lexeme ∈ lexemesIn false body, lexeme.text ≠ "const"

instance (body : List Char) : Decidable (DefinesNothing body) :=
  inferInstanceAs (Decidable (_ ∧ _))

/-- Around a group that defines nothing the constants are those of the two texts. -/
theorem constantsOf_around {front body : List Char} (back : List Char) (hopen : InCode front)
    (hclose : InCode (front ++ '{' :: body)) (hbody : DefinesNothing body) :
    constantsOf (around front body back) =
      ((directivesIn true front ++ directivesIn false back).filterMap
          Constants.ofDirective?).reverse ++
        (statementsIn true front ++ statementsIn false back) := by
  obtain ⟨opening, hopening, hgroup⟩ := items_group hopen
  obtain ⟨closing, hclosing, -, hitems⟩ := hgroup body hclose
  have hnone : Constants.ofStatements (tokensOf (itemsFrom opening.line (opening.column + 1) false []
      (stripComments body))) = [] := by
    refine Constants.ofStatements_eq_nil fun token hm => hbody.2 token.lexeme ?_
    rw [← lexemes_itemsFrom opening.line (opening.column + 1) false [] body]
    exact List.mem_map_of_mem hm
  have hback : Constants.ofStatements (tokensOf (itemsFrom closing.line (closing.column + 1) false []
      (stripComments back))) = statementsIn false back :=
    Constants.ofStatements_congr (content_itemsFrom _ _ _ _ _ _ _ _).1
  rw [constantsOf, hitems, Constants.ofItems, directivesOf_append, directivesOf_cons,
    directivesOf_append, directivesOf_cons, directives_itemsFrom, directives_itemsFrom, hbody.1,
    List.nil_append, tokensOf_append, tokensOf_cons,
    Constants.ofStatements_append_brace (Or.inl rfl) hopening, tokensOf_append, tokensOf_cons,
    Constants.ofStatements_append_brace (Or.inr rfl) hclosing, hnone, hback]
  rfl

end UniformLayout.Source
