import UniformLayout.Proofs.Source.Leading
import UniformLayout.Proofs.Source.Writing

/-!
# Directives

A directive is no part of the program, except that a definition gives a constant. So a source is read
alike without its other directives, if blanks are left in their place; as long as they end with their
lines, define nothing that is asked for, and stand in no attribute.

* `stretches`: the directives of a text, with the lines that they are continued on.
* `blankDirectives`: a text with blanks in the place of directives that define nothing.
* `Blanks`: the items of such a text.
* `ReadsBlanked`: a text has these items; with one lemma for each way in which a text starts.
* `relead`: tokens that keep their places, with other text in front of them.

Main statement: `read_blanked`.
-/

namespace UniformLayout

namespace Source

open Logged

open Text (isSpace)

/-! ## The directives of a text -/

/-- The rest of a line, and of each line that it is continued on with a backslash. -/
def logicalLine : List Char → List Char
  | [] => []
  | '\\' :: '\n' :: rest => '\\' :: '\n' :: logicalLine rest
  | '\\' :: '\r' :: '\n' :: rest => '\\' :: '\r' :: '\n' :: logicalLine rest
  | c :: rest => if c = '\n' then [] else c :: logicalLine rest

/-- A line without its continuations. -/
def spliced : List Char → List Char
  | [] => []
  | '\\' :: '\n' :: rest => spliced rest
  | '\\' :: '\r' :: '\n' :: rest => spliced rest
  | c :: rest => c :: spliced rest

def isName : List Char → Bool
  | [] => false
  | c :: rest => startsWord c && rest.all inWord

/-- The directive gives a name without parameters something to stand for. -/
def isDefinition (line : List Char) : Bool :=
  match Text.words (spliced line).tail with
  | keyword :: name :: _ => keyword == "define".toList && isName name
  | _ => false

/-- A directive with all its lines, or a character that is in none. -/
inductive Stretch where
  | char (c : Char)
  | directive (line : List Char)

theorem length_drop_lt (c : Char) (rest : List Char) (n : Nat) :
    (rest.drop n).length < (c :: rest).length := by
  rw [List.length_drop, List.length_cons]
  omega

/-- A text by its directives. `fresh` says that the line holds nothing but spaces so far. -/
def stretches (fresh : Bool) : List Char → List Stretch
  | [] => []
  | c :: rest =>
    if c = '#' ∧ fresh then
      have := length_drop_lt c rest (logicalLine rest).length
      .directive (c :: logicalLine rest) :: stretches true (rest.drop (logicalLine rest).length)
    else .char c :: stretches (c == '\n' || fresh && isSpace c) rest
  termination_by text => text.length

/-- A blank in the place of the character; line feeds stay. -/
def blankFor (c : Char) : Char := if isSpace c then c else ' '

namespace Stretch

/-- The text of a stretch, of which no more than a definition is left if it is a directive. -/
def blanked : Stretch → List Char
  | char c => [c]
  | directive line => if isDefinition line then line else line.map blankFor

def other? : Stretch → Option (List Char)
  | char _ => none
  | directive line => if isDefinition line then none else some line

end Stretch

/-- The text with blanks in the place of directives that are no definitions. -/
def blankDirectives (text : List Char) : List Char := (stretches true text).flatMap Stretch.blanked

/-- The directives that are no definitions. -/
def otherDirectives (text : List Char) : List (List Char) := (stretches true text).filterMap Stretch.other?

/-! ## Lines -/

theorem lineEnd_drop (text : List Char) : LineEnd (text.drop (logicalLine text).length) ∧
    logicalLine text ++ text.drop (logicalLine text).length = text := by
  fun_induction logicalLine text with
  | case1 => simp [LineEnd]
  | case2 rest ih => simpa using ih
  | case3 rest ih => simpa using ih
  | case4 rest => simp [LineEnd]
  | case5 c rest _ _ hc ih => simpa using ih

theorem stretches_directive (rest : List Char) : stretches true ('#' :: rest) =
    .directive ('#' :: logicalLine rest) ::
      stretches true (rest.drop (logicalLine rest).length) := by
  rw [stretches, if_pos ⟨rfl, rfl⟩]

theorem stretches_char {fresh : Bool} {c : Char} (h : ¬ (c = '#' ∧ fresh)) (rest : List Char) :
    stretches fresh (c :: rest) =
      .char c :: stretches (c == '\n' || fresh && isSpace c) rest := by
  rw [stretches, if_neg h]

theorem stretches_plain {body : List Char} (h : ∀ c ∈ body, isSpace c = false) (rest : List Char) :
    stretches false (body ++ rest) = body.map .char ++ stretches false rest := by
  induction body with
  | nil => rfl
  | cons c body ih =>
    obtain ⟨hc, hbody⟩ := List.forall_mem_cons.1 h
    rw [List.cons_append, stretches_char (by simp),
      beq_eq_false_iff_ne.2 (ne_newline_of_plain hc), Bool.false_and, Bool.or_false, ih hbody]
    rfl

theorem lineEnd_blanked {text : List Char} (h : LineEnd text) :
    LineEnd ((stretches true text).flatMap Stretch.blanked) := by
  cases text with
  | nil => rwa [stretches]
  | cons c rest =>
    obtain rfl := h c rfl
    rw [stretches_char (by simp)]
    exact h

theorem flatMap_blanked_char (body : List Char) :
    (body.map Stretch.char).flatMap Stretch.blanked = body := by
  induction body with
  | nil => rfl
  | cons c body ih => exact congrArg (c :: ·) ih

theorem head?_blanked (text : List Char) :
    ((stretches false text).flatMap Stretch.blanked).head? = text.head? := by
  cases text with
  | nil => rw [stretches]; rfl
  | cons c rest => rw [stretches_char (by simp)]; rfl

/-! ## The items of a text -/

/-- The second text in front of a token is the first one, if none of the lines stands in that. -/
def Kept (gone : List (List Char)) (lead lead' : List Char) : Prop :=
  (∀ line ∈ gone, ¬ line <:+: lead) → lead' = lead

theorem Kept.append {gone : List (List Char)} {lead lead' : List Char} (h : Kept gone lead lead')
    (text : List Char) : Kept gone (lead ++ text) (lead' ++ text) := by
  intro hnone
  rw [h fun line hline hin => hnone line hline (hin.trans (List.infix_append' [] lead text))]

theorem kept_of_mem {gone : List (List Char)} {line : List Char} (h : line ∈ gone)
    (before lead' : List Char) : Kept gone (before ++ line) lead' := fun hnone =>
  absurd (List.suffix_append before line).isInfix (hnone line h)

/-- The second items are the first ones without some directives; and the tokens have the text in front
of them in which none of these stands. -/
inductive Blanks (gone : List (List Char)) : List Item → List Item → Prop
  | nil : Blanks gone [] []
  | token {found : Token} {lead' : List Char} {found₁ found₂ : List Item} :
    Kept gone found.lead lead' → Blanks gone found₁ found₂ →
      Blanks gone (.token found :: found₁) (.token { found with lead := lead' } :: found₂)
  | kept {line : List Char} {found₁ found₂ : List Item} : Blanks gone found₁ found₂ →
      Blanks gone (.directive line :: found₁) (.directive line :: found₂)
  | blanked {line : List Char} {found₁ found₂ : List Item} : line ∈ gone →
      Blanks gone found₁ found₂ → Blanks gone (.directive line :: found₁) found₂

section Items

variable {gone : List (List Char)}

theorem itemsFrom_spaces {blanks : List Char} (hfeed : '\n' ∉ blanks)
    (h : ∀ c ∈ blanks, isSpace c) (line column : Nat) (fresh : Bool) (lead rest : List Char) :
    itemsFrom line column fresh lead (blanks ++ rest) =
      itemsFrom line (column + blanks.length) fresh (lead ++ blanks) rest := by
  induction blanks generalizing column lead with
  | nil => rw [List.append_nil]; rfl
  | cons c blanks ih =>
    obtain ⟨hc, hblanks⟩ := List.forall_mem_cons.1 h
    rw [List.mem_cons, not_or] at hfeed
    rw [List.cons_append, itemsFrom_space (Ne.symm hfeed.1) hc, ih hfeed.2 hblanks,
      List.append_assoc, List.length_cons, Nat.add_assoc, Nat.add_comm 1]
    rfl

/-- At the end of a line it does not matter where one is on it. -/
theorem itemsFrom_lineEnd {rest : List Char} (h : LineEnd rest) (line column column' : Nat)
    (fresh fresh' : Bool) (lead : List Char) :
    itemsFrom line column fresh lead rest = itemsFrom line column' fresh' lead rest := by
  cases rest with
  | nil => rw [itemsFrom_nil, itemsFrom_nil]
  | cons c rest =>
    obtain rfl := h c rfl
    rw [itemsFrom_feed, itemsFrom_feed]

theorem Lexeme.Takes.append_lineEnd {found : Lexeme} {c : Char} {body tail rest : List Char}
    (h : found.Takes c body tail) (hrest : LineEnd rest) :
    lexeme c (body ++ (tail ++ rest)) = (found, tail ++ rest) := by
  refine h.again _ fun d hd => ?_
  cases tail with
  | nil =>
    rw [hrest d hd]
    exact not_continues (by decide) (by decide)
  | cons e tail => exact h.stops d hd

/-- Behind a stretch that is the same in both texts, their items go on as they do at the end of a
line. -/
theorem blanks_append {rest rest' : List Char} (hrest : LineEnd rest) (hrest' : LineEnd rest')
    (hend : ∀ line column fresh lead lead', Kept gone lead lead' →
      Blanks gone (itemsFrom line column fresh lead rest) (itemsFrom line column fresh lead' rest'))
    (text : List Char) (line column : Nat) (fresh : Bool) {lead lead' : List Char}
    (h : Kept gone lead lead') : Blanks gone (itemsFrom line column fresh lead (text ++ rest))
      (itemsFrom line column fresh lead' (text ++ rest')) := by
  induction fresh, text using text_induction generalizing line column lead lead' with
  | nil fresh => exact hend _ _ _ _ _ h
  | feed fresh text ih =>
    rw [List.cons_append, List.cons_append, itemsFrom_feed, itemsFrom_feed]
    exact ih _ _ (h.append _)
  | space fresh c text hfeed hspace ih =>
    rw [List.cons_append, List.cons_append, itemsFrom_space hfeed hspace,
      itemsFrom_space hfeed hspace]
    exact ih _ _ (h.append _)
  | directive body text hbody htext ih =>
    rw [List.cons_append, List.cons_append, List.append_assoc, List.append_assoc,
      itemsFrom_directive hbody (htext.append hrest), itemsFrom_directive hbody (htext.append hrest')]
    exact .kept (ih _ _ (h.append _))
  | lexeme fresh c found body text hspace hhash htakes ih =>
    rw [List.cons_append, List.cons_append, List.append_assoc, List.append_assoc,
      itemsFrom_lexeme hspace hhash (htakes.append_lineEnd hrest),
      itemsFrom_lexeme hspace hhash (htakes.append_lineEnd hrest')]
    exact .token h (ih _ _ fun _ => rfl)

theorem blankFor_plain {body : List Char} (h : '\n' ∉ body) :
    '\n' ∉ body.map blankFor ∧ ∀ c ∈ body.map blankFor, isSpace c := by
  have hall : ∀ c ∈ body.map blankFor, isSpace c ∧ c ≠ '\n' := by
    intro c hc
    obtain ⟨d, hd, rfl⟩ := List.mem_map.1 hc
    unfold blankFor
    split
    · exact ⟨‹_›, fun heq => h (heq ▸ hd)⟩
    · exact ⟨by decide, by decide⟩
  exact ⟨fun hm => (hall _ hm).2 rfl, fun c hc => (hall c hc).1⟩

/-- If the directives of the text that are no definitions are gone, and end with their lines, then its
items are the same with blanks in the place of these directives, but for the directives. -/
def ReadsBlanked (gone : List (List Char)) (fresh : Bool) (text : List Char) : Prop :=
  (∀ other ∈ (stretches fresh text).filterMap Stretch.other?, other ∈ gone ∧ '\n' ∉ other) →
    ∀ line column lead lead', Kept gone lead lead' →
      Blanks gone (itemsFrom line column fresh lead text)
        (itemsFrom line column fresh lead' ((stretches fresh text).flatMap Stretch.blanked))

theorem readsBlanked_feed {rest : List Char} (h : ReadsBlanked gone true rest) (fresh : Bool) :
    ReadsBlanked gone fresh ('\n' :: rest) := by
  intro hgone line column lead lead' hkept
  rw [stretches_char (by simp), beq_self_eq_true, Bool.true_or] at hgone ⊢
  rw [List.flatMap_cons, show (Stretch.char '\n').blanked = ['\n'] from rfl, List.singleton_append,
    itemsFrom_feed, itemsFrom_feed]
  exact h hgone _ _ _ _ (hkept.append _)

theorem readsBlanked_space {c : Char} {rest : List Char} {fresh : Bool} (hfeed : c ≠ '\n')
    (hspace : isSpace c) (h : ReadsBlanked gone fresh rest) : ReadsBlanked gone fresh (c :: rest) := by
  intro hgone line column lead lead' hkept
  have hhash : ¬ (c = '#' ∧ fresh) := by
    rintro ⟨rfl, -⟩
    exact absurd hspace (by decide)
  rw [stretches_char hhash, beq_eq_false_iff_ne.2 hfeed, Bool.false_or, hspace,
    Bool.and_true] at hgone ⊢
  rw [List.flatMap_cons, show (Stretch.char c).blanked = [c] from rfl, List.singleton_append,
    itemsFrom_space hfeed hspace, itemsFrom_space hfeed hspace]
  exact h hgone _ _ _ _ (hkept.append _)

theorem readsBlanked_lexeme {c : Char} {found : Lexeme} {body rest : List Char} {fresh : Bool}
    (hspace : isSpace c = false) (hhash : ¬ (c = '#' ∧ fresh)) (htakes : found.Takes c body rest)
    (h : ReadsBlanked gone false rest) : ReadsBlanked gone fresh (c :: (body ++ rest)) := by
  intro hgone line column lead lead' hkept
  rw [stretches_char hhash, beq_eq_false_iff_ne.2 (ne_newline_of_plain hspace), Bool.false_or,
    hspace, Bool.and_false, stretches_plain htakes.plain] at hgone ⊢
  have hrest : ∀ other ∈ (stretches false rest).filterMap Stretch.other?,
      other ∈ gone ∧ '\n' ∉ other := fun other ho => by
    refine hgone other ?_
    rw [List.filterMap_cons, List.filterMap_append]
    exact List.mem_append_right _ ho
  have hagain : lexeme c (body ++ (stretches false rest).flatMap Stretch.blanked) =
      (found, (stretches false rest).flatMap Stretch.blanked) :=
    htakes.again _ fun d hd => htakes.stops d (head?_blanked rest ▸ hd)
  rw [List.flatMap_cons, List.flatMap_append, flatMap_blanked_char,
    show (Stretch.char c).blanked = [c] from rfl, List.singleton_append,
    itemsFrom_lexeme hspace hhash htakes.eq, itemsFrom_lexeme hspace hhash hagain]
  exact .token hkept (h hrest _ _ _ _ fun _ => rfl)

/-- A definition stays, with all its lines. -/
theorem readsBlanked_definition {body rest : List Char} (hend : LineEnd rest)
    (hbody : stretches true ('#' :: (body ++ rest)) =
      .directive ('#' :: body) :: stretches true rest)
    (hdefinition : isDefinition ('#' :: body)) (h : ReadsBlanked gone true rest) :
    ReadsBlanked gone true ('#' :: (body ++ rest)) := by
  intro hgone line column lead lead' hkept
  rw [hbody, List.filterMap_cons,
    show (Stretch.directive ('#' :: body)).other? = none from if_pos hdefinition] at hgone
  rw [hbody, List.flatMap_cons,
    show (Stretch.directive ('#' :: body)).blanked = '#' :: body from if_pos hdefinition,
    ← List.cons_append]
  refine blanks_append hend (lineEnd_blanked hend) (fun line column fresh lead lead' hkept => ?_)
    ('#' :: body) line column true hkept
  rw [itemsFrom_lineEnd hend line column column fresh true,
    itemsFrom_lineEnd (lineEnd_blanked hend) line column column fresh true]
  exact h hgone _ _ _ _ hkept

/-- Blanks in the place of any other directive are no item, and the line ends behind them as before. -/
theorem readsBlanked_directive {body rest : List Char} (hend : LineEnd rest)
    (hbody : stretches true ('#' :: (body ++ rest)) =
      .directive ('#' :: body) :: stretches true rest)
    (hdefinition : ¬ isDefinition ('#' :: body)) (h : ReadsBlanked gone true rest) :
    ReadsBlanked gone true ('#' :: (body ++ rest)) := by
  intro hgone line column lead lead' hkept
  rw [hbody, List.filterMap_cons, show (Stretch.directive ('#' :: body)).other? = some ('#' :: body)
    from if_neg hdefinition] at hgone
  obtain ⟨⟨hmem, hfeed⟩, hrest⟩ := List.forall_mem_cons.1 hgone
  obtain ⟨hplain, hspaces⟩ := blankFor_plain hfeed
  rw [hbody, List.flatMap_cons, show (Stretch.directive ('#' :: body)).blanked =
      ('#' :: body).map blankFor from if_neg hdefinition,
    itemsFrom_directive (fun hm => hfeed (List.mem_cons_of_mem _ hm)) hend,
    itemsFrom_spaces hplain hspaces,
    itemsFrom_lineEnd (lineEnd_blanked hend) line _ column true true]
  exact .blanked hmem (h hrest _ _ _ _ (kept_of_mem hmem _ _))

/-- With blanks in the place of directives the items are the same, but for these directives. -/
theorem readsBlanked (gone : List (List Char)) (fresh : Bool) (text : List Char) :
    ReadsBlanked gone fresh text := by
  induction hn : text.length using Nat.strongRecOn generalizing fresh text with
  | ind n ih =>
    subst hn
    cases text with
    | nil =>
      intro _ line column lead lead' _
      rw [stretches, List.flatMap_nil, itemsFrom_nil, itemsFrom_nil]
      exact .nil
    | cons c text =>
      have hlt : text.length < (c :: text).length := Nat.lt_succ_self _
      by_cases hhash : c = '#' ∧ fresh
      · obtain ⟨rfl, rfl⟩ := hhash
        obtain ⟨hend, hsplit⟩ := lineEnd_drop text
        have hbody := stretches_directive text
        have hrest := ih _ (length_drop_lt '#' text (logicalLine text).length) true _ rfl
        generalize text.drop (logicalLine text).length = rest at hend hsplit hbody hrest
        generalize logicalLine text = body at hsplit hbody
        subst hsplit
        by_cases hdefinition : isDefinition ('#' :: body)
        · exact readsBlanked_definition hend hbody hdefinition hrest
        · exact readsBlanked_directive hend hbody hdefinition hrest
      by_cases hfeed : c = '\n'
      · subst hfeed
        exact readsBlanked_feed (ih _ hlt true text rfl) fresh
      by_cases hspace : isSpace c
      · exact readsBlanked_space hfeed hspace (ih _ hlt fresh text rfl)
      · obtain ⟨body, hbody, htakes⟩ := lexeme_takes c text
        have hrest := ih _ ((length_lexeme_snd_le c text).trans_lt hlt) false _ rfl
        rw [hbody]
        exact readsBlanked_lexeme (Bool.not_eq_true _ ▸ hspace) hhash htakes hrest

end Items

/-! ## Tokens -/

/-- The token stands at the place or behind it. -/
def Behind (line column : Nat) (token : Token) : Prop :=
  line < token.line ∨ line = token.line ∧ column ≤ token.column

theorem Behind.mono {line line' column column' : Nat} {token : Token}
    (h : Behind line column token) (hle : line' < line ∨ line' = line ∧ column' ≤ column) :
    Behind line' column' token := by
  unfold Behind at h ⊢
  omega

/-- Each token stands behind those in front of it. -/
theorem behind_itemsFrom (line column : Nat) (fresh : Bool) (lead text : List Char) :
    (∀ token ∈ tokensOf (itemsFrom line column fresh lead text), Behind line column token) ∧
      (tokensOf (itemsFrom line column fresh lead text)).Pairwise fun token next =>
        Behind token.line (token.column + 1) next := by
  fun_induction itemsFrom line column fresh lead text with
  | case1 => simp [tokensOf]
  | case2 line column fresh lead text ih =>
    exact ⟨fun token ht => (ih.1 token ht).mono (by omega), ih.2⟩
  | case3 line column fresh lead c text hfeed hspace ih =>
    exact ⟨fun token ht => (ih.1 token ht).mono (by omega), ih.2⟩
  | case4 line column fresh lead c text hfeed hspace hdirective _ found ih => exact ih
  | case5 line column fresh lead c text hfeed hspace hdirective _ found ih =>
    obtain ⟨body, -, htakes⟩ := lexeme_takes c text
    have hsize : found.1.text.utf8ByteSize ≠ 0 := by
      rw [ne_eq, String.utf8ByteSize_eq_zero_iff]
      intro hempty
      have hlist := htakes.text
      rw [show (lexeme c text).1.text = "" from hempty] at hlist
      cases hlist
    rw [tokensOf_cons]
    refine ⟨List.forall_mem_cons.2 ⟨Or.inr ⟨rfl, Nat.le_refl _⟩, fun token ht => ?_⟩,
      List.pairwise_cons.2 ⟨fun token ht => ?_, ih.2⟩⟩
    · exact (ih.1 token ht).mono (by omega)
    · exact (ih.1 token ht).mono (Or.inr ⟨rfl, by dsimp only; omega⟩)

/-- The text in front of the token that stands at the place. -/
def leadAt (tokens : List Token) (line column : Nat) : List Char :=
  match tokens.find? fun token => token.line == line && token.column == column with
  | some token => token.lead
  | none => []

/-- The tokens stay, with the text in front of them that others have. -/
def relead (tokens : List Token) : Relocation where
  token found := { found with lead := leadAt tokens found.line found.column }
  line := id
  place := id
  behind := []
  lexeme_token _ := rfl
  line_token _ := rfl
  locate_token _ _ := rfl

theorem reading_relead {α : Type} (tokens : List Token) (x : Reading α) :
    (relead tokens).reading id x = x := by
  obtain ⟨notices, e | a⟩ := x <;> simp [Relocation.reading, relead]

/-- Tokens one behind the other are found by their places. -/
theorem leadAt_of_mem {tokens : List Token}
    (h : tokens.Pairwise fun token next => Behind token.line (token.column + 1) next) {token : Token}
    (ht : token ∈ tokens) : leadAt tokens token.line token.column = token.lead := by
  obtain ⟨front, back, rfl⟩ := List.append_of_mem ht
  have hfound : (front ++ token :: back).find?
      (fun other => other.line == token.line && other.column == token.column) = some token := by
    refine List.find?_eq_some_iff_append.2 ⟨by simp, front, back, rfl, fun other ho => ?_⟩
    have hbehind : Behind other.line (other.column + 1) token :=
      (List.pairwise_append.1 h).2.2 other ho token List.mem_cons_self
    have hplace : other.line = token.line → other.column ≠ token.column := by
      unfold Behind at hbehind
      omega
    by_cases hline : other.line = token.line
    · simp [hline, hplace hline]
    · simp [hline]
  rw [leadAt, hfound]

section Blanked

variable {gone : List (List Char)} {found found' : List Item}

/-- The tokens of the second items are those of the first ones, with other text in front of them. -/
theorem Blanks.forall₂_tokens (h : Blanks gone found found') :
    List.Forall₂ (fun token token' => token' = { token with lead := token'.lead } ∧
      Kept gone token.lead token'.lead) (tokensOf found) (tokensOf found') := by
  induction h with
  | nil => exact .nil
  | token hkept _ ih => exact .cons ⟨rfl, hkept⟩ ih
  | kept _ ih => exact ih
  | blanked _ _ ih => exact ih

/-- If each token has a place of its own, the text in front of it is found there. -/
theorem Blanks.forall₂_leadAt (h : Blanks gone found found')
    (hplaces : (tokensOf found').Pairwise fun token next => Behind token.line (token.column + 1) next) :
    List.Forall₂ (fun token token' => (relead (tokensOf found')).token token = token' ∧
      Kept gone token.lead (leadAt (tokensOf found') token.line token.column))
      (tokensOf found) (tokensOf found') := by
  obtain ⟨hlength, hall⟩ := List.forall₂_iff_get.1 h.forall₂_tokens
  refine List.forall₂_iff_get.2 ⟨hlength, fun i hi hi' => ?_⟩
  obtain ⟨htoken, hkept⟩ := hall i hi hi'
  have hlead := leadAt_of_mem hplaces (List.get_mem _ ⟨i, hi'⟩)
  generalize (tokensOf found).get ⟨i, hi⟩ = token at htoken hkept ⊢
  generalize (tokensOf found').get ⟨i, hi'⟩ = token' at htoken hkept hlead ⊢
  rw [htoken] at hlead
  exact ⟨(congrArg (fun lead => { token with lead }) hlead).trans htoken.symm, hlead ▸ hkept⟩

theorem Blanks.tokens (h : Blanks gone found found')
    (hplaces : (tokensOf found').Pairwise fun token next => Behind token.line (token.column + 1) next) :
    (tokensOf found).map (relead (tokensOf found')).token = tokensOf found' := by
  rw [← List.forall₂_eq_eq_eq, List.forall₂_map_left_iff]
  exact (h.forall₂_leadAt hplaces).imp fun _ _ hpair => hpair.1

/-- A token has the text in front of it that it had, if no directive is gone from it. -/
theorem Blanks.lead (h : Blanks gone found found')
    (hplaces : (tokensOf found').Pairwise fun token next => Behind token.line (token.column + 1) next) :
    ∀ token ∈ tokensOf found, Kept gone token.lead (leadAt (tokensOf found') token.line token.column) := by
  intro token ht
  obtain ⟨i, hi, rfl⟩ := List.getElem_of_mem ht
  obtain ⟨hlength, hall⟩ := List.forall₂_iff_get.1 (h.forall₂_leadAt hplaces)
  exact (hall i hi (hlength ▸ hi)).2

end Blanked

/-! ## Attributes -/

/-- The tokens of an attribute's value, if its name and its colon are the first ones. -/
def valueTokens : List Token → List Token
  | name :: colon :: body =>
    match name.lexeme, colon.lexeme with
    | .word _, .punct ':' => (splitAtBracket body).elim [] fun found => found.1 ++ [found.2.1]
    | _, _ => []
  | _ => []

/-- The tokens of the values of all attributes. -/
def attributeTokens : List Token → List Token
  | [] => []
  | token :: rest =>
    (if token.lexeme = .punct '[' then valueTokens rest else []) ++ attributeTokens rest

theorem mem_attributeTokens {all rest : List Token} {opening token : Token}
    (h : opening :: rest <:+ all) (hopening : opening.lexeme = .punct '[')
    (ht : token ∈ valueTokens rest) : token ∈ attributeTokens all := by
  induction all with
  | nil => cases List.suffix_nil.1 h
  | cons first all ih =>
    rcases List.suffix_cons_iff.1 h with heq | h
    · obtain ⟨rfl, rfl⟩ := List.cons.inj heq
      exact List.mem_append_left _ (by rwa [if_pos hopening])
    · exact List.mem_append_right _ (ih h)

theorem attributeTokens_subset (tokens : List Token) : attributeTokens tokens ⊆ tokens := by
  have hvalue : ∀ rest : List Token, valueTokens rest ⊆ rest := by
    intro rest token ht
    unfold valueTokens at ht
    split at ht
    · split at ht
      · rename_i name colon body _ _ _ _ _
        cases hs : splitAtBracket body with
        | none => simp [hs] at ht
        | some found =>
          obtain ⟨inside, close, behind⟩ := found
          obtain ⟨rfl, -, -⟩ := splitAtBracket_eq_some_iff.1 hs
          simp only [hs, Option.elim_some, List.mem_append, List.mem_singleton] at ht
          rcases ht with ht | rfl <;> simp_all
      · cases ht
    · cases ht
  induction tokens with
  | nil => exact List.Subset.refl _
  | cons token tokens ih =>
    rw [attributeTokens]
    refine List.append_subset.2 ⟨?_, List.Subset.trans ih (List.subset_cons_self _ _)⟩
    split
    · exact List.Subset.trans (hvalue tokens) (List.subset_cons_self _ _)
    · exact List.nil_subset _

/-- An attribute is read alike if the text in front of each token of its value is. -/
theorem attribute?_relead {tokens rest : List Token}
    (h : ∀ token ∈ valueTokens rest, leadAt tokens token.line token.column = token.lead) :
    attribute? (rest.map (relead tokens).token) =
      (attribute? rest).map fun found => (found.1, (relead tokens).cursor found.2) := by
  have hsame : ∀ {token : Token}, leadAt tokens token.line token.column = token.lead →
      (relead tokens).token token = token := fun hlead => by
    simp only [relead, hlead]
  cases rest with
  | nil => rfl
  | cons name rest =>
    cases rest with
    | nil => rfl
    | cons colon body =>
      simp only [attribute?, valueTokens, List.map_cons, Relocation.lexeme_token] at h ⊢
      split
      · rename_i hname hcolon
        rw [hname, hcolon] at h
        rw [splitAtBracket_map]
        cases hs : splitAtBracket body with
        | none => rfl
        | some found =>
          obtain ⟨inside, close, behind⟩ := found
          simp only [hs, Option.elim_some, List.mem_append, List.mem_singleton] at h
          have hinside : inside.map (relead tokens).token = inside := by
            conv_rhs => rw [← List.map_id inside]
            exact List.map_congr_left fun token ht => hsame (h token (Or.inl ht))
          have hclose := hsame (h close (Or.inr rfl))
          simp only [Option.map_some, hinside, hclose, Relocation.cursor]
          simp [relead]
      · rfl

/-- Nothing is read from the text in front of a token but the value of an attribute. -/
theorem trail_relead {scope scope' : Scope} {all tokens : List Token} (hfile : scope'.file = scope.file)
    (hnumber : ∀ token ∈ all,
      scope'.constants.resolve? token.text = scope.constants.resolve? token.text)
    (hlead : ∀ token ∈ attributeTokens all, leadAt tokens token.line token.column = token.lead) :
    Trail (relead tokens) scope scope' (fun _ rest => rest <:+ all) (fun rest => rest <:+ all) := by
  have htail : ∀ {token : Token} {rest : List Token}, token :: rest <:+ all → rest <:+ all :=
    (List.suffix_cons _ _).trans
  exact
    { room := fun _ _ => rfl
      file := hfile
      number := fun _ token rest h => hnumber token (h.subset List.mem_cons_self)
      plain := fun _ _ _ _ => htail
      value := fun _ _ _ _ => htail
      opened := fun _ _ _ _ => htail
      closed := fun _ _ _ _ => htail
      inner := fun _ _ _ _ => htail
      ended := fun _ _ _ => htail
      less := fun _ _ h => h
      final := fun _ h => h
      bracket := fun token rest hl h => by
        have hvalue : attribute? (rest.map (relead tokens).token) =
            (attribute? rest).map fun found => (found.1, (relead tokens).cursor found.2) :=
          attribute?_relead fun found hf => hlead found (mem_attributeTokens h hl hf)
        refine ⟨?_, fun found final hf => (attribute?_suffix hf).trans (htail h)⟩
        rw [show (relead tokens).behind = [] from rfl, List.append_nil]
        exact hvalue }

/-! ## Constants -/

theorem directivesOf_directive (line : List Char) (found : List Item) :
    directivesOf (.directive line :: found) = line :: directivesOf found := rfl

/-- None of the directives defines the name. -/
def Undefined (lines : List (List Char)) (name : String) : Prop :=
  ∀ line ∈ lines, ∀ value, Constants.ofDirective? line ≠ some (name, value)

/-- A name that no directive defines which is gone has the same constant without them. -/
theorem Blanks.lookup {gone : List (List Char)} {found found' : List Item}
    (h : Blanks gone found found') {name : String} (hname : Undefined gone name)
    (more : Constants) :
    (((directivesOf found).filterMap Constants.ofDirective?).reverse ++ more).lookup name =
      (((directivesOf found').filterMap Constants.ofDirective?).reverse ++ more).lookup name := by
  induction h generalizing more with
  | nil => rfl
  | token _ _ ih => exact ih more
  | @kept line _ _ _ ih =>
    simp only [directivesOf_directive, List.filterMap_cons]
    cases Constants.ofDirective? line with
    | none => exact ih more
    | some entry =>
      simp only [List.reverse_cons, List.append_assoc]
      exact ih ([entry] ++ more)
  | @blanked line _ _ hmem _ ih =>
    simp only [directivesOf_directive, List.filterMap_cons]
    cases hd : Constants.ofDirective? line with
    | none => exact ih more
    | some entry =>
      have hne : (name == entry.1) = false := by
        refine beq_eq_false_iff_ne.2 ?_
        rintro rfl
        exact hname line hmem entry.2 hd
      have hskip : List.lookup name ([entry] ++ more) = List.lookup name more := by
        rw [List.singleton_append, List.lookup_cons, hne]
      simp only [List.reverse_cons, List.append_assoc]
      rw [ih, List.lookup_append, hskip, ← List.lookup_append]

/-- A number is found alike if all names on the way to it are. -/
theorem Constants.resolve?_congr {constants constants' : Constants} {asked : String → Prop}
    (hlookup : ∀ name, asked name → constants.lookup name = constants'.lookup name)
    (hvalue : ∀ entry ∈ constants', asked entry.2) {text : String} (h : asked text) :
    constants.resolve? text = constants'.resolve? text := by
  have hwithin : ∀ depth text, asked text →
      constants.resolveWithin? depth text = constants'.resolveWithin? depth text := by
    intro depth
    induction depth with
    | zero => exact fun _ _ => rfl
    | succ depth ih =>
      intro text htext
      rw [resolveWithin?, resolveWithin?, hlookup text htext]
      cases Text.integerLiteral? text with
      | some value => rfl
      | none =>
        cases hl : constants'.lookup text with
        | none => rfl
        | some value =>
          obtain ⟨front, back, rfl, -⟩ := List.lookup_eq_some_iff.1 hl
          exact ih value (hvalue (text, value) (by simp))
  exact hwithin maxDepth text h

end Source

open Source

/-! ## Sources -/

/-- With blanks in the place of its directives that are no definitions a source is read as before, if
each of them ends with its line, none stands in the value of an attribute, and none defines a name that
is asked for. -/
theorem read_blanked (key : String) {text text' : String}
    (hblanked : stripComments text'.toList = blankDirectives (stripComments text.toList))
    (hlines : ∀ line ∈ otherDirectives (stripComments text.toList), '\n' ∉ line)
    (hvalues : ∀ token ∈ attributeTokens (tokensIn text),
      ∀ line ∈ otherDirectives (stripComments text.toList), ¬ line <:+: token.lead)
    (hnames : ∀ defined ∈
        (otherDirectives (stripComments text.toList)).filterMap Constants.ofDirective?,
      (∀ token ∈ tokensIn text, token.text ≠ defined.1) ∧
        ∀ entry ∈ constantsOf text'.toList, entry.2 ≠ defined.1) :
    SourceContents.read key text' = SourceContents.read key text := by
  have hblanks : Blanks (otherDirectives (stripComments text.toList))
      (items (stripComments text.toList)) (items (stripComments text'.toList)) := by
    rw [hblanked]
    exact readsBlanked _ true _ (fun other ho => ⟨ho, hlines other ho⟩) 1 1 [] [] fun _ => rfl
  have hplaces := (behind_itemsFrom 1 1 true [] (stripComments text'.toList)).2
  have htokens : (tokensIn text).map (relead (tokensIn text')).token = tokensIn text' :=
    hblanks.tokens hplaces
  have hlead : ∀ token ∈ attributeTokens (tokensIn text),
      leadAt (tokensIn text') token.line token.column = token.lead := fun token ht =>
    hblanks.lead hplaces token (attributeTokens_subset _ ht) (hvalues token ht)
  have hundefined : ∀ {name : String}, (∀ defined ∈ (otherDirectives
      (stripComments text.toList)).filterMap Constants.ofDirective?, name ≠ defined.1) →
        Undefined (otherDirectives (stripComments text.toList)) name := fun hne line hl value hd =>
    hne (_, value) (List.mem_filterMap.2 ⟨line, hl, hd⟩) rfl
  have hstatements : Constants.ofStatements (tokensIn text) =
      Constants.ofStatements (tokensIn text') := by
    refine Constants.ofStatements_congr ?_
    rw [← htokens, List.map_map]
    rfl
  have hnumber : ∀ token ∈ tokensIn text, (constantsOf text'.toList).resolve? token.text =
      (constantsOf text.toList).resolve? token.text := by
    intro token ht
    have hasked := hundefined fun defined hd => (hnames defined hd).1 token ht
    refine (Constants.resolve?_congr (fun name hname => ?_)
      (fun entry he => hundefined fun defined hd => (hnames defined hd).2 entry he) hasked).symm
    have hlookup := hblanks.lookup hname (Constants.ofStatements (tokensIn text))
    exact hlookup.trans (by rw [hstatements]; rfl)
  have hstart : (Cursor.mk 0 (tokensIn text)).rest <:+ tokensIn text := List.suffix_refl _
  have htrail : Trail (relead (tokensIn text')) ⟨key, constantsOf text.toList⟩
      ⟨key, constantsOf text'.toList⟩ _ _ := trail_relead rfl hnumber hlead
  have hcursor : (relead (tokensIn text')).cursor ⟨0, tokensIn text⟩ = ⟨0, tokensIn text'⟩ := by
    unfold Relocation.cursor
    dsimp only
    rw [htokens]
    simp [relead]
  have hread := (statements_moves htrail {} hstart).1
  rw [hcursor] at hread
  rw [read_eq, read_eq]
  refine (congrArg (gathered key) hread).trans ((gathered_reading _ key _).trans ?_)
  rw [show (relead (tokensIn text')).place = id from rfl, SourceContents.mapPlace_id]
  exact reading_relead _ _

/-- The number of a sampler's binding is found without the directive in front of its definition. -/
theorem read_blanked_version :
    (SourceContents.read "a.glsl"
        "            \n#define N 2\nlayout(binding = N) uniform sampler2D gain;").result.isOk = true ∧
      SourceContents.read "a.glsl"
          "            \n#define N 2\nlayout(binding = N) uniform sampler2D gain;" =
        SourceContents.read "a.glsl"
          "#version 330\n#define N 2\nlayout(binding = N) uniform sampler2D gain;" :=
  ⟨by decide +kernel, read_blanked "a.glsl" (by decide +kernel) (by decide +kernel) (by decide +kernel)
    (by decide +kernel)⟩

/-- A macro that is continued on a second line declares what stands there. -/
theorem macro_declares :
    blankDirectives (stripComments
        "#define DECLARE(name) \\\n  uniform float name;\nuniform float gain;".toList) =
        stripComments "                       \n                     \nuniform float gain;".toList ∧
      (SourceContents.read "a.glsl"
          "#define DECLARE(name) \\\n  uniform float name;\nuniform float gain;").result.map
        (fun contents => contents.uniforms.map UniformDeclaration.name) = .ok ["name", "gain"] ∧
      (SourceContents.read "a.glsl"
          "                       \n                     \nuniform float gain;").result.map
        (fun contents => contents.uniforms.map UniformDeclaration.name) = .ok ["gain"] := by
  refine ⟨?_, ?_, ?_⟩ <;> decide +kernel

end UniformLayout
