import UniformLayout.Proofs.Source.Leading

/-!
# The heads of uniform statements

In front of the type of its uniforms a statement may have a `layout(...)` list, qualifiers and the
declarators of other uniforms. They are read in the same way whatever follows them.

* `Expression`: lexemes with all their brackets closed.
* `LayoutList.read_cases`: a list is refused or read up to its end.
* `Listed`: declarators that end with a comma.

Main statements: `LayoutList.read_cases` and `Listed.advances`.
-/

namespace UniformLayout.Source

open Logged

variable {scope : Scope} {line : Nat} {front rest : List Token}

/-- The marks that enclose, separate and end what is written. -/
def delimiters : List Char := ['(', ')', '[', ']', '{', '}', ',', ';']

/-! ## Expressions -/

/-- The brackets that enclose a part of an expression. -/
def brackets : List (Char × Char) := [('(', ')'), ('[', ']'), ('{', '}')]

/-- The lexeme neither opens nor closes brackets and does not end a statement or start one. -/
def IsOperand (lexeme : Lexeme) : Prop :=
  (∀ c ∈ ['(', ')', '[', ']', '{', '}', ';'], lexeme ≠ .punct c) ∧ lexeme.text ≠ "const"

instance : DecidablePred IsOperand := fun lexeme =>
  inferInstanceAs (Decidable ((∀ c ∈ ['(', ')', '[', ']', '{', '}', ';'], lexeme ≠ .punct c) ∧
    lexeme.text ≠ "const"))

/-- Lexemes whose brackets are closed in the order in which they were opened. -/
inductive Expression : List Lexeme → Prop
  | nil : Expression []
  | operand {lexeme : Lexeme} {rest : List Lexeme} : IsOperand lexeme → Expression rest →
      Expression (lexeme :: rest)
  | nest {opening closing : Char} {inner rest : List Lexeme} : (opening, closing) ∈ brackets →
      Expression inner → Expression rest →
        Expression (.punct opening :: (inner ++ .punct closing :: rest))

namespace Expression

theorem ne_semicolon {lexemes : List Lexeme} (h : Expression lexemes) :
    ∀ lexeme ∈ lexemes, lexeme ≠ .punct ';' := by
  induction h with
  | nil => simp
  | operand ho _ ih => exact List.forall_mem_cons.2 ⟨ho.1 ';' (by decide), ih⟩
  | nest hb _ _ ih ih' =>
    have hmarks : ∀ pair ∈ brackets, pair.1 ≠ ';' ∧ pair.2 ≠ ';' := by decide
    obtain ⟨hopening, hclosing⟩ := hmarks _ hb
    simp only [List.mem_cons, List.mem_append]
    rintro lexeme (rfl | hm | rfl | hm)
    · simpa using hopening
    · exact ih lexeme hm
    · simpa using hclosing
    · exact ih' lexeme hm

theorem ne_const {lexemes : List Lexeme} (h : Expression lexemes) :
    ∀ lexeme ∈ lexemes, lexeme.text ≠ "const" := by
  induction h with
  | nil => simp
  | operand ho _ ih => exact List.forall_mem_cons.2 ⟨ho.2, ih⟩
  | nest hb _ _ ih ih' =>
    have hmarks : ∀ pair ∈ brackets, pair.1.toString ≠ "const" ∧ pair.2.toString ≠ "const" := by
      decide
    obtain ⟨hopening, hclosing⟩ := hmarks _ hb
    simp only [List.mem_cons, List.mem_append]
    rintro lexeme (rfl | hm | rfl | hm)
    · exact hopening
    · exact ih lexeme hm
    · exact hclosing
    · exact ih' lexeme hm

/-- An expression starts with an operand or opens a bracket. -/
theorem cons_cases {lexeme : Lexeme} {rest : List Lexeme} (h : Expression (lexeme :: rest)) :
    IsOperand lexeme ∧ Expression rest ∨ ∃ c ∈ ['(', '[', '{'], lexeme = .punct c := by
  cases h with
  | operand ho hrest => exact Or.inl ⟨ho, hrest⟩
  | nest hb _ _ =>
    refine Or.inr ⟨_, ?_, rfl⟩
    have hall : ∀ pair ∈ brackets, pair.1 ∈ ['(', '[', '{'] := by decide
    exact hall _ hb

/-- The first bracket of an expression is an opening one. -/
theorem flat_or_nested {tokens : List Token} (h : Expression (tokens.map Token.lexeme)) :
    (∀ token ∈ tokens, IsOperand token.lexeme) ∨ ∃ front opening rest, tokens = front ++ opening :: rest ∧
      (∀ token ∈ front, IsOperand token.lexeme) ∧ ∃ c ∈ ['(', '[', '{'], opening.lexeme = .punct c := by
  induction tokens with
  | nil => exact Or.inl (by simp)
  | cons token tokens ih =>
    rw [List.map_cons] at h
    rcases h.cons_cases with ⟨ho, htail⟩ | hopen
    · rcases ih htail with hflat | ⟨front, opening, rest, rfl, hfront, hopening⟩
      · exact Or.inl (List.forall_mem_cons.2 ⟨ho, hflat⟩)
      · exact Or.inr ⟨token :: front, opening, rest, rfl, List.forall_mem_cons.2 ⟨ho, hfront⟩, hopening⟩
    · exact Or.inr ⟨[], token, tokens, rfl, by simp, hopen⟩

/-- An expression leaves as many groups open as there were in front of it. -/
theorem depth_append {lexemes : List Lexeme} (h : Expression lexemes) (groups : Nat)
    (rest : List Lexeme) : depth groups (lexemes ++ rest) = depth groups rest := by
  induction h generalizing groups rest with
  | nil => rfl
  | operand ho _ ih =>
    rw [List.cons_append, depth_plain (ho.1 _ (by decide)) (ho.1 _ (by decide)), ih]
  | @nest opening closing inner tail hb _ _ ih ih' =>
    rw [List.cons_append, List.append_assoc, List.cons_append]
    simp only [brackets, List.mem_cons, Prod.mk.injEq, List.not_mem_nil, or_false] at hb
    rcases hb with ⟨rfl, rfl⟩ | ⟨rfl, rfl⟩ | ⟨rfl, rfl⟩
    · rw [depth_plain (by simp) (by simp), ih, depth_plain (by simp) (by simp), ih']
    · rw [depth_plain (by simp) (by simp), ih, depth_plain (by simp) (by simp), ih']
    · rw [depth_open, ih, depth_close, Nat.add_sub_cancel, ih']

end Expression

/-! ## Passing over -/

/-- The line of the last token, if there is one. -/
def lineAfter (line : Nat) (tokens : List Token) : Nat :=
  tokens.foldl (fun _ token => token.line) line

theorem skipWhile_passes {p : Lexeme → Bool} (h : ∀ token ∈ front, p token.lexeme) (line : Nat)
    (rest : List Token) :
    Cursor.skipWhile p line (front ++ rest) = Cursor.skipWhile p (lineAfter line front) rest := by
  induction front generalizing line with
  | nil => rfl
  | cons token front ih =>
    obtain ⟨htoken, hfront⟩ := List.forall_mem_cons.1 h
    rw [List.cons_append, Cursor.skipWhile, if_pos htoken, ih hfront]
    rfl

/-- The skipped statement does not end without a semicolon. -/
theorem skipStatement_passes (h : ∀ token ∈ front, token.lexeme ≠ .punct ';') (groups line : Nat)
    (rest : List Token) : Cursor.skipStatement groups line (front ++ rest) =
      Cursor.skipStatement (depth groups (front.map Token.lexeme)) (lineAfter line front) rest := by
  induction front generalizing groups line with
  | nil => rfl
  | cons token front ih =>
    obtain ⟨htoken, hfront⟩ := List.forall_mem_cons.1 h
    rw [List.cons_append, List.map_cons]
    by_cases hopen : token.lexeme = .punct '{'
    · rw [skipStatement_open _ _ hopen, hopen, depth_open, ih hfront]
      rfl
    · by_cases hclose : token.lexeme = .punct '}'
      · rw [skipStatement_close _ _ hclose, hclose, depth_close, ih hfront]
        rfl
      · rw [skipStatement_plain _ _ hopen hclose, if_neg fun hend => htoken hend.1,
          depth_plain hopen hclose, ih hfront]
        rfl

theorem skipQualifiers_passes (h : ∀ token ∈ front, isIdle token.lexeme) {first : Token}
    (hfirst : ¬ isIdle first.lexeme) (line : Nat) (rest : List Token) :
    Cursor.skipQualifiers ⟨line, front ++ first :: rest⟩ = ⟨lineAfter line front, first :: rest⟩ := by
  have hpass := skipWhile_passes h line (first :: rest)
  rw [Cursor.skipWhile.eq_2, if_neg hfirst] at hpass
  exact hpass

theorem isIdle_iff {lexeme : Lexeme} :
    isIdle lexeme ↔ ∃ text ∈ Cursor.idleQualifiers, lexeme = .word text := by
  cases lexeme <;> simp [isIdle]

/-! ## Layout lists -/

/-- The inside of a list with the parenthesis that closes it. -/
def IsList (tokens : List Token) : Prop :=
  ∃ inner closing, tokens = inner ++ [closing] ∧ closing.lexeme = .punct ')' ∧
    ∀ token ∈ inner, token.lexeme ≠ .punct ')'

namespace IsList

variable {token : Token}

theorem tail (h : IsList (token :: rest)) (hne : token.lexeme ≠ .punct ')') : IsList rest := by
  obtain ⟨inner, closing, htokens, hclosing, hinner⟩ := h
  cases inner with
  | nil =>
    obtain ⟨rfl, -⟩ := List.cons.inj htokens
    exact absurd hclosing hne
  | cons first inner =>
    obtain ⟨-, rfl⟩ := List.cons.inj htokens
    exact ⟨inner, closing, rfl, hclosing, (List.forall_mem_cons.1 hinner).2⟩

theorem closes : Passes ')' IsList (· = []) := by
  rintro token rest hl ⟨inner, closing, htokens, -, hinner⟩
  cases inner with
  | nil => exact (List.cons.inj htokens).2
  | cons first inner =>
    obtain ⟨rfl, -⟩ := List.cons.inj htokens
    exact absurd hl (hinner _ (by simp))

theorem track (hmarks : NoNumber [')'] scope) (behind : List Token) :
    Track (followedBy behind) scope scope IsList where
  room h := by
    obtain ⟨inner, closing, htokens, -⟩ := h
    simp at htokens
  file := rfl
  number _ _ _ := rfl
  plain token rest hm h := h.tail (hm _ (by decide))
  value token rest hv h := h.tail (hmarks.ne hv _ (by decide))

end IsList

namespace LayoutList

/-- An entry in front of a bracket is refused, or read up to some place in front of the bracket. -/
theorem entry_cases {opening : Token} {c : Char} (hopening : opening.lexeme = .punct c)
    (hc : c ∉ [',', ')', '=']) (hnumber : scope.constants.resolve? opening.text = none)
    (hfront : ∀ token ∈ front, token.lexeme ≠ .punct ')') (declaration : String) (line : Nat) :
    (∃ e, ∀ rest, entry scope declaration () ⟨line, front ++ opening :: rest⟩ = ⟨[], .error e⟩) ∨
      ∃ item line' front', front' <:+ front ∧ front'.length < front.length ∧
        ∀ rest, entry scope declaration () ⟨line, front ++ opening :: rest⟩ =
          ⟨[], .ok (.again item (), ⟨line', front' ++ opening :: rest⟩)⟩ := by
  simp only [List.mem_cons, List.not_mem_nil, or_false, not_or] at hc
  obtain ⟨hcomma, hparen, hsign⟩ := hc
  have herror : ∀ line reason, ∃ e, ∀ rest, scope.malformed (α := Cursor.Turn Unit (Option Entry) × Cursor)
      ⟨line, rest⟩ declaration reason = ⟨[], .error e⟩ :=
    fun line reason => ⟨.malformedDeclaration scope.file line declaration reason, fun _ => rfl⟩
  cases front with
  | nil =>
    obtain ⟨e, he⟩ := herror opening.line .strayLayoutToken
    refine Or.inl ⟨e, fun rest => ?_⟩
    simp [entry, Cursor.next?, hopening, hcomma, hparen, he]
  | cons token front =>
    have hshort : front.length < (token :: front).length := Nat.lt_succ_self _
    have hsuffix : front <:+ token :: front := List.suffix_cons _ _
    cases hm : token.lexeme with
    | number text =>
      obtain ⟨e, he⟩ := herror token.line .strayLayoutToken
      exact Or.inl ⟨e, fun rest => by simp [entry, Cursor.next?, hm, he]⟩
    | punct d =>
      by_cases hd : d = ','
      · subst hd
        exact Or.inr ⟨none, token.line, front, hsuffix, hshort, fun rest => by
          simp [entry, Cursor.next?, hm]⟩
      · have hd' : d ≠ ')' := fun hd' => hfront token (by simp) (by rw [hm, hd'])
        obtain ⟨e, he⟩ := herror token.line .strayLayoutToken
        exact Or.inl ⟨e, fun rest => by simp [entry, Cursor.next?, hm, hd, hd', he]⟩
    | word name =>
      cases front with
      | nil =>
        refine Or.inr ⟨some (name, none), token.line, [], hsuffix, hshort, fun rest => ?_⟩
        simp [entry, Cursor.next?, hm, Cursor.eat?, hopening, hsign]
      | cons sign front =>
        by_cases hs : sign.lexeme = .punct '='
        · cases front with
          | nil =>
            obtain ⟨e, he⟩ := herror opening.line (.layoutWithoutValue name)
            exact Or.inl ⟨e, fun rest => by
              simp [entry, Cursor.next?, hm, Cursor.eat?, hs, hnumber, he]⟩
          | cons value front =>
            cases hv : scope.constants.resolve? value.text with
            | none =>
              obtain ⟨e, he⟩ := herror value.line (.layoutWithoutValue name)
              exact Or.inl ⟨e, fun rest => by
                simp [entry, Cursor.next?, hm, Cursor.eat?, hs, hv, he]⟩
            | some number =>
              refine Or.inr ⟨some (name, some number), value.line, front,
                ((List.suffix_cons _ _).trans (List.suffix_cons _ _)).trans hsuffix, by simp; omega,
                fun rest => ?_⟩
              simp [entry, Cursor.next?, hm, Cursor.eat?, hs, hv]
        · exact Or.inr ⟨some (name, none), token.line, sign :: front, hsuffix, hshort, fun rest => by
            simp [entry, Cursor.next?, hm, Cursor.eat?, hs]⟩

/-- A bracket among the entries is refused, if not something in front of it. -/
theorem entries_refused {opening : Token} {c : Char} (hopening : opening.lexeme = .punct c)
    (hc : c ∉ [',', ')', '=']) (hnumber : scope.constants.resolve? opening.text = none)
    (hfront : ∀ token ∈ front, token.lexeme ≠ .punct ')') (declaration : String) (line : Nat) :
    ∃ e, ∀ rest, Cursor.loop (entry scope declaration) () ⟨line, front ++ opening :: rest⟩ =
      ⟨[], .error e⟩ := by
  induction hn : front.length using Nat.strongRecOn generalizing front line with
  | ind n ih =>
    subst hn
    rcases entry_cases hopening hc hnumber hfront declaration line with ⟨e, hfail⟩ |
      ⟨item, line', front', hsuffix, hlt, hread⟩
    · refine ⟨e, fun rest => ?_⟩
      rw [Cursor.loop, hfail]
      rfl
    · obtain ⟨e, hfail⟩ := ih _ hlt (fun token ht => hfront token (hsuffix.subset ht)) line' rfl
      refine ⟨e, fun rest => ?_⟩
      rw [Cursor.loop_again (hread rest) (by simpa using hlt), hfail]
      rfl

/-- A `layout(...)` list is read in the same way whatever follows it. -/
theorem read_cases (hmarks : NoNumber ['(', '[', '{', ')'] scope) {opening closing : Token}
    {inner : List Token} (hopening : opening.lexeme = .punct '(')
    (hclosing : closing.lexeme = .punct ')') (hinner : Expression (inner.map Token.lexeme))
    (declaration : String) (line : Nat) :
    (∃ notices e, ∀ rest, read scope declaration
        ⟨line, opening :: (inner ++ closing :: rest)⟩ = ⟨notices, .error e⟩) ∨
      ∃ notices list line', ∀ rest, read scope declaration
        ⟨line, opening :: (inner ++ closing :: rest)⟩ = ⟨notices, .ok (list, ⟨line', rest⟩)⟩ := by
  rcases hinner.flat_or_nested with hflat | ⟨front, nested, back, rfl, hfront, c, hc, hnested⟩
  · have hstart : IsList (Cursor.mk line (opening :: (inner ++ [closing]))).rest :=
      ⟨opening :: inner, closing, rfl, hclosing, List.forall_mem_cons.2
        ⟨by simp [hopening], fun token ht => (hflat token ht).1 _ (by decide)⟩⟩
    have hmoves := fun rest => read_moves (IsList.track (hmarks.mono (by decide)) rest)
      (fun token rest hl h => h.tail (by simp [hl])) IsList.closes declaration hstart
    have hread : ∀ rest, read scope declaration ⟨line, opening :: (inner ++ closing :: rest)⟩ =
        appended rest (read scope declaration ⟨line, opening :: (inner ++ [closing])⟩) := by
      intro rest
      have hmove := (hmoves rest).1
      rw [cursor_followedBy, reading_followedBy rfl] at hmove
      rw [← hmove]
      simp
    have hends := (hmoves []).2
    rcases hs : read scope declaration ⟨line, opening :: (inner ++ [closing])⟩ with
      ⟨notices, e | ⟨list, next⟩⟩
    · refine Or.inl ⟨notices, e, fun rest => ?_⟩
      rw [hread, hs]
      rfl
    · have hnext : next.rest = [] := hends (list, next) (by rw [hs])
      refine Or.inr ⟨notices, list, next.line, fun rest => ?_⟩
      rw [hread, hs]
      simp [appended, Except.map, hnext]
  · have hplain : ∀ c ∈ ['(', '[', '{'], c ∉ [',', ')', '='] ∧ c ∈ ['(', '[', '{', ')'] := by decide
    have hnumber : scope.constants.resolve? nested.text = none := by
      rw [Token.text, hnested]
      exact hmarks c (hplain c hc).2
    obtain ⟨e, hfail⟩ := entries_refused hnested (hplain c hc).1 hnumber
      (fun token ht => (hfront token ht).1 _ (by decide)) declaration opening.line
    refine Or.inl ⟨[], e, fun rest => ?_⟩
    have hsplit : front ++ nested :: back ++ closing :: rest =
        front ++ nested :: (back ++ closing :: rest) := by simp
    simp only [read, Cursor.eat?, hopening, if_true, hsplit, hfail]
    rfl

end LayoutList

/-! ## Earlier declarators -/

/-- Declarators that end with a comma. -/
structure Listed (tokens : List Token) : Prop where
  last : (tokens.map Token.lexeme).getLast? = some (.punct ',')
  plain : ∀ token ∈ tokens, token.lexeme ≠ .punct ';'

/-- The declarators in front of another one, with the comma behind them. -/
def AreEarlier (tokens : List Token) : Prop :=
  tokens = [] ∨ Listed tokens ∧ ∃ first rest text, tokens = first :: rest ∧ first.lexeme = .word text

theorem Listed.tail {token : Token} (h : Listed (token :: rest))
    (hne : token.lexeme ≠ .punct ',') : Listed rest := by
  have hlast := h.last
  cases rest with
  | nil => exact absurd (by simpa using hlast) hne
  | cons second rest =>
    rw [List.map_cons, List.map_cons, List.getLast?_cons_cons] at hlast
    exact ⟨hlast, (List.forall_mem_cons.1 h.plain).2⟩

theorem Listed.track (hmarks : NoNumber [','] scope) (behind : List Token) :
    Track (followedBy behind) scope scope Listed where
  room h := by cases h.last
  file := rfl
  number _ _ _ := rfl
  plain token rest hm h := h.tail (hm _ (by decide))
  value token rest hv h := h.tail (hmarks.ne hv _ (by decide))

theorem uniformDeclarator_turns (typeName : String) (layout : LayoutList)
    (attributes : List Attribute) (cursor : Cursor) :
    (uniformDeclarator scope typeName layout attributes () cursor).Ensures
      (TurnsTo (fun _ => True) (fun _ => True) cursor) :=
  (uniformDeclarator_moves ((trail_nowhere scope).track 0) (fun _ _ _ _ => trivial)
    (fun _ _ _ _ => trivial) (fun _ _ _ _ => trivial) typeName layout attributes trivial).2

/-- A step among declarators that end with a comma reads some of them. -/
theorem Listed.advances (hmarks : NoNumber [','] scope) (typeName : String) (layout : LayoutList)
    (attributes : List Attribute) (state : Unit) (line : Nat) (front : List Token)
    (h : Listed front) :
    Advances (uniformDeclarator scope typeName layout attributes) Listed state line front := by
  have hfront : Listed (Cursor.mk line front).rest := h
  have hcomma : Passes ',' Listed fun tokens => tokens = [] ∨ Listed tokens := by
    intro token rest _ h
    by_cases hnil : rest = []
    · exact Or.inl hnil
    · obtain ⟨second, rest, rfl⟩ := List.exists_cons_of_ne_nil hnil
      have hlast := h.last
      rw [List.map_cons, List.map_cons, List.getLast?_cons_cons] at hlast
      exact Or.inr ⟨hlast, (List.forall_mem_cons.1 h.plain).2⟩
  have hend : Passes ';' Listed fun _ => False := fun token rest hl h =>
    h.plain token (by simp) hl
  have hmoves := fun rest => uniformDeclarator_moves (Listed.track hmarks rest)
    (fun token rest hm h => h.tail (hm _ (by decide))) hcomma hend typeName layout attributes hfront
  refine advances_of_moves UniformDeclaration.mapPlace_id hmoves fun found hf => ?_
  obtain ⟨turn, next⟩ := found
  have hturn := (hmoves []).2 (turn, next) hf
  cases turn with
  | again item state => exact ⟨item, state, rfl⟩
  | last item => exact hturn.elim
  | done => exact hturn.elim

theorem statement_turns (pending : Pending) (cursor : Cursor) :
    (statement scope pending cursor).Ensures
      (TurnsTo (fun _ => True) (fun _ => True) cursor) :=
  (statement_moves (trail_nowhere scope) pending trivial).2

end UniformLayout.Source
