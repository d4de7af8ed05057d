import UniformLayout.Proofs.Source.Relocation

/-!
# Statements that are moved

Where the tokens of a source are moved, its statements are read as before, and what is read is moved
with them.

* `Trail`: what is known of the tokens in each number of open groups, and behind a statement.

Main statements: `uniformStatement_moves` and `statement_moves`.
-/

namespace UniformLayout.Source

open Logged

/-! ## What is known at the top level -/

variable {move : Relocation} {scope scope' : Scope} {P : Nat → List Token → Prop}
  {Q : List Token → Prop} {cursor : Cursor} {token : Token}

/-- A property of the tokens that are still to be read, for each number of open groups, and one of
those behind a statement. It is kept as the tokens are read. -/
structure Trail (move : Relocation) (scope scope' : Scope) (P : Nat → List Token → Prop)
    (Q : List Token → Prop) : Prop where
  room : ∀ groups, P groups [] → move.behind = []
  file : scope'.file = scope.file
  number : ∀ groups token rest, P groups (token :: rest) →
    scope'.constants.resolve? token.text = scope.constants.resolve? token.text
  plain : ∀ groups token rest, (∀ c ∈ ['{', '}', ';'], token.lexeme ≠ .punct c) →
    P groups (token :: rest) → P groups rest
  value : ∀ groups token rest, (scope.constants.resolve? token.text).isSome →
    P groups (token :: rest) → P groups rest
  opened : ∀ groups, Passes '{' (P groups) (P (groups + 1))
  closed : ∀ groups, Passes '}' (P groups) (P (groups - 1))
  inner : ∀ groups, Passes ';' (P (groups + 1)) (P (groups + 1))
  ended : Passes ';' (P 0) Q
  less : ∀ groups tokens, P (groups + 1) tokens → P groups tokens
  final : ∀ tokens, P 0 tokens → Q tokens
  bracket : ∀ token rest, token.lexeme = .punct '[' → P 0 (token :: rest) →
    attribute? (rest.map move.token ++ move.behind) =
        (attribute? rest).map (fun found => (found.1, move.cursor found.2)) ∧
      ∀ found final, attribute? rest = some (found, final) → P 0 final.rest

namespace Trail

theorem track (h : Trail move scope scope' P Q) (groups : Nat) :
    Track move scope scope' (P groups) where
  room := h.room groups
  file := h.file
  number := h.number groups
  plain token rest hm := h.plain groups token rest fun c hc => hm c (by
    revert c
    decide)
  value := h.value groups

theorem passes (h : Trail move scope scope' P Q) {c : Char} (hm : c ∉ ['{', '}', ';'])
    (groups : Nat) : Passes c (P groups) (P groups) := by
  intro token rest hl
  refine h.plain groups token rest fun d hd heq => hm ?_
  rw [hl] at heq
  rwa [Lexeme.punct.inj heq]

theorem inside (h : Trail move scope scope' P Q) : Enclosed (P 1) where
  comma := h.passes (by decide) 1
  paren := h.passes (by decide) 1
  semicolon := h.inner 0

/-- Outside all groups any token but a semicolon leaves what is known. -/
theorem next (h : Trail move scope scope' P Q) {rest : List Token}
    (hm : token.lexeme ≠ .punct ';') (hP : P 0 (token :: rest)) : P 0 rest := by
  by_cases hopen : token.lexeme = .punct '{'
  · exact h.less 0 rest (h.opened 0 token rest hopen hP)
  · by_cases hclose : token.lexeme = .punct '}'
    · exact h.closed 0 token rest hclose hP
    · exact h.plain 0 token rest (by simp [hopen, hclose, hm]) hP

/-- What is known in some groups is known outside all of them. -/
theorem outside (h : Trail move scope scope' P Q) {groups : Nat} {tokens : List Token}
    (hP : P groups tokens) : P 0 tokens := by
  induction groups with
  | zero => exact hP
  | succ groups ih => exact ih (h.less groups tokens hP)

/-- It may be known also that no more tokens are left than at some time. -/
theorem within (h : Trail move scope scope' P Q) (n : Nat) :
    Trail move scope scope' (fun groups tokens => P groups tokens ∧ tokens.length ≤ n)
      (fun tokens => Q tokens ∧ tokens.length ≤ n) where
  room groups hP := h.room groups hP.1
  file := h.file
  number groups token rest hP := h.number groups token rest hP.1
  plain groups token rest hm hP := ⟨h.plain groups token rest hm hP.1, Nat.le_of_succ_le hP.2⟩
  value groups token rest hv hP := ⟨h.value groups token rest hv hP.1, Nat.le_of_succ_le hP.2⟩
  opened groups token rest hl hP := ⟨h.opened groups token rest hl hP.1, Nat.le_of_succ_le hP.2⟩
  closed groups token rest hl hP := ⟨h.closed groups token rest hl hP.1, Nat.le_of_succ_le hP.2⟩
  inner groups token rest hl hP := ⟨h.inner groups token rest hl hP.1, Nat.le_of_succ_le hP.2⟩
  ended token rest hl hP := ⟨h.ended token rest hl hP.1, Nat.le_of_succ_le hP.2⟩
  less groups tokens hP := ⟨h.less groups tokens hP.1, hP.2⟩
  final tokens hP := ⟨h.final tokens hP.1, hP.2⟩
  bracket token rest hl hP := by
    obtain ⟨hmove, hkeep⟩ := h.bracket token rest hl hP.1
    refine ⟨hmove, fun found final hf => ⟨hkeep found final hf, ?_⟩⟩
    exact (attribute?_shorter hf).le.trans (Nat.le_of_succ_le hP.2)

end Trail

/-! ## Uniform statements -/

theorem blockEnd_moves (h : Trail move scope scope' P Q) (packing : Packing) (start : Token)
    (layout : LayoutList) (attributes : List Attribute) (blockName : Option String)
    (fields : List FieldDeclaration) (instanceName : Option String) (hc : P 0 cursor.rest) :
    Moves move (move.result (Entry.mapPlace move.place)) (fun found => Q found.2.rest)
      (blockEnd scope packing start layout attributes blockName fields instanceName cursor)
      (blockEnd scope' packing (move.token start) layout attributes blockName
        (fields.map (FieldDeclaration.mapPlace move.place)) instanceName (move.cursor cursor)) := by
  have ht := h.track 0
  unfold blockEnd
  refine (arrayLength_moves ht hc _ _).bind ?_
  rintro ⟨length, behind⟩ hbehind
  dsimp only [Relocation.result, id] at hbehind ⊢
  rw [ht.eat? hbehind, ht.locate]
  cases he : behind.eat? ';' with
  | none => exact ht.malformed rfl _ _
  | some final =>
    have hfinal := h.ended.eat hbehind he
    dsimp only [Option.map_some]
    cases blockName.or instanceName with
    | none => exact (moves_note rfl).bind fun _ _ => moves_pure rfl hfinal
    | some name =>
      dsimp only
      split
      · refine (moves_note rfl).bind fun _ _ => ?_
        split
        · exact (moves_note rfl).bind fun _ _ => moves_pure rfl hfinal
        · exact moves_pure rfl hfinal
      · split
        · exact (moves_note rfl).bind fun _ _ => moves_pure rfl hfinal
        · exact moves_pure rfl hfinal

theorem block_moves (h : Trail move scope scope' P Q) (packing : Packing) (start : Token)
    (layout : LayoutList) (attributes : List Attribute) (blockName : Option String)
    (hc : P 1 cursor.rest) :
    Moves move (move.result (Entry.mapPlace move.place)) (fun found => Q found.2.rest)
      (block scope packing start layout attributes blockName cursor)
      (block scope' packing (move.token start) layout attributes blockName (move.cursor cursor)) := by
  rw [block_eq, block_eq]
  refine (members_moves (h.track 1) h.inside (h.closed 1) _ hc).bind ?_
  rintro ⟨fields, behind⟩ hbehind
  dsimp only [Relocation.result] at hbehind ⊢
  rw [(h.track 0).word? hbehind]
  cases hw : behind.word? with
  | none => exact blockEnd_moves h packing start layout attributes blockName fields none hbehind
  | some found =>
    exact blockEnd_moves h packing start layout attributes blockName fields (some found.2.1)
      ((h.track 0).word hbehind hw)

theorem skipInitialiser_moves {P : List Token → Prop} (h : Track move scope scope' P)
    (hskip : ∀ token rest, (∀ c ∈ [',', ';'], token.lexeme ≠ .punct c) → P (token :: rest) → P rest)
    (hc : P cursor.rest) :
    skipInitialiser (move.cursor cursor) = move.cursor (skipInitialiser cursor) ∧
      P (skipInitialiser cursor).rest := by
  unfold skipInitialiser
  rw [h.eat? hc]
  cases he : cursor.eat? '=' with
  | none => exact ⟨rfl, hc⟩
  | some behind =>
    refine skipWhile_moves h.room (fun token rest hp hP => hskip token rest ?_ hP)
      (h.eat hc he (by decide)) _
    simpa using hp

theorem uniformDeclarator_moves {P R : List Token → Prop} (h : Track move scope scope' P)
    (hskip : ∀ token rest, (∀ c ∈ [',', ';'], token.lexeme ≠ .punct c) → P (token :: rest) → P rest)
    (hcomma : Passes ',' P R) (hend : Passes ';' P Q) (typeName : String) (layout : LayoutList)
    (attributes : List Attribute) (hc : P cursor.rest) :
    Moves move (move.result (Cursor.Turn.map (UniformDeclaration.mapPlace move.place)))
      (TurnsTo R Q cursor) (uniformDeclarator scope typeName layout attributes () cursor)
      (uniformDeclarator scope' typeName layout attributes () (move.cursor cursor)) := by
  unfold uniformDeclarator
  rw [h.word? hc]
  cases hw : cursor.word? with
  | none => exact h.malformed (h.line_behind hc) _ _
  | some found =>
    obtain ⟨token, name, named⟩ := found
    have hlt := length_of_word? hw
    dsimp only [Option.map_some]
    refine (arrayLength_moves (h.within named.rest.length) ⟨h.word hc hw, Nat.le_refl _⟩ _ _).bind ?_
    rintro ⟨length, behind⟩ ⟨hbehind, hle⟩
    dsimp only [Relocation.result, id] at hbehind hle ⊢
    obtain ⟨hmove, hskipped, hle'⟩ := skipInitialiser_moves (h.within named.rest.length)
      (fun token rest hm hP => ⟨hskip token rest hm hP.1, Nat.le_of_succ_le hP.2⟩) ⟨hbehind, hle⟩
    rw [hmove, h.eat? hskipped, h.eat? hskipped, h.locate]
    cases he : (skipInitialiser behind).eat? ',' with
    | some final =>
      exact moves_pure rfl ⟨hcomma.eat hskipped he, ((length_of_eat? he).trans_le hle').trans hlt⟩
    | none =>
      cases he : (skipInitialiser behind).eat? ';' with
      | some final => exact moves_pure rfl (hend.eat hskipped he)
      | none => exact h.malformed rfl _ _

theorem uniformBody_moves (h : Trail move scope scope' P Q) (packing : Packing) (start : Token)
    (layout : LayoutList) (attributes : List Attribute) (hc : P 0 cursor.rest) :
    Moves move (move.result (Entry.mapPlace move.place)) (fun found => Q found.2.rest)
      (uniformBody scope packing start layout attributes cursor)
      (uniformBody scope' packing (move.token start) layout attributes (move.cursor cursor)) := by
  have ht := h.track 0
  obtain ⟨line, tokens⟩ := cursor
  have hrefused : Moves move (move.result (Entry.mapPlace move.place)) (fun found => Q found.2.rest)
      (scope.malformed ⟨line, tokens⟩ "uniform" .missingUniform : Reading (Entry × Cursor))
      (scope'.malformed (move.cursor ⟨line, tokens⟩) "uniform" .missingUniform) :=
    ht.malformed rfl _ _
  cases tokens with
  | nil =>
    unfold uniformBody
    rw [ht.rest_cursor hc rfl]
    exact hrefused
  | cons first rest =>
    rw [move.cursor_cons] at hrefused ⊢
    unfold uniformBody
    dsimp only
    rw [move.lexeme_token, move.line_token]
    cases hm : first.lexeme with
    | number text => exact hrefused
    | punct c =>
      by_cases hend : c = ';'
      · subst hend
        exact moves_pure (by cases layout.packing <;> rfl) (h.ended first rest hm hc)
      · by_cases hopen : c = '{'
        · subst hopen
          have hbody : P 1 (Cursor.mk first.line rest).rest := h.opened 0 first rest hm hc
          exact block_moves h packing start layout attributes none hbody
        · simp only [Lexeme.punct.injEq, hend, hopen, imp_self]
          exact hrefused
    | word name =>
      have hrest := h.plain 0 first rest (by simp [hm]) hc
      cases rest with
      | nil =>
        rw [List.map_nil, List.nil_append, h.room 0 hrest]
        exact hrefused
      | cons second tail =>
        rw [List.map_cons, List.cons_append]
        dsimp only
        rw [move.lexeme_token, move.line_token]
        cases hm' : second.lexeme with
        | number text => exact hrefused
        | punct c =>
          by_cases hopen : c = '{'
          · subst hopen
            have hbody : P 1 (Cursor.mk second.line tail).rest := h.opened 0 second tail hm' hrest
            exact block_moves h packing start layout attributes (some name) hbody
          · simp only [Lexeme.punct.injEq, hopen, imp_self]
            exact hrefused
        | word _ =>
          have hnames : P 0 (Cursor.mk first.line (second :: tail)).rest := hrest
          refine (loop_moves (fun _ _ hc => uniformDeclarator_moves ht
            (fun token rest hm => h.next (hm _ (by decide))) (h.passes (by decide) 0) h.ended name
            layout attributes hc) () hnames).bind ?_
          rintro ⟨uniforms, final⟩ hfinal
          exact moves_pure rfl hfinal

/-! ## Skipped statements and groups -/

theorem skipGroup_moves (h : Trail move scope scope' P Q) {groups : Nat} {tokens : List Token}
    (hP : P (groups + 1) tokens) (line : Nat) :
    Cursor.skipGroup (groups + 1) (move.line line) (tokens.map move.token ++ move.behind) =
        move.cursor (Cursor.skipGroup (groups + 1) line tokens) ∧
      P 0 (Cursor.skipGroup (groups + 1) line tokens).rest := by
  induction tokens generalizing groups line with
  | nil =>
    refine ⟨?_, h.outside hP⟩
    simp [Cursor.skipGroup, Relocation.cursor, h.room _ hP]
  | cons token rest ih =>
    rw [List.map_cons, List.cons_append]
    by_cases hopen : token.lexeme = .punct '{'
    · have hopen' : (move.token token).lexeme = .punct '{' := by rw [move.lexeme_token, hopen]
      rw [skipGroup_open _ _ hopen, skipGroup_open _ _ hopen', move.line_token]
      exact ih (h.opened _ token rest hopen hP) _
    · by_cases hclose : token.lexeme = .punct '}'
      · have hclose' : (move.token token).lexeme = .punct '}' := by rw [move.lexeme_token, hclose]
        have hrest := h.closed _ token rest hclose hP
        rw [skipGroup_close _ _ hclose, skipGroup_close _ _ hclose', move.line_token]
        cases groups with
        | zero => exact ⟨rfl, hrest⟩
        | succ groups => exact ih hrest _
      · have hopen' : (move.token token).lexeme ≠ .punct '{' := by rwa [move.lexeme_token]
        have hclose' : (move.token token).lexeme ≠ .punct '}' := by rwa [move.lexeme_token]
        rw [skipGroup_plain _ _ hopen hclose, skipGroup_plain _ _ hopen' hclose', move.line_token]
        refine ih ?_ _
        by_cases hend : token.lexeme = .punct ';'
        · exact h.inner groups token rest hend hP
        · exact h.plain _ token rest (by simp [hopen, hclose, hend]) hP

theorem skipStatement_moves (h : Trail move scope scope' P Q) {groups : Nat} {tokens : List Token}
    (hP : P groups tokens) (line : Nat) :
    Cursor.skipStatement groups (move.line line) (tokens.map move.token ++ move.behind) =
        move.cursor (Cursor.skipStatement groups line tokens) ∧
      Q (Cursor.skipStatement groups line tokens).rest := by
  induction tokens generalizing groups line with
  | nil =>
    refine ⟨?_, h.final _ (h.outside hP)⟩
    simp [Cursor.skipStatement, Relocation.cursor, h.room _ hP]
  | cons token rest ih =>
    rw [List.map_cons, List.cons_append]
    by_cases hopen : token.lexeme = .punct '{'
    · have hopen' : (move.token token).lexeme = .punct '{' := by rw [move.lexeme_token, hopen]
      rw [skipStatement_open _ _ hopen, skipStatement_open _ _ hopen', move.line_token]
      exact ih (h.opened _ token rest hopen hP) _
    · by_cases hclose : token.lexeme = .punct '}'
      · have hclose' : (move.token token).lexeme = .punct '}' := by rw [move.lexeme_token, hclose]
        rw [skipStatement_close _ _ hclose, skipStatement_close _ _ hclose', move.line_token]
        exact ih (h.closed _ token rest hclose hP) _
      · have hopen' : (move.token token).lexeme ≠ .punct '{' := by rwa [move.lexeme_token]
        have hclose' : (move.token token).lexeme ≠ .punct '}' := by rwa [move.lexeme_token]
        rw [skipStatement_plain _ _ hopen hclose, skipStatement_plain _ _ hopen' hclose',
          move.line_token, move.lexeme_token]
        by_cases hend : token.lexeme = .punct ';'
        · cases groups with
          | zero =>
            rw [if_pos ⟨hend, rfl⟩, if_pos ⟨hend, rfl⟩]
            exact ⟨rfl, h.ended token rest hend hP⟩
          | succ groups =>
            rw [if_neg fun hz => Nat.succ_ne_zero groups hz.2,
              if_neg fun hz => Nat.succ_ne_zero groups hz.2]
            exact ih (h.inner groups token rest hend hP) _
        · rw [if_neg fun hz => hend hz.1, if_neg fun hz => hend hz.1]
          exact ih (h.plain _ token rest (by simp [hopen, hclose, hend]) hP) _

/-! ## Statements -/

theorem statementBody_moves (h : Trail move scope scope' P Q) (packing : Packing)
    (attributes : List Attribute) (start : Token) (layout : LayoutList) (hc : P 0 cursor.rest) :
    Moves move (move.result (Entry.mapPlace move.place)) (fun found => Q found.2.rest)
      (statementBody scope packing attributes start layout cursor)
      (statementBody scope' packing attributes (move.token start) layout (move.cursor cursor)) := by
  have ht := h.track 0
  obtain ⟨hskip, hskipped⟩ := skipStatement_moves h hc cursor.line
  unfold statementBody
  rw [ht.word? hc]
  cases hw : cursor.word? with
  | none => exact moves_pure (congrArg _ hskip) hskipped
  | some found =>
    obtain ⟨token, name, behind⟩ := found
    dsimp only [Option.map_some]
    by_cases hu : name = "uniform"
    · subst hu
      obtain ⟨hidle, hbehind⟩ := ht.skipQualifiers (ht.word hc hw)
      have hbody := uniformBody_moves h packing start layout attributes hbehind
      rw [← hidle] at hbody
      exact hbody
    · simp only [Option.some.injEq, Prod.mk.injEq, hu, false_and, and_false, imp_self,
        implies_true]
      exact moves_pure (congrArg _ hskip) hskipped

/-- A statement that starts with `layout` or `uniform` is read as before. -/
theorem uniformStatement_moves (h : Trail move scope scope' P Q) (packing : Packing)
    (attributes : List Attribute) {start : Token} {rest : List Token}
    (hword : start.lexeme = .word "layout" ∨ start.lexeme = .word "uniform") (hrest : P 0 rest) :
    Moves move (move.result (Entry.mapPlace move.place)) (fun found => Q found.2.rest)
      (uniformStatement scope packing attributes start rest)
      (uniformStatement scope' packing attributes (move.token start)
        (rest.map move.token ++ move.behind)) := by
  have ht := h.track 0
  have hlist : P 0 (Cursor.mk start.line rest).rest := hrest
  rcases hword with hw | hw
  · rw [uniformStatement_layout _ _ _ hw,
      uniformStatement_layout _ _ _ (by rw [move.lexeme_token, hw]), move.line_token]
    refine (LayoutList.read_moves ht (h.passes (by decide) 0) (h.passes (by decide) 0) "layout"
      hlist).bind ?_
    rintro ⟨layout, cursor⟩ hcursor
    exact statementBody_moves h packing attributes start layout hcursor
  · obtain ⟨hidle, hbehind⟩ := ht.skipQualifiers hlist
    rw [uniformStatement_uniform _ _ _ hw,
      uniformStatement_uniform _ _ _ (by rw [move.lexeme_token, hw]), move.line_token]
    have hbody := uniformBody_moves h packing start {} attributes hbehind
    rw [← hidle] at hbody
    exact hbody

theorem struct_moves (h : Trail move scope scope' P Q) (attributes : List Attribute) (keyword : Token) (name : String) (hc : P 1 cursor.rest) :
    Moves move (move.result (Entry.mapPlace move.place)) (fun found => Q found.2.rest)
      (struct scope attributes keyword name cursor)
      (struct scope' attributes (move.token keyword) name (move.cursor cursor)) := by
  unfold struct
  refine (members_moves (h.track 1) h.inside (h.closed 1) _ hc).bind ?_
  rintro ⟨fields, behind⟩ hbehind
  dsimp only [Relocation.result] at hbehind ⊢
  rw [(h.track 0).eat? hbehind, (h.track 0).locate]
  cases he : behind.eat? ';' with
  | none => exact moves_pure rfl (h.final _ hbehind)
  | some final => exact moves_pure rfl (h.ended.eat hbehind he)

theorem structHead?_of_not_word {name : Token} (h : ∀ text, name.lexeme ≠ .word text)
    (rest : List Token) : structHead? (name :: rest) = none := by
  cases rest with
  | nil => rfl
  | cons brace body =>
    cases hn : name.lexeme with
    | word text => exact absurd hn (h text)
    | number text => simp [structHead?, hn]
    | punct c => simp [structHead?, hn]

/-- Where a struct starts, it starts also where its tokens are moved to. -/
theorem structHead?_moves (h : Trail move scope scope' P Q) {rest : List Token} (hP : P 0 rest) :
    structHead? (rest.map move.token ++ move.behind) =
        (structHead? rest).map (fun found => (found.1, move.cursor found.2)) ∧
      ∀ name body, structHead? rest = some (name, body) →
        P 1 body.rest ∧ body.rest.length < rest.length := by
  cases rest with
  | nil =>
    rw [List.map_nil, List.nil_append, h.room 0 hP]
    exact ⟨rfl, by simp [structHead?]⟩
  | cons name rest =>
    rw [List.map_cons, List.cons_append]
    by_cases hword : ∃ text, name.lexeme = .word text
    · obtain ⟨text, hn⟩ := hword
      have hn' : (move.token name).lexeme = .word text := by rw [move.lexeme_token, hn]
      have hrest := h.plain 0 name rest (by simp [hn]) hP
      cases rest with
      | nil => simp [structHead?, h.room 0 hrest]
      | cons brace body =>
        by_cases hb : brace.lexeme = .punct '{'
        · have hb' : (move.token brace).lexeme = .punct '{' := by rw [move.lexeme_token, hb]
          have hbody := h.opened 0 brace body hb hrest
          refine ⟨by simp [structHead?, hn, hb, hn', hb', move.line_token, Relocation.cursor],
            fun found final hf => ?_⟩
          simp only [structHead?, hn, hb, Option.some_inj, Prod.mk.injEq] at hf
          obtain ⟨-, rfl⟩ := hf
          exact ⟨hbody, Nat.lt_succ_of_lt (Nat.lt_succ_self _)⟩
        · have hb' : (move.token brace).lexeme ≠ .punct '{' := by rwa [move.lexeme_token]
          simp [structHead?, hn, hb, hn', hb']
    · have hn : ∀ text, name.lexeme ≠ .word text := fun text ht => hword ⟨text, ht⟩
      rw [structHead?_of_not_word hn, structHead?_of_not_word fun text => by
        rw [move.lexeme_token]
        exact hn text]
      exact ⟨rfl, by simp⟩

/-- At the top level the same step is taken, and something is read unless it is the last one. -/
theorem statement_moves (h : Trail move scope scope' P Q) (pending : Pending)
    (hc : P 0 cursor.rest) :
    Moves move (move.result (Cursor.Turn.map (Entry.mapPlace move.place))) (TurnsTo Q Q cursor)
      (statement scope pending cursor) (statement scope' pending (move.cursor cursor)) := by
  obtain ⟨line, tokens⟩ := cursor
  cases tokens with
  | nil =>
    have hend := (h.track 0).rest_cursor hc rfl
    unfold statement
    rw [hend]
    exact moves_pure rfl (h.final _ hc)
  | cons token rest =>
    have hshort := h.within rest.length
    have hlt : ∀ n, n ≤ rest.length → n < (token :: rest).length := fun _ => Nat.lt_succ_of_le
    have hdeclared : ∀ {x y : Reading (Entry × Cursor)},
        Moves move (move.result (Entry.mapPlace move.place))
          (fun found => Q found.2.rest ∧ found.2.rest.length ≤ rest.length) x y →
        Moves move (move.result (Cursor.Turn.map (Entry.mapPlace move.place)))
          (TurnsTo Q Q ⟨line, token :: rest⟩) (pending.turn <$> x) (pending.turn <$> y) := by
      intro x y hxy
      refine hxy.map ?_
      rintro ⟨entry, next⟩ ⟨hnext, hle⟩
      refine ⟨?_, hnext, hlt _ hle⟩
      simp only [Pending.turn, Relocation.result, Pending.after_mapPlace]
      rfl
    have hpass : ∀ pending : Pending, P 0 rest →
        Moves move (move.result (Cursor.Turn.map (Entry.mapPlace move.place)))
          (TurnsTo Q Q ⟨line, token :: rest⟩)
          (pure (.again .nothing pending, ⟨token.line, rest⟩))
          (pure (.again .nothing pending,
            ⟨move.line token.line, rest.map move.token ++ move.behind⟩)) :=
      fun _ hrest => moves_pure rfl ⟨h.final _ hrest, hlt _ (Nat.le_refl _)⟩
    rw [move.cursor_cons]
    have hlexeme := move.lexeme_token token
    rcases start_cases token.lexeme with hm | hm | hm | hm | hm | hm
    · have hrest := h.next (by simp [hm]) hc
      obtain ⟨hhead, hbody⟩ := structHead?_moves h hrest
      rw [statement_struct _ _ _ hm, statement_struct _ _ _ (hlexeme.trans hm), hhead,
        move.line_token]
      cases hs : structHead? rest with
      | none => exact hpass pending hrest
      | some found =>
        obtain ⟨hopened, hshorter⟩ := hbody found.1 found.2 hs
        exact hdeclared (struct_moves hshort _ _ _ ⟨hopened, hshorter.le⟩)
    · have hrest := h.next (by rcases hm with hm | hm <;> simp [hm]) hc
      rw [statement_word _ _ _ hm, statement_word _ _ _ (by rwa [hlexeme])]
      exact hdeclared (uniformStatement_moves hshort _ _ hm ⟨hrest, Nat.le_refl _⟩)
    · obtain ⟨hmove, hkeep⟩ := h.bracket token rest hm hc
      rw [statement_attribute _ _ _ hm, statement_attribute _ _ _ (hlexeme.trans hm), hmove,
        move.line_token]
      cases ha : attribute? rest with
      | none => exact hpass pending (h.next (by simp [hm]) hc)
      | some found =>
        exact moves_pure rfl ⟨h.final _ (hkeep found.1 found.2 ha),
          Nat.lt_succ_of_lt (attribute?_shorter ha)⟩
    · have hopened : P 1 rest ∧ rest.length ≤ rest.length :=
        ⟨h.opened 0 token rest hm hc, Nat.le_refl _⟩
      obtain ⟨hmove, hkeep, hle⟩ := skipGroup_moves hshort hopened token.line
      rw [statement_group _ _ _ hm, statement_group _ _ _ (hlexeme.trans hm), move.line_token, hmove]
      exact moves_pure rfl ⟨h.final _ hkeep, hlt _ hle⟩
    · rw [statement_end _ _ _ hm, statement_end _ _ _ (hlexeme.trans hm), move.line_token]
      exact moves_pure rfl ⟨h.ended token rest hm hc, hlt _ (Nat.le_refl _)⟩
    · rw [statement_passedOver _ _ _ hm, statement_passedOver _ _ _ (hlexeme.symm ▸ hm),
        move.line_token]
      exact hpass pending (h.next (hm.1 ';' (by decide)) hc)

/-! ## Sources -/

/-- What is known from statement to statement holds for all of them. -/
theorem statements_moves (h : Trail move scope scope' P (P 0)) (pending : Pending)
    (hc : P 0 cursor.rest) :
    Moves move (move.result (List.map (Entry.mapPlace move.place))) (fun found => P 0 found.2.rest)
      (Cursor.loop (statement scope) pending cursor)
      (Cursor.loop (statement scope') pending (move.cursor cursor)) :=
  loop_moves (fun pending _ hc => statement_moves h pending hc) pending hc

/-- The contents of a source, from what was read at its top level. -/
def gathered (key : String) (x : Reading (List Entry × Cursor)) : Reading SourceContents :=
  ⟨x.notices,
    x.result.map fun found => SourceContents.ofEntries key found.1 (warningsOf x.notices)⟩

theorem read_eq (key text : String) :
    SourceContents.read key text = gathered key (Cursor.loop
      (statement ⟨key, constantsOf text.toList⟩) {}
      ⟨0, tokensOf (items (stripComments text.toList))⟩) := by
  unfold SourceContents.read SourceContents.entries
  dsimp only
  rcases hx : Cursor.loop (statement ⟨key, constantsOf text.toList⟩) {}
    ⟨0, tokensOf (items (stripComments text.toList))⟩ with ⟨notices, e | ⟨entries, final⟩⟩
  · rw [show Cursor.loop (statement ⟨key, Constants.ofItems (items (stripComments text.toList))⟩) {}
      ⟨0, tokensOf (items (stripComments text.toList))⟩ = _ from hx]
    rfl
  · rw [show Cursor.loop (statement ⟨key, Constants.ofItems (items (stripComments text.toList))⟩) {}
      ⟨0, tokensOf (items (stripComments text.toList))⟩ = _ from hx]
    simp [gathered, Except.map]

/-- What is read is moved with the tokens. -/
theorem gathered_reading (move : Relocation) (key : String) (x : Reading (List Entry × Cursor)) :
    gathered key (move.reading (move.result (List.map (Entry.mapPlace move.place))) x) =
      move.reading (SourceContents.mapPlace move.place) (gathered key x) := by
  obtain ⟨notices, e | ⟨entries, final⟩⟩ := x
  · rfl
  · simp [gathered, Relocation.reading, Relocation.result, Except.map, warningsOf_mapPlace,
      SourceContents.ofEntries_mapPlace]

/-! ## Without places -/

/-- The source of a location, without the place in it. -/
def inFile (at_ : SourceLocation) : SourceLocation := { file := at_.file }

def Token.unplaced (token : Token) : Token := { token with line := 0, column := 0 }

/-- All tokens are in one place. -/
def nowhere : Relocation where
  token := Token.unplaced
  line _ := 0
  place := inFile
  behind := []
  lexeme_token _ := rfl
  line_token _ := rfl
  locate_token _ _ := rfl

theorem cursor_nowhere (line : Nat) (tokens : List Token) :
    nowhere.cursor ⟨line, tokens⟩ = ⟨0, tokens.map Token.unplaced⟩ := by
  simp [nowhere, Relocation.cursor]

theorem splitAtBracket_map (move : Relocation) (tokens : List Token) :
    splitAtBracket (tokens.map move.token) = (splitAtBracket tokens).map fun found =>
      (found.1.map move.token, move.token found.2.1, found.2.2.map move.token) := by
  induction tokens with
  | nil => rfl
  | cons token tokens ih =>
    by_cases hc : token.lexeme = .punct ']'
    · simp [splitAtBracket, hc, move.lexeme_token]
    · simp [splitAtBracket, hc, move.lexeme_token, ih, Function.comp_def]

theorem attribute?_unplaced (rest : List Token) :
    attribute? (rest.map Token.unplaced) =
      (attribute? rest).map fun found => (found.1, nowhere.cursor found.2) := by
  have hsplit := splitAtBracket_map nowhere
  cases rest with
  | nil => rfl
  | cons name rest =>
    cases rest with
    | nil => rfl
    | cons colon body =>
      have hname : name.unplaced.lexeme = name.lexeme := rfl
      have hcolon : colon.unplaced.lexeme = colon.lexeme := rfl
      simp only [attribute?, List.map_cons, hname, hcolon]
      split
      · rw [show body.map Token.unplaced = body.map nowhere.token from rfl, hsplit, Option.map_map,
          Option.map_map]
        refine congrArg (Option.map · _) (funext fun found => ?_)
        simp [List.flatMap_map, Relocation.cursor, nowhere, Token.unplaced, Token.text]
      · rfl

theorem trail_nowhere (scope : Scope) : Trail nowhere scope scope (fun _ _ => True) (fun _ => True) where
  room _ _ := rfl
  file := rfl
  number _ _ _ _ := rfl
  plain _ _ _ _ _ := trivial
  value _ _ _ _ _ := trivial
  opened _ _ _ _ _ := trivial
  closed _ _ _ _ _ := trivial
  inner _ _ _ _ _ := trivial
  ended _ _ _ _ := trivial
  less _ _ _ := trivial
  final _ _ := trivial
  bracket _ rest _ _ := by
    refine ⟨?_, fun _ _ _ => trivial⟩
    rw [show nowhere.behind = [] from rfl, List.append_nil]
    exact attribute?_unplaced rest

/-- What is read apart from the places in the source. -/
def withoutPlaces (x : Reading SourceContents) : Reading SourceContents :=
  nowhere.reading (SourceContents.mapPlace inFile) x

/-- The tokens of a source. -/
def tokensIn (text : String) : List Token := tokensOf (items (stripComments text.toList))

/-- The directives of a source. -/
def directiveLines (text : String) : List (List Char) :=
  directivesOf (items (stripComments text.toList))

theorem constantsOf_eq (text : String) : constantsOf text.toList =
    ((directiveLines text).filterMap Constants.ofDirective?).reverse ++
      Constants.ofStatements ((tokensIn text).map Token.unplaced) := by
  rw [show Constants.ofStatements ((tokensIn text).map Token.unplaced) =
      Constants.ofStatements (tokensIn text) from Constants.ofStatements_congr (by
    rw [List.map_map]
    rfl)]
  rfl

/-- Apart from places, what is read depends on the constants and the tokens alone. -/
theorem withoutPlaces_read (key text : String) :
    withoutPlaces (SourceContents.read key text) = gathered key (Cursor.loop
      (statement ⟨key, constantsOf text.toList⟩) {}
      ⟨0, (tokensIn text).map Token.unplaced⟩) := by
  have hread : Cursor.loop (statement ⟨key, constantsOf text.toList⟩) {}
        (nowhere.cursor ⟨0, tokensIn text⟩) =
      nowhere.reading (nowhere.result (List.map (Entry.mapPlace inFile)))
        (Cursor.loop (statement ⟨key, constantsOf text.toList⟩) {} ⟨0, tokensIn text⟩) :=
    (statements_moves (trail_nowhere _) {} trivial).1
  rw [cursor_nowhere] at hread
  rw [hread, withoutPlaces, read_eq]
  exact (gathered_reading nowhere key _).symm

end UniformLayout.Source
