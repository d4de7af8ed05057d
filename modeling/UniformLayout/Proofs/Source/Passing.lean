import UniformLayout.Proofs.Source.Standing

/-!
# Passing over a group

Two readings that differ in a group outside of all others pass over it and go on alike: at the top
level, in a statement that is skipped, and in an initialiser. The readers of uniform statements keep the
two readings together, whether they meet the group or not.

Main statements: `group_twin`, `skipStatement_twin` and `uniformStatement_tally`.
-/

namespace UniformLayout.Source

open Logged

variable {swap : Swap} {groups : Nat} {scope scope' : Scope} {cursor cursor' : Cursor}
  {tokens tokens' : List Token} {line line' : Nat}

/-! ## Groups -/

section

variable {token : Token} (line : Nat) (rest : List Token)

theorem skipGroup_open (h : token.lexeme = .punct '{') :
    Cursor.skipGroup groups line (token :: rest) =
      Cursor.skipGroup (groups + 1) token.line rest := by
  simp [Cursor.skipGroup, h]

theorem skipGroup_close (h : token.lexeme = .punct '}') :
    Cursor.skipGroup groups line (token :: rest) =
      if groups ≤ 1 then ⟨token.line, rest⟩ else Cursor.skipGroup (groups - 1) token.line rest := by
  simp [Cursor.skipGroup, h]

theorem skipGroup_plain (hopen : token.lexeme ≠ .punct '{') (hclose : token.lexeme ≠ .punct '}') :
    Cursor.skipGroup groups line (token :: rest) = Cursor.skipGroup groups token.line rest := by
  simp [Cursor.skipGroup]

theorem skipStatement_open (h : token.lexeme = .punct '{') :
    Cursor.skipStatement groups line (token :: rest) =
      Cursor.skipStatement (groups + 1) token.line rest := by
  simp [Cursor.skipStatement, h]

theorem skipStatement_close (h : token.lexeme = .punct '}') :
    Cursor.skipStatement groups line (token :: rest) =
      Cursor.skipStatement (groups - 1) token.line rest := by
  simp [Cursor.skipStatement, h]

/-- A semicolon ends a statement outside all groups only. -/
theorem skipStatement_plain (hopen : token.lexeme ≠ .punct '{')
    (hclose : token.lexeme ≠ .punct '}') :
    Cursor.skipStatement groups line (token :: rest) =
      if token.lexeme = .punct ';' ∧ groups = 0 then ⟨token.line, rest⟩
      else Cursor.skipStatement groups token.line rest := by
  by_cases hend : token.lexeme = .punct ';'
  · simp [Cursor.skipStatement, hend]
  · simp [Cursor.skipStatement, hend]

end

/-- A reader that counts open groups passes over balanced tokens inside a group, whatever else it does
outside of all groups. -/
theorem skip_append {skip : Nat → Nat → List Token → Cursor}
    (hopen : ∀ groups line token rest, token.lexeme = .punct '{' →
      skip (groups + 1) line (token :: rest) = skip (groups + 2) token.line rest)
    (hclose : ∀ groups line token rest, token.lexeme = .punct '}' →
      skip (groups + 2) line (token :: rest) = skip (groups + 1) token.line rest)
    (hplain : ∀ groups line token rest, token.lexeme ≠ .punct '{' → token.lexeme ≠ .punct '}' →
      skip (groups + 1) line (token :: rest) = skip (groups + 1) token.line rest)
    {inner : List Token} {before after : Nat}
    (h : nesting? before (inner.map Token.lexeme) = some after) (line : Nat) (rest : List Token) :
    ∃ line', skip (before + 1) line (inner ++ rest) = skip (after + 1) line' rest := by
  induction inner generalizing before line with
  | nil =>
    obtain rfl := Option.some.inj h
    exact ⟨line, rfl⟩
  | cons token inner ih =>
    rw [List.map_cons] at h
    rw [List.cons_append]
    by_cases ho : token.lexeme = .punct '{'
    · rw [hopen _ _ _ _ ho]
      rw [ho] at h
      exact ih h _
    · by_cases hc : token.lexeme = .punct '}'
      · rw [hc] at h
        cases before with
        | zero => cases h
        | succ before =>
          rw [hclose _ _ _ _ hc]
          exact ih h _
      · rw [hplain _ _ _ _ ho hc]
        rw [nesting?_plain ho hc] at h
        exact ih h _

theorem skipGroup_group (group : Group) (line : Nat) :
    Cursor.skipGroup 1 line (group.inner ++ group.closing :: group.behind) =
      ⟨group.closing.line, group.behind⟩ := by
  obtain ⟨line', hskip⟩ := skip_append (fun _ line _ rest => skipGroup_open line rest)
    (fun _ line _ rest => skipGroup_close line rest)
    (fun _ line _ rest => skipGroup_plain line rest)
    group.balanced line (group.closing :: group.behind)
  rw [hskip, skipGroup_close _ _ group.closes, if_pos (Nat.le_refl _)]

theorem skipStatement_group (group : Group) (line : Nat) :
    Cursor.skipStatement 1 line (group.inner ++ group.closing :: group.behind) =
      Cursor.skipStatement 0 group.closing.line group.behind := by
  obtain ⟨line', hskip⟩ := skip_append (fun _ line _ rest => skipStatement_open line rest)
    (fun _ line _ rest => skipStatement_close line rest)
    (fun groups line _ rest ho hc => (skipStatement_plain line rest ho hc).trans
      (if_neg fun hend => Nat.succ_ne_zero groups hend.2))
    group.balanced line (group.closing :: group.behind)
  rw [hskip, skipStatement_close _ _ group.closes]

/-- A group in front of the one that differs is passed over in both readings. -/
theorem skipGroup_twin (h : swap.Near (Within swap (groups + 1)) tokens tokens')
    (hline : line = line') : swap.Twin (Within swap 0) (Cursor.skipGroup (groups + 1) line tokens)
      (Cursor.skipGroup (groups + 1) line' tokens') := by
  induction tokens generalizing groups tokens' line line' with
  | nil =>
    rcases h.cases with ⟨-, rfl⟩ | ⟨_, _, _, _, hr, -⟩
    · exact ⟨hline, h.mono fun _ hf => hf.less (Nat.zero_le _)⟩
    · cases hr
  | cons token rest ih =>
    rcases h.cases with ⟨hr, -⟩ | ⟨_, token', _, rest', hr, rfl, htoken, hrest⟩
    · cases hr
    · cases hr
      obtain ⟨hlexeme, hlines, -⟩ := Token.onLine_eq_iff.1 htoken
      have hrest := hrest fun _ hnil => absurd hnil.groups_eq_zero (Nat.succ_ne_zero _)
      by_cases ho : token.lexeme = .punct '{'
      · rw [skipGroup_open _ _ ho, skipGroup_open _ _ (hlexeme ▸ ho)]
        rw [ho] at hrest
        exact ih (hrest.mono fun _ hf => hf.opened) hlines
      · by_cases hc : token.lexeme = .punct '}'
        · rw [skipGroup_close _ _ hc, skipGroup_close _ _ (hlexeme ▸ hc)]
          rw [hc] at hrest
          cases groups with
          | zero => exact ⟨hlines, hrest.mono fun _ hf => hf.closed⟩
          | succ groups => exact ih (hrest.mono fun _ hf => hf.closed) hlines
        · rw [skipGroup_plain _ _ ho hc, skipGroup_plain _ _ (hlexeme ▸ ho) (hlexeme ▸ hc)]
          exact ih (hrest.mono fun _ hf => Within.steady _ _ (by simp [ho, hc]) hf) hlines

/-- A group behind its opening brace is passed over, also the one that differs. -/
theorem group_twin {token token' : Token} (hopen : token.lexeme = .punct '{')
    (h : swap.Near (Within swap 0) (token :: tokens) (token' :: tokens')) (hline : line = line') :
    swap.Twin (Within swap 0) (Cursor.skipGroup 1 line tokens) (Cursor.skipGroup 1 line' tokens') := by
  rcases h.opened with hrest | ⟨-, rfl, rfl⟩
  · rw [hopen] at hrest
    exact skipGroup_twin (hrest.mono fun _ hf => hf.opened) hline
  · rw [skipGroup_group, skipGroup_group]
    exact ⟨swap.line, Swap.near_behind⟩

/-- A statement is passed over with its groups, also the one that differs. -/
theorem skipStatement_twin (h : swap.Near (Within swap groups) tokens tokens')
    (hline : line = line') : swap.Twin (Within swap 0) (Cursor.skipStatement groups line tokens)
      (Cursor.skipStatement groups line' tokens') := by
  induction hn : tokens.length using Nat.strongRecOn generalizing groups tokens tokens' line line' with
  | ind n ih =>
    subst hn
    rcases h.cases with ⟨rfl, rfl⟩ | ⟨token, token', rest, rest', rfl, rfl, htoken, hrest⟩
    · exact ⟨hline, h.mono fun _ hf => hf.less (Nat.zero_le _)⟩
    · obtain ⟨hlexeme, hlines, -⟩ := Token.onLine_eq_iff.1 htoken
      have hshorter : rest.length < (token :: rest).length := Nat.lt_succ_self _
      by_cases ho : token.lexeme = .punct '{'
      · have hgroup := h.opened
        rw [skipStatement_open _ _ ho, skipStatement_open _ _ (hlexeme ▸ ho)]
        rw [ho] at hgroup
        rcases hgroup with hrest | ⟨hnil, rfl, rfl⟩
        · exact ih _ hshorter (hrest.mono fun _ hf => hf.opened) hlines rfl
        · obtain rfl := hnil.groups_eq_zero
          rw [skipStatement_group, skipStatement_group]
          refine ih _ ?_ Swap.near_behind swap.line rfl
          simp only [List.length_cons, List.length_append]
          omega
      · have hrest := hrest fun hopen => absurd hopen ho
        by_cases hc : token.lexeme = .punct '}'
        · rw [skipStatement_close _ _ hc, skipStatement_close _ _ (hlexeme ▸ hc)]
          rw [hc] at hrest
          exact ih _ hshorter (hrest.mono fun _ hf => hf.closed) hlines rfl
        · have hrest : swap.Near (Within swap groups) rest rest' :=
            hrest.mono fun _ hf => Within.steady _ _ (by simp [ho, hc]) hf
          rw [skipStatement_plain _ _ ho hc, skipStatement_plain _ _ (hlexeme ▸ ho) (hlexeme ▸ hc),
            ← hlexeme]
          split
          · exact ⟨hlines, hrest.mono fun _ hf => hf.less (Nat.zero_le _)⟩
          · exact ih _ hshorter hrest hlines rfl

/-! ## Uniforms -/

/-- What is read of a block behind its instance name, if it has one. -/
def blockEnd (scope : Scope) (packing : Packing) (start : Token) (layout : LayoutList)
    (attributes : List Attribute) (blockName : Option String) (fields : List FieldDeclaration)
    (instanceName : Option String) (cursor : Cursor) : Reading (Entry × Cursor) := do
  let context := blockName.getD "uniform block"
  let source := scope.locate start
  let (length, behind) ← arrayLength scope context (instanceName.getD context) cursor
  let some final := behind.eat? ';' | scope.malformed behind context .missingBlockEnd
  match blockName.or instanceName with
  | none =>
    warn (.anonymousBlock source)
    return (.anonymous ⟨source, fields⟩, final)
  | some name =>
    if length.isSome then warn (.instanceArrayIgnored name source)
    let packing := layout.packing.getD packing
    if packing ≠ .std140 then warn (.unsupportedPacking name packing source)
    let kind := .uniformBlock layout.binding instanceName packing
    return (.declaration { name, kind, fields, attributes, source }, final)

theorem block_eq (packing : Packing) (start : Token) (layout : LayoutList)
    (attributes : List Attribute) (blockName : Option String) :
    block scope packing start layout attributes blockName cursor =
      members scope (blockName.getD "uniform block") cursor >>= fun (fields, behind) =>
        match behind.word? with
        | some (_, name, named) =>
          blockEnd scope packing start layout attributes blockName fields (some name) named
        | none => blockEnd scope packing start layout attributes blockName fields none behind := by
  unfold block
  refine congrArg (members scope _ cursor >>= ·) (funext fun (fields, behind) => ?_)
  rcases hw : behind.word? with _ | ⟨token, name, named⟩
  · simp only [hw]
    rfl
  · simp only [hw]
    rfl

theorem blockEnd_tally (hs : scope.Alike scope') (packing : Packing) {start start' : Token}
    (hstart : start.onLine = start'.onLine) (layout : LayoutList) (attributes : List Attribute)
    (blockName : Option String) {fields fields' : List FieldDeclaration}
    (hfields : fields.map FieldDeclaration.onLine = fields'.map FieldDeclaration.onLine)
    (instanceName : Option String) (h : swap.Twin (Within swap 0) cursor cursor') :
    Tally swap Entry.onLine (Within swap 0)
      (blockEnd scope packing start layout attributes blockName fields instanceName cursor)
      (blockEnd scope' packing start' layout attributes blockName fields' instanceName cursor') := by
  have hsource := Scope.locate_onLine hs.file hstart
  unfold blockEnd
  refine (arrayLength_tally hs h (Within.steady.mono (by decide)) _ _).bind ?_
  rintro ⟨length, last⟩ ⟨length', last'⟩ ⟨hlength, hlast⟩
  dsimp only [id] at hlength hlast ⊢
  subst hlength
  rcases hlast.eat? (c := ';') (by decide) with ⟨he, he'⟩ | ⟨final, final', he, he', hfinal⟩
  · rw [he, he']
    exact agree_malformed hs hlast.line _ _
  · rw [he, he']
    have hfinal := hfinal.mono fun _ hf => hf.next
    dsimp only
    cases blockName.or instanceName with
    | none =>
      dsimp only
      refine (agree_note ?_).bind fun _ _ _ => agree_pure ⟨?_, hfinal⟩
      · simp [Notice.onLine, SourceWarning.onLine, hsource]
      · simp [Entry.onLine, AnonymousBlock.onLine, hsource, hfields]
    | some name =>
      dsimp only
      have hdeclared : Tally swap Entry.onLine (Within swap 0)
          (pure (.declaration
            { name, kind := .uniformBlock layout.binding instanceName (layout.packing.getD packing),
              fields, attributes, source := scope.locate start }, final))
          (pure (.declaration
            { name, kind := .uniformBlock layout.binding instanceName (layout.packing.getD packing),
              fields := fields', attributes, source := scope'.locate start' }, final')) :=
        agree_pure ⟨by simp [Entry.onLine, TypeDeclaration.onLine, hsource, hfields], hfinal⟩
      -- Each of the two warnings is given in both readings or in neither.
      have hpacking : Notice.onLine (.source (.unsupportedPacking name (layout.packing.getD packing)
            (scope.locate start))) =
          Notice.onLine (.source (.unsupportedPacking name (layout.packing.getD packing)
            (scope'.locate start'))) := by
        simp [Notice.onLine, SourceWarning.onLine, hsource]
      split
      · refine (agree_note ?_).bind fun _ _ _ => ?_
        · simp [Notice.onLine, SourceWarning.onLine, hsource]
        · split
          · exact (agree_note hpacking).bind fun _ _ _ => hdeclared
          · exact hdeclared
      · split
        · exact (agree_note hpacking).bind fun _ _ _ => hdeclared
        · exact hdeclared

/-- A block is read alike, from behind its opening brace on. -/
theorem block_tally (hs : scope.Alike scope') (packing : Packing) {start start' : Token}
    (hstart : start.onLine = start'.onLine) (layout : LayoutList) (attributes : List Attribute)
    (blockName : Option String) (h : swap.Twin (Within swap 1) cursor cursor') :
    Tally swap Entry.onLine (Within swap 0)
      (block scope packing start layout attributes blockName cursor)
      (block scope' packing start' layout attributes blockName cursor') := by
  rw [block_eq, block_eq]
  refine (members_tally hs Within.steady (fun hf => absurd hf.groups_eq_zero Nat.one_ne_zero)
    (fun _ hf => hf.closed) (fun _ hf => hf.less (Nat.zero_le _)) _ h).bind ?_
  rintro ⟨fields, behind⟩ ⟨fields', behind'⟩ ⟨hfields, hbehind⟩
  dsimp only at hfields hbehind ⊢
  rcases hbehind.word? with ⟨hw, hw'⟩ | ⟨_, _, name, named, named', hw, hw', -, hnamed⟩
  · rw [hw, hw']
    exact blockEnd_tally hs packing hstart layout attributes blockName hfields none hbehind
  · rw [hw, hw']
    exact blockEnd_tally hs packing hstart layout attributes blockName hfields (some name)
      (hnamed.mono fun _ hf => hf.next)

/-- What stands in a value: all lexemes up to the next comma or semicolon. -/
def inside (lexeme : Lexeme) : Bool := lexeme ≠ .punct ',' ∧ lexeme ≠ .punct ';'

theorem skipWhile_append {p : Lexeme → Bool} {inner : List Token}
    (h : ∀ token ∈ inner, p token.lexeme) (line : Nat) (rest : List Token) :
    ∃ line', Cursor.skipWhile p line (inner ++ rest) = Cursor.skipWhile p line' rest := by
  induction inner generalizing line with
  | nil => exact ⟨line, rfl⟩
  | cons token inner ih =>
    obtain ⟨htoken, hinner⟩ := List.forall_mem_cons.1 h
    rw [List.cons_append, Cursor.skipWhile, if_pos htoken]
    exact ih hinner _

/-- A value with a group is passed over with it, if no comma and no semicolon stands in the group. -/
theorem skipWhile_group {group : Group} {opening : Token} (hopen : opening.lexeme = .punct '{')
    (h : ∀ token ∈ group.inner, inside token.lexeme) (line : Nat) :
    Cursor.skipWhile inside line (group.tokens opening) =
      Cursor.skipWhile inside group.closing.line group.behind := by
  obtain ⟨line', hskip⟩ := skipWhile_append h opening.line (group.closing :: group.behind)
  rw [Group.tokens, Cursor.skipWhile, if_pos (by rw [hopen]; rfl), hskip, Cursor.skipWhile,
    if_pos (by rw [group.closes]; rfl)]

/-- Behind the sign of an initialiser. -/
theorem skipValue_twin {tokens tokens' : List Token} (hline : line = line')
    (h : swap.Near (fun front => Within swap 0 front ∧ (inValue true front → swap.Plain)) tokens
      tokens') :
    swap.Twin (Declaring swap) (Cursor.skipWhile inside line tokens)
      (Cursor.skipWhile inside line' tokens') := by
  -- Behind the group nothing has to be known.
  have hbehind : ∀ {tokens tokens' : List Token} {line line' : Nat}, line = line' →
      swap.Near (fun _ => False) tokens tokens' →
      swap.Twin (Declaring swap) (Cursor.skipWhile inside line tokens)
        (Cursor.skipWhile inside line' tokens') := fun hline h =>
    (skipWhile_twin (fun _ => id) (fun _ _ _ => id) h hline).mono fun _ hf => hf.elim
  rcases h with ⟨front, hfront, rfl, rfl⟩ | hboth
  · induction front generalizing line line' with
    | nil =>
      have hplain : ∀ token ∈ swap.first.inner ++ swap.second.inner, inside token.lexeme := by
        intro token hm
        have hmarks := hfront.2 rfl token hm
        simp [inside, hmarks]
      rw [List.nil_append, List.nil_append,
        skipWhile_group swap.opens fun token hm => hplain token (List.mem_append_left _ hm),
        skipWhile_group swap.opens fun token hm => hplain token (List.mem_append_right _ hm)]
      exact hbehind swap.line Swap.near_behind
    | cons token front ih =>
      obtain ⟨hwithin, hvalue⟩ := hfront
      rw [List.map_cons] at hwithin hvalue
      rw [List.cons_append, List.cons_append, Cursor.skipWhile, Cursor.skipWhile]
      by_cases hi : inside token.lexeme
      · rw [if_pos hi, if_pos hi]
        simp only [inside, decide_eq_true_eq] at hi
        refine ih rfl ⟨hwithin.next, fun hv => hvalue ?_⟩
        by_cases hsign : token.lexeme = .punct '='
        · rw [hsign]
          exact hv
        · rw [inValue_plain (by simp [hi, hsign])]
          exact hv
      · rw [if_neg hi, if_neg hi]
        refine ⟨hline, Or.inl ⟨token :: front, ⟨hwithin, fun hv => hvalue ?_⟩, rfl, rfl⟩⟩
        -- The value ends here, so it does not matter that one came from inside.
        rw [List.map_cons] at hv
        by_cases hcomma : token.lexeme = .punct ','
        · rw [hcomma] at hv ⊢
          exact hv
        · obtain hend : token.lexeme = .punct ';' := by simpa [inside, hcomma] using hi
          rw [hend] at hv
          cases hv
  · exact hbehind hline (Or.inr hboth)

theorem skipInitialiser_twin (h : swap.Twin (Declaring swap) cursor cursor') :
    swap.Twin (Declaring swap) (skipInitialiser cursor) (skipInitialiser cursor') := by
  unfold skipInitialiser
  rcases h.eat? (c := '=') (by decide) with ⟨he, he'⟩ | ⟨next, next', he, he', hnext⟩
  · rw [he, he']
    exact h
  · rw [he, he']
    exact skipValue_twin hnext.line (hnext.rest.mono fun _ hf => ⟨hf.within.next, hf.value⟩)

theorem uniformDeclarator_tally (hs : scope.Alike scope') (typeName : String) (layout : LayoutList)
    (attributes : List Attribute) (h : swap.Twin (Declaring swap) cursor cursor') :
    Agree (Turns swap UniformDeclaration.onLine (Declaring swap) (Within swap 0))
      (uniformDeclarator scope typeName layout attributes () cursor)
      (uniformDeclarator scope' typeName layout attributes () cursor') := by
  unfold uniformDeclarator
  rcases h.word? with ⟨hw, hw'⟩ | ⟨token, token', name, named, named', hw, hw', htoken, hnamed⟩
  · rw [hw, hw']
    exact agree_malformed hs (line_behind h) _ _
  · rw [hw, hw']
    dsimp only
    have hsteady : Steady ['{', '}', ';'] (Declaring swap) :=
      fun _ _ hl hf => hf.next (hl _ (by decide))
    refine (arrayLength_tally hs (hnamed.mono (hsteady _ · (by simp))) hsteady _ _).bind ?_
    rintro ⟨length, behind⟩ ⟨length', behind'⟩ ⟨hlength, hbehind⟩
    dsimp only [id] at hlength hbehind ⊢
    subst hlength
    have hbehind := skipInitialiser_twin hbehind
    have huniform : ∀ qualifiers : Qualifiers, UniformDeclaration.onLine
          ⟨typeName, name, length, qualifiers, attributes, scope.locate token⟩ =
        UniformDeclaration.onLine
          ⟨typeName, name, length, qualifiers, attributes, scope'.locate token'⟩ := by
      intro qualifiers
      simp [UniformDeclaration.onLine, Scope.locate_onLine hs.file htoken]
    rcases hbehind.eat? (c := ',') (by decide) with ⟨he, he'⟩ | ⟨final, final', he, he', hfinal⟩
    · rw [he, he']
      dsimp only
      rcases hbehind.eat? (c := ';') (by decide) with ⟨he, he'⟩ | ⟨final, final', he, he', hfinal⟩
      · rw [he, he']
        exact agree_malformed hs hbehind.line _ _
      · rw [he, he']
        exact agree_pure (.last (huniform _) (hfinal.mono fun _ hf => hf.within.next))
    · rw [he, he']
      exact agree_pure (.again (huniform _) (hfinal.mono (hsteady.mark (by decide))))

/-- What follows the word of uniforms is read alike. The group that differs is no body of a block. -/
theorem uniformBody_tally (hs : scope.Alike scope') (packing : Packing) {start start' : Token}
    (hstart : start.onLine = start'.onLine) (layout : LayoutList) (attributes : List Attribute)
    (h : swap.Twin (BehindUniform swap) cursor cursor') :
    Tally swap Entry.onLine (Within swap 0)
      (uniformBody scope packing start layout attributes cursor)
      (uniformBody scope' packing start' layout attributes cursor') := by
  obtain ⟨line, tokens⟩ := cursor
  obtain ⟨line', tokens'⟩ := cursor'
  have hrefused : Tally swap Entry.onLine (Within swap 0)
      (scope.malformed ⟨line, tokens⟩ "uniform" .missingUniform)
      (scope'.malformed ⟨line', tokens'⟩ "uniform" .missingUniform) :=
    agree_malformed hs h.line _ _
  have hopened : ∀ front, Within swap 0 (.punct '{' :: front) → Within swap 1 front :=
    fun _ hf => hf.opened
  unfold uniformBody
  dsimp only
  rcases h.rest.cases with ⟨he, he'⟩ | ⟨first, first', rest, rest', he, he', hfirst, hrest⟩
  · dsimp only at he he'
    subst he he'
    exact hrefused
  dsimp only at he he'
  subst he he'
  obtain ⟨hlexeme, hline, -⟩ := Token.onLine_eq_iff.1 hfirst
  have hrest := hrest fun _ => BehindUniform.not_nil
  dsimp only
  rw [← hlexeme]
  cases hm : first.lexeme with
  | number text => exact hrefused
  | punct c =>
    rw [hm] at hrest
    have hnext : swap.Near (fun front => Within swap 0 (.punct c :: front)) rest rest' :=
      hrest.mono fun _ hf => hf.within
    by_cases hend : c = ';'
    · subst hend
      exact agree_pure ⟨rfl, hline, hnext.mono fun _ hf => hf.next⟩
    · by_cases hopen : c = '{'
      · subst hopen
        exact block_tally hs packing hstart layout attributes none ⟨hline, hnext.mono hopened⟩
      · simp only [Lexeme.punct.injEq, hend, hopen, imp_self]
        exact hrefused
  | word name =>
    rw [hm] at hrest
    rcases hrest.cases with ⟨rfl, rfl⟩ | ⟨second, second', tail, tail', rfl, rfl, hsecond, htail⟩
    · exact hrefused
    obtain ⟨hlexeme', hline', -⟩ := Token.onLine_eq_iff.1 hsecond
    have htail := htail fun _ => BehindUniform.not_word
    dsimp only
    rw [← hlexeme']
    cases hm' : second.lexeme with
    | number text => exact hrefused
    | punct c =>
      rw [hm'] at htail
      by_cases hopen : c = '{'
      · subst hopen
        exact block_tally hs packing hstart layout attributes (some name)
          ⟨hline', htail.mono fun _ hf => hopened _ hf.within.next⟩
      · simp only [Lexeme.punct.injEq, hopen, imp_self]
        exact hrefused
    | word _ =>
      refine (loop_tally (fun _ hf => hf.within)
        (fun _ _ _ hc => uniformDeclarator_tally hs name layout attributes hc) ()
        ⟨hline, hrest.mono fun _ hf => hf.declaring⟩).bind ?_
      rintro ⟨uniforms, final⟩ ⟨uniforms', final'⟩ ⟨huniforms, hfinal⟩
      exact agree_pure ⟨congrArg Entry.uniforms huniforms, hfinal⟩

/-- A statement that starts with `layout` or `uniform` is read alike. -/
theorem uniformStatement_tally (hs : scope.Alike scope') (packing : Packing)
    (attributes : List Attribute) {start start' : Token} (hstart : start.onLine = start'.onLine)
    (hword : start.lexeme = .word "layout" ∨ start.lexeme = .word "uniform")
    (h : swap.Near (Within swap 0) (start :: tokens) (start' :: tokens')) :
    Tally swap Entry.onLine (Within swap 0)
      (uniformStatement scope packing attributes start tokens)
      (uniformStatement scope' packing attributes start' tokens') := by
  obtain ⟨hlexeme, hline, -⟩ := Token.onLine_eq_iff.1 hstart
  have htext : start.text = start'.text := congrArg Lexeme.text hlexeme
  have hlist : Tally swap id (Within swap 0)
      (if start.text = "layout" then LayoutList.read scope "layout" ⟨start.line, tokens⟩
        else pure ({}, ⟨start.line, start :: tokens⟩))
      (if start.text = "layout" then LayoutList.read scope' "layout" ⟨start'.line, tokens'⟩
        else pure ({}, ⟨start'.line, start' :: tokens'⟩)) := by
    by_cases hl : start.text = "layout"
    · rw [if_pos hl, if_pos hl]
      have hopen : start.lexeme ≠ .punct '{' := by
        intro ho
        rcases hword with hw | hw <;> rw [hw] at ho <;> cases ho
      rcases h.cases with ⟨hr, -⟩ | ⟨_, _, _, _, hr, hr', -, hrest⟩
      · cases hr
      cases hr
      cases hr'
      have hnext : swap.Twin (Within swap 0) ⟨start.line, tokens⟩ ⟨start'.line, tokens'⟩ :=
        ⟨hline, (hrest fun ho => absurd ho hopen).mono fun _ hf => hf.next⟩
      exact LayoutList.read_tally hs "layout" Within.steady hnext
    · rw [if_neg hl, if_neg hl]
      exact agree_pure ⟨rfl, hline, h⟩
  unfold uniformStatement
  rw [← htext]
  refine hlist.ite_bind ?_
  rintro ⟨layout, cursor⟩ ⟨layout', cursor'⟩ ⟨hlayout, hc⟩
  dsimp only [id] at hlayout hc ⊢
  subst hlayout
  have hskipped := skipStatement_twin hc.rest hc.line
  rcases hc.word? with ⟨hw, hw'⟩ | ⟨_, _, name, behind, behind', hw, hw', -, hbehind⟩
  · rw [hw, hw']
    exact agree_pure ⟨rfl, hskipped⟩
  · rw [hw, hw']
    by_cases hu : name = "uniform"
    · subst hu
      refine uniformBody_tally hs packing hstart layout attributes
        (skipQualifiers_twin (fun _ _ hi hf => hf.idle hi) (hbehind.mono fun front hf => ?_))
      exact ⟨[], by simp, hf⟩
    · simp only [Option.some.injEq, Prod.mk.injEq, hu, false_and, and_false, imp_self,
        implies_true]
      exact agree_pure ⟨rfl, hskipped⟩

end UniformLayout.Source
