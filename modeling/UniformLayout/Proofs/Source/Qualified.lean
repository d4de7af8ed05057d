import UniformLayout.Proofs.Source.Constants
import UniformLayout.Proofs.Source.Heads

/-!
# Qualifiers of uniform statements

Qualifiers that do not change the layout may stand on either side of the word of uniforms. Wherever they
stand, the statement declares what is behind them; unless they stand between a `layout(...)` list and
that word, where the statement is taken for one that declares nothing.

* `UniformHead`: a source up to what a uniform statement declares.
* `Contributes`: a block or uniforms are found in the contents, and nothing else stands there.

Main statement: `uniforms_kept`.
-/

namespace UniformLayout

namespace Source

open Logged

variable {scope : Scope} {line : Nat} {front rest : List Token}

/-! ## Heads -/

/-- What stands behind the word `layout`. -/
def IsLayoutList (tokens : List Token) : Prop :=
  ∃ opening inner closing, tokens = opening :: (inner ++ [closing]) ∧ opening.lexeme = .punct '(' ∧
    closing.lexeme = .punct ')' ∧ Expression (inner.map Token.lexeme)

/-- The tokens of a source up to what a uniform statement declares. -/
structure UniformHead where
  before : List Token
  qualifiers : List Token
  layout : Option (Token × List Token)
  uniform : Token
  behind : List Token
  outer : Outer before
  idle : ∀ token ∈ qualifiers ++ behind, isIdle token.lexeme
  listed : ∀ word list, layout = some (word, list) → word.lexeme = .word "layout" ∧ IsLayoutList list
  keyword : uniform.lexeme = .word "uniform"

namespace UniformHead

variable (head : UniformHead)

/-- The first token of the statement that is no qualifier. -/
def start : Token :=
  match head.layout with
  | none => head.uniform
  | some (word, _) => word

/-- The tokens of the statement behind its first one. -/
def others : List Token :=
  match head.layout with
  | none => head.behind
  | some (_, list) => list ++ head.uniform :: head.behind

def tokens : List Token :=
  head.before ++ (head.qualifiers ++ head.start :: head.others)

theorem start_lexeme : head.start.lexeme = .word "layout" ∨ head.start.lexeme = .word "uniform" := by
  unfold start
  cases hl : head.layout with
  | none => exact Or.inr head.keyword
  | some found => exact Or.inl (head.listed found.1 found.2 hl).1

end UniformHead

/-- What a statement declares starts with a group or with a word that is no qualifier. -/
def Opens (token : Token) : Prop :=
  token.lexeme = .punct '{' ∨ ∃ text ∉ Cursor.idleQualifiers, token.lexeme = .word text

theorem Opens.not_idle {token : Token} (h : Opens token) : ¬ isIdle token.lexeme := by
  rw [isIdle_iff]
  rintro ⟨text, ht, hl⟩
  rcases h with h | ⟨text', ht', h⟩
  · rw [h] at hl
    cases hl
  · rw [h] at hl
    exact ht' (Lexeme.word.inj hl ▸ ht)

/-- A statement starts with a word of its own, behind which another word or a group stands. -/
theorem UniformHead.starts (head : UniformHead) {first : Token} (hfirst : Opens first)
    (rest : List Token) : ∃ mark second more,
      head.qualifiers ++ head.start :: (head.others ++ first :: rest) = mark :: second :: more ∧
        (∃ text ∈ "layout" :: "uniform" :: Cursor.idleQualifiers, mark.lexeme = .word text) ∧
          ((∃ text, second.lexeme = .word text) ∨ second.lexeme = .punct '(' ∨
            second.lexeme = .punct '{') := by
  have hstart : ∃ text ∈ "layout" :: "uniform" :: Cursor.idleQualifiers,
      head.start.lexeme = .word text := by
    rcases head.start_lexeme with h | h
    · exact ⟨"layout", by simp, h⟩
    · exact ⟨"uniform", by simp, h⟩
  have hopens : (∃ text, first.lexeme = .word text) ∨ first.lexeme = .punct '(' ∨
      first.lexeme = .punct '{' := by
    rcases hfirst with h | ⟨text, -, h⟩
    · exact Or.inr (Or.inr h)
    · exact Or.inl ⟨text, h⟩
  have hword : ∀ token ∈ head.qualifiers ++ head.behind,
      ∃ text ∈ Cursor.idleQualifiers, token.lexeme = .word text :=
    fun token ht => isIdle_iff.1 (head.idle token ht)
  rcases hq : head.qualifiers with _ | ⟨qualifier, qualifiers⟩
  · cases hl : head.layout with
    | none =>
      rcases hb : head.behind with _ | ⟨second, behind⟩
      · exact ⟨head.start, first, rest, by simp [others, hl, hb], hstart, hopens⟩
      · obtain ⟨text, -, hs⟩ := hword second (by simp [hb])
        exact ⟨head.start, second, behind ++ first :: rest, by simp [others, hl, hb], hstart,
          Or.inl ⟨text, hs⟩⟩
    | some found =>
      obtain ⟨-, opening, inner, closing, hlist, hopening, -⟩ := head.listed found.1 found.2 hl
      refine ⟨head.start, opening, inner ++ closing :: (head.uniform :: (head.behind ++ first :: rest)),
        ?_, hstart, Or.inr (Or.inl hopening)⟩
      simp [others, hl, hlist]
  · obtain ⟨text, ht, hmark⟩ := hword qualifier (by simp [hq])
    have hfront : ∃ text ∈ "layout" :: "uniform" :: Cursor.idleQualifiers,
        qualifier.lexeme = .word text := ⟨text, by simp [ht], hmark⟩
    rcases qualifiers with _ | ⟨second, qualifiers⟩
    · obtain ⟨text, -, hs⟩ := hstart
      exact ⟨qualifier, head.start, _, rfl, hfront, Or.inl ⟨text, hs⟩⟩
    · obtain ⟨text, -, hs⟩ := hword second (by simp [hq])
      exact ⟨qualifier, second, _, rfl, hfront, Or.inl ⟨text, hs⟩⟩

theorem UniformHead.ready (head : UniformHead) {first : Token} (hfirst : Opens first)
    (rest : List Token) :
    Ready (head.qualifiers ++ head.start :: (head.others ++ first :: rest)) := by
  obtain ⟨mark, second, more, htokens, ⟨text, -, hmark⟩, hsecond⟩ := head.starts hfirst rest
  refine ⟨mark, second, more, htokens, ⟨text, hmark⟩, ?_⟩
  rcases hsecond with ⟨text, h⟩ | h | h <;> simp [h]

/-- Qualifiers in front of a statement are passed over one by one. -/
theorem loop_qualifiers (h : ∀ token ∈ front, isIdle token.lexeme) (pending : Pending) (line : Nat)
    (rest : List Token) : Cursor.loop (statement scope) pending ⟨line, front ++ rest⟩ =
      prefixed [] (List.replicate front.length .nothing)
        (Cursor.loop (statement scope) pending ⟨lineAfter line front, rest⟩) := by
  induction front generalizing line with
  | nil => exact (prefixed_nil _).symm
  | cons token front ih =>
    obtain ⟨htoken, hfront⟩ := List.forall_mem_cons.1 h
    have hpassed : PassedOver token.lexeme := by
      obtain ⟨text, ht, hl⟩ := isIdle_iff.1 htoken
      have hall : ∀ text ∈ Cursor.idleQualifiers, PassedOver (.word text) := by decide
      rw [hl]
      exact hall text ht
    have hstep : statement scope pending ⟨line, token :: (front ++ rest)⟩ =
        ⟨[], .ok (.again .nothing pending, ⟨token.line, front ++ rest⟩)⟩ :=
      statement_passedOver pending line _ hpassed
    rw [List.cons_append, Cursor.loop_again hstep (Nat.lt_succ_self _), ih hfront]
    exact prefixed_prefixed [] [] [Entry.nothing] _ _

/-- What a `layout(...)` list gives, if there is one. -/
def layoutRead (scope : Scope) (line : Nat) : Option (List Token) → Reading LayoutList
  | none => pure {}
  | some list => Prod.fst <$> LayoutList.read scope "layout" ⟨line, list⟩

/-- A statement declares what stands behind its qualifiers. -/
theorem uniformStatement_head (hmarks : NoNumber delimiters scope) (head : UniformHead)
    (packing : Packing) (attributes : List Attribute) {first : Token} (hfirst : Opens first)
    (rest : List Token) :
    uniformStatement scope packing attributes head.start (head.others ++ first :: rest) =
      layoutRead scope head.start.line (head.layout.map Prod.snd) >>= fun layout =>
        uniformBody scope packing head.start layout attributes
          ⟨lineAfter head.uniform.line head.behind, first :: rest⟩ := by
  have hidle : Cursor.skipQualifiers ⟨head.uniform.line, head.behind ++ first :: rest⟩ =
      ⟨lineAfter head.uniform.line head.behind, first :: rest⟩ :=
    skipQualifiers_passes (fun token ht => head.idle token (by simp [ht])) hfirst.not_idle _ _
  cases hl : head.layout with
  | none =>
    have hstart : head.start = head.uniform := by simp [UniformHead.start, hl]
    have hothers : head.others = head.behind := by simp [UniformHead.others, hl]
    rw [hstart, hothers, uniformStatement_uniform _ _ _ head.keyword, hidle]
    rfl
  | some found =>
    obtain ⟨word, list⟩ := found
    have hstart : head.start = word := by simp [UniformHead.start, hl]
    have hothers : head.others = list ++ head.uniform :: head.behind := by
      simp [UniformHead.others, hl]
    obtain ⟨hword, opening, inner, closing, rfl, hopening, hclosing, hinner⟩ :=
      head.listed word list hl
    rw [hstart, hothers, uniformStatement_layout _ _ _ hword]
    simp only [List.cons_append, List.append_assoc, List.nil_append, Option.map_some, layoutRead]
    rcases LayoutList.read_cases (hmarks.mono (by decide)) hopening hclosing hinner "layout" word.line
      with ⟨notices, e, hfail⟩ | ⟨notices, layout, line', hread⟩
    · rw [hfail, hfail []]
      rfl
    · rw [hread, hread [], bind_ok, statementBody_uniform _ _ _ _ _ _ head.keyword, hidle]
      simp [map_eq_pure_bind]

/-! ## What a statement contributes -/

def placeOf (key : String) (token : Token) : SourceLocation := ⟨key, token.line, token.column⟩

/-- A uniform block that starts at the place. -/
def IsBlockAt (place : SourceLocation) (decl : TypeDeclaration) : Prop :=
  decl.source = place ∧
    ∃ binding instanceName packing, decl.kind = .uniformBlock binding instanceName packing

/-- The tokens start with the name of the uniform, which has its source there. -/
def IsNamedAt (key : String) (tokens : List Token) (uniform : UniformDeclaration) : Prop :=
  ∃ name rest, tokens = name :: rest ∧ name.lexeme = .word uniform.name ∧
    uniform.source = placeOf key name

/-- What a statement that starts at `start` declares is found in the contents: a block at that place,
or a uniform at the place of each of its declarators. Behind a type stands a group or a declarator, and
behind each comma a declarator; a statement of any other form has no contents. -/
structure Contributes (key : String) (start : Token) (body : List Token)
    (contents : SourceContents) : Prop where
  form : ∀ type typeName others, body = type :: others → type.lexeme = .word typeName →
    ∃ next rest, others = next :: rest ∧
      (next.lexeme = .punct '{' ∨ ∃ name, next.lexeme = .word name)
  group : ∀ opening rest, body = opening :: rest → opening.lexeme = .punct '{' →
    (∃ block ∈ contents.anonymousBlocks, block.source = placeOf key start) ∨
      ∃ decl ∈ contents.declarations, IsBlockAt (placeOf key start) decl
  block : ∀ name text opening rest, body = name :: opening :: rest → name.lexeme = .word text →
    opening.lexeme = .punct '{' →
      ∃ decl ∈ contents.declarations, IsBlockAt (placeOf key start) decl ∧ decl.name = text
  uniforms : ∀ type typeName earlier others, body = type :: (earlier ++ others) →
    type.lexeme = .word typeName → AreEarlier earlier →
      (earlier = [] → ∀ opening ∈ others.head?, opening.lexeme ≠ .punct '{') →
        ∃ uniform ∈ contents.uniforms, IsNamedAt key others uniform ∧ uniform.typeName = typeName

/-- What one entry contributes, all of them do. -/
theorem Contributes.of_mem {key : String} {start : Token} {body : List Token} {entry : Entry}
    {entries : List Entry} {warnings : List SourceWarning}
    (h : Contributes key start body (SourceContents.ofEntries key [entry] []))
    (hmem : entry ∈ entries) :
    Contributes key start body (SourceContents.ofEntries key entries warnings) := by
  have hdecl : ∀ decl ∈ (SourceContents.ofEntries key [entry] []).declarations,
      decl ∈ (SourceContents.ofEntries key entries warnings).declarations := by
    intro decl hd
    cases entry <;> simp [SourceContents.ofEntries] at hd
    subst hd
    exact List.mem_filterMap.2 ⟨_, hmem, rfl⟩
  have hblock : ∀ block ∈ (SourceContents.ofEntries key [entry] []).anonymousBlocks,
      block ∈ (SourceContents.ofEntries key entries warnings).anonymousBlocks := by
    intro block hb
    cases entry <;> simp [SourceContents.ofEntries] at hb
    subst hb
    exact List.mem_filterMap.2 ⟨_, hmem, rfl⟩
  have huniform : ∀ uniform ∈ (SourceContents.ofEntries key [entry] []).uniforms,
      uniform ∈ (SourceContents.ofEntries key entries warnings).uniforms := by
    intro uniform hu
    cases entry <;> simp [SourceContents.ofEntries] at hu
    exact List.mem_flatMap.2 ⟨_, hmem, hu⟩
  refine ⟨h.form, fun opening rest hbody hopening => ?_,
    fun name text opening rest hbody hname hopening => ?_,
    fun type typeName earlier others hbody htype hearlier hgroup => ?_⟩
  · rcases h.group opening rest hbody hopening with ⟨block, hb, hsource⟩ | ⟨decl, hd, hat⟩
    · exact Or.inl ⟨block, hblock block hb, hsource⟩
    · exact Or.inr ⟨decl, hdecl decl hd, hat⟩
  · obtain ⟨decl, hd, hat⟩ := h.block name text opening rest hbody hname hopening
    exact ⟨decl, hdecl decl hd, hat⟩
  · obtain ⟨uniform, hu, hat⟩ :=
      h.uniforms type typeName earlier others hbody htype hearlier hgroup
    exact ⟨uniform, huniform uniform hu, hat⟩

/-- The entry is the block that starts with the token, under its name if it has one. -/
def IsBlock (scope : Scope) (start : Token) (blockName : Option String) (entry : Entry) : Prop :=
  (blockName = none ∧ ∃ fields, entry = .anonymous ⟨scope.locate start, fields⟩) ∨
    ∃ decl, entry = .declaration decl ∧ IsBlockAt (scope.locate start) decl ∧
      ∀ name, blockName = some name → decl.name = name

/-- The end of a block gives the block. -/
theorem blockEnd_brings (packing : Packing) (start : Token) (layout : LayoutList)
    (attributes : List Attribute) (blockName : Option String) (fields : List FieldDeclaration)
    (instanceName : Option String) (cursor : Cursor) :
    (blockEnd scope packing start layout attributes blockName fields instanceName cursor).Ensures
      fun found => IsBlock scope start blockName found.1 := by
  have hdeclared : ∀ (name : String) (packing : Packing) (final : Cursor),
      (blockName.or instanceName = some name) → (pure (Entry.declaration
        { name, kind := .uniformBlock layout.binding instanceName packing, fields, attributes,
          source := scope.locate start }, final) : Reading (Entry × Cursor)).Ensures
      fun found => IsBlock scope start blockName found.1 := by
    intro name packing final hname
    refine ensures_pure (Or.inr ⟨_, rfl, ⟨rfl, _, _, _, rfl⟩, fun text ht => ?_⟩)
    rw [ht] at hname
    exact (Option.some.inj hname).symm
  unfold blockEnd
  refine ensures_bind_of_forall fun found => ?_
  obtain ⟨length, behind⟩ := found
  dsimp only
  cases behind.eat? ';' with
  | none => exact ensures_throw
  | some final =>
    dsimp only
    cases hn : blockName.or instanceName with
    | none =>
      refine ensures_bind_of_forall fun _ => ensures_pure (Or.inl ⟨?_, fields, rfl⟩)
      exact (Option.or_eq_none_iff.1 hn).1
    | some name =>
      dsimp only
      split
      · refine ensures_bind_of_forall fun _ => ?_
        split
        · exact ensures_bind_of_forall fun _ => hdeclared name _ final hn
        · exact hdeclared name _ final hn
      · split
        · exact ensures_bind_of_forall fun _ => hdeclared name _ final hn
        · exact hdeclared name _ final hn

theorem block_brings (packing : Packing) (start : Token) (layout : LayoutList)
    (attributes : List Attribute) (blockName : Option String) (cursor : Cursor) :
    (block scope packing start layout attributes blockName cursor).Ensures
      fun found => IsBlock scope start blockName found.1 := by
  rw [block_eq]
  refine ensures_bind_of_forall fun found => ?_
  obtain ⟨fields, behind⟩ := found
  dsimp only
  cases behind.word? with
  | none => exact blockEnd_brings packing start layout attributes blockName fields none behind
  | some found =>
    exact blockEnd_brings packing start layout attributes blockName fields (some found.2.1) found.2.2

/-- What is read as a declarator is one. -/
theorem uniformDeclarator_brings (typeName : String) (layout : LayoutList)
    (attributes : List Attribute) (cursor : Cursor) :
    (uniformDeclarator scope typeName layout attributes () cursor).Ensures
      fun found => ∃ uniform : UniformDeclaration,
        (found.1 = .again uniform () ∨ found.1 = .last uniform) ∧
          IsNamedAt scope.file cursor.rest uniform ∧ uniform.typeName = typeName := by
  unfold uniformDeclarator
  cases hw : cursor.word? with
  | none => exact ensures_throw
  | some found =>
    obtain ⟨token, name, named⟩ := found
    obtain ⟨hr, hname, -⟩ := Cursor.word?_eq_some_iff.1 hw
    dsimp only
    refine ensures_bind_of_forall fun found => ?_
    obtain ⟨length, behind⟩ := found
    dsimp only
    cases (skipInitialiser behind).eat? ',' with
    | some final => exact ensures_pure ⟨_, Or.inl rfl, ⟨token, named.rest, hr, hname, rfl⟩, rfl⟩
    | none =>
      cases (skipInitialiser behind).eat? ';' with
      | some final => exact ensures_pure ⟨_, Or.inr rfl, ⟨token, named.rest, hr, hname, rfl⟩, rfl⟩
      | none => exact ensures_throw

/-- Behind each comma of a statement stands a declarator, which gives its uniform. -/
theorem declarators_bring (hmarks : NoNumber delimiters scope) (typeName : String)
    (layout : LayoutList) (attributes : List Attribute) {earlier : List Token}
    (hearlier : AreEarlier earlier) (line : Nat) (others : List Token) :
    (Cursor.loop (uniformDeclarator scope typeName layout attributes) ()
      ⟨line, earlier ++ others⟩).Ensures fun found => ∃ uniform ∈ found.1,
        IsNamedAt scope.file others uniform ∧ uniform.typeName = typeName := by
  have hlast : ∀ line, (Cursor.loop (uniformDeclarator scope typeName layout attributes) ()
      ⟨line, others⟩).Ensures fun found => ∃ uniform ∈ found.1,
        IsNamedAt scope.file others uniform ∧ uniform.typeName = typeName := by
    intro line
    rw [Cursor.loop]
    refine (uniformDeclarator_brings typeName layout attributes ⟨line, others⟩).bind ?_
    rintro ⟨turn, next⟩ ⟨uniform, hturn, hfound⟩
    rcases hturn with rfl | rfl
    · dsimp only
      split
      · exact ensures_bind_of_forall fun found => ensures_pure ⟨uniform, by simp, hfound⟩
      · exact ensures_pure ⟨uniform, by simp, hfound⟩
    · exact ensures_pure ⟨uniform, by simp, hfound⟩
  have harrives : Arrives (uniformDeclarator scope typeName layout attributes) (fun _ => True) ()
      line earlier := by
    rw [← List.append_nil earlier]
    exact arrives_of_advances (Listed.advances (hmarks.mono (by decide)) typeName layout attributes)
      (fun state line => arrives_nil state line) (hearlier.imp_right And.left) () line
  rcases harrives with ⟨notices, e, hfail⟩ | ⟨notices, items, _, line', hread⟩
  · rw [hfail _ trivial]
    exact ensures_throw
  · rw [hread _ trivial]
    intro found hf
    obtain ⟨found', hf', rfl⟩ : ∃ found', (Cursor.loop (uniformDeclarator scope typeName layout
        attributes) () ⟨line', others⟩).result = .ok found' ∧
          (items ++ found'.1, found'.2) = found := by
      dsimp only [prefixed] at hf
      cases hr : (Cursor.loop (uniformDeclarator scope typeName layout attributes) ()
        ⟨line', others⟩).result with
      | error e =>
        rw [hr] at hf
        cases hf
      | ok found' =>
        rw [hr] at hf
        exact ⟨found', rfl, Except.ok.inj hf⟩
    obtain ⟨uniform, hmem, hat⟩ := hlast line' found' hf'
    exact ⟨uniform, List.mem_append_right _ hmem, hat⟩

section Body

variable (packing : Packing) (start : Token) (layout : LayoutList) (attributes : List Attribute)
  (line : Nat)

theorem uniformBody_group {opening : Token} (h : opening.lexeme = .punct '{') (rest : List Token) :
    uniformBody scope packing start layout attributes ⟨line, opening :: rest⟩ =
      block scope packing start layout attributes none ⟨opening.line, rest⟩ := by
  simp [uniformBody, h]

theorem uniformBody_block {name opening : Token} {text : String} (hname : name.lexeme = .word text)
    (h : opening.lexeme = .punct '{') (rest : List Token) :
    uniformBody scope packing start layout attributes ⟨line, name :: opening :: rest⟩ =
      block scope packing start layout attributes (some text) ⟨opening.line, rest⟩ := by
  simp [uniformBody, hname, h]

theorem uniformBody_words {type name : Token} {typeName text : String}
    (htype : type.lexeme = .word typeName) (hname : name.lexeme = .word text) (rest : List Token) :
    uniformBody scope packing start layout attributes ⟨line, type :: name :: rest⟩ =
      Cursor.loop (uniformDeclarator scope typeName layout attributes) () ⟨type.line, name :: rest⟩ >>=
        fun found => pure (.uniforms found.1, found.2) := by
  simp [uniformBody, htype, hname]

/-- Behind the type of uniforms another word has to stand. -/
theorem uniformBody_refused {p : Entry × Cursor → Prop} {type : Token} {typeName : String}
    (htype : type.lexeme = .word typeName) {others : List Token}
    (hgroup : ∀ opening ∈ others.head?, opening.lexeme ≠ .punct '{')
    (hword : ∀ name ∈ others.head?, ∀ text, name.lexeme ≠ .word text) :
    (uniformBody scope packing start layout attributes ⟨line, type :: others⟩).Ensures p := by
  cases others with
  | nil =>
    simp only [uniformBody, htype]
    exact ensures_throw
  | cons second others =>
    have hsecond := hgroup second rfl
    have hother := hword second rfl
    -- No form of the inner match is left but the last, by the two facts above.
    simp only [uniformBody, htype]
    exact ensures_throw

/-- What is read behind the qualifiers is what stands there. -/
theorem uniformBody_brings (hmarks : NoNumber delimiters scope) (body : List Token) :
    (uniformBody scope packing start layout attributes ⟨line, body⟩).Ensures fun found =>
      Contributes scope.file start body (SourceContents.ofEntries scope.file [found.1] []) := by
  rintro ⟨entry, final⟩ hread
  have hform : ∀ type typeName others, body = type :: others → type.lexeme = .word typeName →
      ∃ next rest, others = next :: rest ∧
        (next.lexeme = .punct '{' ∨ ∃ name, next.lexeme = .word name) := by
    intro type typeName others hbody htype
    by_contra hno
    rw [hbody] at hread
    refine uniformBody_refused packing start layout attributes line (p := fun _ => False) htype
      (fun opening ho hl => hno ?_) (fun name hn text hl => hno ?_) _ hread
    · obtain ⟨rest, hrest⟩ := List.head?_eq_some_iff.1 ho
      exact ⟨opening, rest, hrest, Or.inl hl⟩
    · obtain ⟨rest, hrest⟩ := List.head?_eq_some_iff.1 hn
      exact ⟨name, rest, hrest, Or.inr ⟨text, hl⟩⟩
  refine ⟨hform, fun opening rest hbody hopening => ?_,
    fun name text opening rest hbody hname hopening => ?_,
    fun type typeName earlier others hbody htype hearlier hgroup => ?_⟩
  · rw [hbody, uniformBody_group _ _ _ _ _ hopening] at hread
    rcases block_brings packing start layout attributes none _ _ hread with ⟨-, fields, hentry⟩ |
      ⟨decl, hentry, hat, -⟩
    · obtain rfl : entry = _ := hentry
      exact Or.inl ⟨_, List.mem_singleton.2 rfl, rfl⟩
    · obtain rfl : entry = _ := hentry
      exact Or.inr ⟨decl, List.mem_singleton.2 rfl, hat⟩
  · rw [hbody, uniformBody_block _ _ _ _ _ hname hopening] at hread
    rcases block_brings packing start layout attributes (some text) _ _ hread with ⟨hnone, -⟩ |
      ⟨decl, hentry, hat, hnamed⟩
    · cases hnone
    · obtain rfl : entry = _ := hentry
      exact ⟨decl, List.mem_singleton.2 rfl, hat, hnamed text rfl⟩
  · have hbring := declarators_bring hmarks typeName layout attributes hearlier type.line others
    obtain ⟨second, rest, hsplit, hsecond⟩ := hform type typeName (earlier ++ others) hbody htype
    -- The word behind the type is the name of the first declarator.
    obtain ⟨text, hsecond⟩ : ∃ text, second.lexeme = .word text := by
      refine hsecond.resolve_left fun hopening => ?_
      rcases hearlier with rfl | ⟨-, word, tail, text, rfl, hword⟩
      · exact hgroup rfl second (List.head?_eq_some_iff.2 ⟨rest, hsplit⟩) hopening
      · obtain ⟨rfl, -⟩ := List.cons.inj hsplit
        rw [hword] at hopening
        cases hopening
    rw [hsplit] at hbody hbring
    rw [hbody, uniformBody_words _ _ _ _ _ htype hsecond] at hread
    obtain ⟨⟨list, behind⟩, hlist, hentry⟩ := result_bind_eq_ok_iff.1 hread
    obtain ⟨uniform, hmem, hat⟩ := hbring _ hlist
    obtain ⟨rfl, -⟩ := Prod.mk.inj (Except.ok.inj hentry)
    exact ⟨uniform, by simpa [SourceContents.ofEntries] using hmem, hat⟩

end Body

/-- What a uniform statement declares is in what is read from it on. -/
theorem statement_brings (hmarks : NoNumber delimiters scope) (head : UniformHead) {first : Token}
    (hfirst : Opens first) (rest : List Token) (pending : Pending) (line : Nat) :
    (Cursor.loop (statement scope) pending
        ⟨line, head.start :: (head.others ++ first :: rest)⟩).Ensures fun found =>
      ∃ entry ∈ found.1, Contributes scope.file head.start (first :: rest)
        (SourceContents.ofEntries scope.file [entry] []) := by
  have hstatement : (statement scope pending
      ⟨line, head.start :: (head.others ++ first :: rest)⟩).Ensures fun found =>
        ∃ entry pending', found.1 = .again entry pending' ∧ Contributes scope.file head.start
          (first :: rest) (SourceContents.ofEntries scope.file [entry] []) := by
    rw [statement_word _ _ _ head.start_lexeme, uniformStatement_head hmarks head _ _ hfirst]
    refine Ensures.map (ensures_bind_of_forall fun layout =>
      uniformBody_brings _ _ layout _ _ hmarks _) fun found hf => ⟨found.1, _, rfl, hf⟩
  rw [Cursor.loop]
  refine hstatement.bind ?_
  rintro ⟨turn, next⟩ ⟨entry, pending', rfl, hentry⟩
  dsimp only
  split
  · exact ensures_bind_of_forall fun found => ensures_pure ⟨entry, by simp, hentry⟩
  · exact ensures_pure ⟨entry, by simp, hentry⟩

theorem ensures_prefixed {α : Type} {p : List α → Prop} {x : Reading (List α × Cursor)}
    (h : x.Ensures fun found => p found.1) {items : List α}
    (hp : ∀ found, p found → p (items ++ found)) (notices : List Notice) :
    (prefixed notices items x).Ensures fun found => p found.1 := by
  intro found hf
  obtain ⟨more, e | found'⟩ := x
  · cases hf
  · obtain rfl := Except.ok.inj hf
    exact hp _ (h found' rfl)

/-- What a uniform statement declares is in what is read from the first token on. -/
theorem source_brings (hmarks : NoNumber delimiters scope) (head : UniformHead) {first : Token}
    (hfirst : Opens first) (rest : List Token) (pending : Pending) (line : Nat) :
    (Cursor.loop (statement scope) pending ⟨line, head.tokens ++ first :: rest⟩).Ensures fun found =>
      ∃ entry ∈ found.1, Contributes scope.file head.start (first :: rest)
        (SourceContents.ofEntries scope.file [entry] []) := by
  have hmore : ∀ items entries : List Entry, (∃ entry ∈ entries, Contributes scope.file head.start
      (first :: rest) (SourceContents.ofEntries scope.file [entry] [])) →
      ∃ entry ∈ items ++ entries, Contributes scope.file head.start (first :: rest)
        (SourceContents.ofEntries scope.file [entry] []) := by
    rintro items entries ⟨entry, hmem, hentry⟩
    exact ⟨entry, List.mem_append_right _ hmem, hentry⟩
  have hready := head.ready hfirst rest
  simp only [UniformHead.tokens, List.append_assoc, List.cons_append]
  rcases head.outer.arrives (hmarks.mono (by decide)) pending line with ⟨notices, e, hfail⟩ |
    ⟨notices, items, pending', line', hread⟩
  · rw [hfail _ hready]
    exact ensures_throw
  · rw [hread _ hready, loop_qualifiers fun token ht => head.idle token (by simp [ht])]
    exact ensures_prefixed (ensures_prefixed (statement_brings hmarks head hfirst rest pending' _)
      (hmore _) _) (hmore _) _

/-! ## Other places for the qualifiers -/

/-- What is read behind the qualifiers depends on the place of the statement, and not on what stands in
front of its parts. -/
theorem uniformBody_congr {start start' first first' : Token}
    (hstart : scope.locate start = scope.locate start') (hlexeme : first.lexeme = first'.lexeme)
    (hline : first.line = first'.line) (packing : Packing) (layout : LayoutList)
    (attributes : List Attribute) (line : Nat) (rest : List Token) :
    uniformBody scope packing start layout attributes ⟨line, first :: rest⟩ =
      uniformBody scope packing start' layout attributes ⟨line, first' :: rest⟩ := by
  unfold uniformBody block
  simp only [hstart, hlexeme, hline]
  rfl

/-- Entries that declare nothing may be left out. -/
theorem gathered_nothing (key : String) (notices : List Notice) (items : List Entry) (n : Nat)
    (x : Reading (List Entry × Cursor)) :
    gathered key (prefixed notices items (prefixed [] (List.replicate n .nothing) x)) =
      gathered key (prefixed notices items x) := by
  obtain ⟨more, e | ⟨entries, final⟩⟩ := x
  · rfl
  · simp [gathered, prefixed, Except.map, SourceContents.ofEntries, List.flatMap_append,
      List.flatMap_replicate]

/-- All tokens are in one place. -/
def InOnePlace (tokens : List Token) : Prop :=
  ∀ token ∈ tokens, token.line = 0 ∧ token.column = 0

theorem lineAfter_eq_zero {tokens : List Token} (h : InOnePlace tokens) : lineAfter 0 tokens = 0 := by
  induction tokens with
  | nil => rfl
  | cons token tokens ih =>
    obtain ⟨htoken, htokens⟩ := List.forall_mem_cons.1 h
    rw [lineAfter, List.foldl_cons, htoken.1]
    exact ih htokens

/-- Where all tokens are in one place, qualifiers may stand in other places. -/
theorem statements_requalified (hmarks : NoNumber delimiters scope) {head head' : UniformHead}
    (hbefore : head.before = head'.before)
    (hlayout : head.layout.map Prod.snd = head'.layout.map Prod.snd) {first first' : Token}
    (hfirst : Opens first) (hlexeme : first.lexeme = first'.lexeme) {rest : List Token}
    (hplace : InOnePlace (head.tokens ++ first :: rest))
    (hplace' : InOnePlace (head'.tokens ++ first' :: rest)) (key : String) :
    gathered key (Cursor.loop (statement scope) {} ⟨0, head.tokens ++ first :: rest⟩) =
      gathered key (Cursor.loop (statement scope) {} ⟨0, head'.tokens ++ first' :: rest⟩) := by
  have hfirst' : Opens first' := by
    rw [Opens, ← hlexeme]
    exact hfirst
  have hbody : ∀ {head : UniformHead} {first : Token},
      InOnePlace (head.tokens ++ first :: rest) → lineAfter head.uniform.line head.behind = 0 ∧
        head.start.line = 0 ∧ head.start.column = 0 ∧ first.line = 0 := by
    intro head first hplace
    have hothers : ∀ token ∈ head.uniform :: head.behind, token.line = 0 ∧ token.column = 0 := by
      intro token ht
      refine hplace token ?_
      unfold UniformHead.tokens UniformHead.start UniformHead.others
      rcases head.layout with _ | ⟨word, list⟩ <;> simp at ht ⊢ <;> tauto
    have hstart := hplace head.start (by simp [UniformHead.tokens])
    refine ⟨?_, hstart.1, hstart.2, (hplace first (by simp)).1⟩
    obtain ⟨huniform, hbehind⟩ := List.forall_mem_cons.1 hothers
    rw [huniform.1]
    exact lineAfter_eq_zero hbehind
  obtain ⟨hafter, hline, hcolumn, hzero⟩ := hbody hplace
  obtain ⟨hafter', hline', hcolumn', hzero'⟩ := hbody hplace'
  have hplaces : scope.locate head.start = scope.locate head'.start := by
    rw [Scope.locate, Scope.locate, hline, hline', hcolumn, hcolumn']
  have hstatement : ∀ pending line line', Cursor.loop (statement scope) pending
        ⟨line, head.start :: (head.others ++ first :: rest)⟩ =
      Cursor.loop (statement scope) pending
        ⟨line', head'.start :: (head'.others ++ first' :: rest)⟩ := by
    intro pending line line'
    refine loop_congr ?_ (statement_turns pending _) (statement_turns pending _)
    rw [statement_word _ _ _ head.start_lexeme, statement_word _ _ _ head'.start_lexeme,
      uniformStatement_head hmarks head _ _ hfirst, uniformStatement_head hmarks head' _ _ hfirst',
      hafter, hafter', hline, hline', hlayout]
    simp only [uniformBody_congr hplaces hlexeme (hzero.trans hzero'.symm)]
  have hready := head.ready hfirst rest
  have hready' := head'.ready hfirst' rest
  simp only [UniformHead.tokens, List.append_assoc, List.cons_append, ← hbefore]
  rcases head.outer.arrives (hmarks.mono (by decide)) {} 0 with ⟨notices, e, hfail⟩ |
    ⟨notices, items, pending', line', hread⟩
  · rw [hfail _ hready, hfail _ hready']
  · rw [hread _ hready, hread _ hready', loop_qualifiers fun token ht => head.idle token (by simp [ht]),
      loop_qualifiers fun token ht => head'.idle token (by simp [ht]), gathered_nothing,
      gathered_nothing, hstatement]

/-! ## Constants -/

/-- No word of a statement up to what it declares starts the definition of a constant. -/
theorem UniformHead.ne_const (head : UniformHead) :
    ∀ token ∈ head.qualifiers ++ head.start :: head.others, token.text ≠ "const" := by
  have hwords : ∀ {token : Token}, (∃ text ∈ "layout" :: "uniform" :: Cursor.idleQualifiers,
      token.lexeme = .word text) → token.text ≠ "const" := by
    rintro token ⟨text, ht, hl⟩
    have hall : ∀ text ∈ "layout" :: "uniform" :: Cursor.idleQualifiers, text ≠ "const" := by decide
    rw [Token.text, hl]
    exact hall text ht
  have hidle : ∀ token ∈ head.qualifiers ++ head.behind, token.text ≠ "const" := by
    intro token ht
    obtain ⟨text, hq, hl⟩ := isIdle_iff.1 (head.idle token ht)
    exact hwords ⟨text, by simp [hq], hl⟩
  have huniform : head.uniform.text ≠ "const" := hwords ⟨"uniform", by simp, head.keyword⟩
  have hstart : head.start.text ≠ "const" := by
    rcases head.start_lexeme with h | h
    · exact hwords ⟨"layout", by simp, h⟩
    · exact hwords ⟨"uniform", by simp, h⟩
  have hothers : ∀ token ∈ head.others, token.text ≠ "const" := by
    intro token ht
    cases hl : head.layout with
    | none => exact hidle token (by simp_all [others])
    | some found =>
      obtain ⟨-, opening, inner, closing, hlist, hopening, hclosing, hinner⟩ :=
        head.listed found.1 found.2 hl
      simp only [others, hl, hlist, List.mem_cons, List.mem_append, List.not_mem_nil, or_false] at ht
      rcases ht with (rfl | ht | rfl) | rfl | ht
      · exact Constants.text_ne_of_punct hopening (by decide)
      · exact hinner.ne_const _ (List.mem_map_of_mem ht)
      · exact Constants.text_ne_of_punct hclosing (by decide)
      · exact huniform
      · exact hidle token (by simp [ht])
  intro token ht
  rcases List.mem_append.1 ht with ht | ht
  · exact hidle token (by simp [ht])
  · rcases List.mem_cons.1 ht with rfl | ht
    · exact hstart
    · exact hothers token ht

/-- The constants of a source are those in front of the statement and those behind its qualifiers. -/
theorem ofStatements_head (head : UniformHead) {first : Token} (hfirst : Opens first)
    (rest : List Token) : Constants.ofStatements (head.tokens ++ first :: rest) =
      Constants.ofStatements head.before ++ Constants.ofStatements (first :: rest) := by
  have hplain := Constants.ofStatements_append_of_ne_const head.ne_const (first :: rest)
  obtain ⟨mark, second, more, htokens, ⟨text, ht, hmark⟩, hsecond⟩ := head.starts hfirst rest
  have hparts : Constants.Parts mark (second :: more) := by
    have hall : ∀ text ∈ "layout" :: "uniform" :: Cursor.idleQualifiers,
        text ≠ "int" ∧ text ≠ "uint" := by decide
    refine ⟨?_, by simp [hmark], Or.inr fun c hc => ?_⟩
    · rw [Token.text, hmark]
      exact hall text ht
    · simp only [List.mem_cons, List.not_mem_nil, or_false] at hc
      rcases hsecond with ⟨text, h⟩ | h | h <;> rcases hc with rfl | rfl <;> simp [h]
  rw [List.append_assoc, List.cons_append, htokens] at hplain
  rw [UniformHead.tokens, List.append_assoc, List.append_assoc, List.cons_append, htokens,
    Constants.ofStatements_append_parts hparts, hplain]

/-! ## Sources -/

/-- The statement without places. -/
def UniformHead.unplaced (head : UniformHead) : UniformHead where
  before := head.before.map Token.unplaced
  qualifiers := head.qualifiers.map Token.unplaced
  layout := head.layout.map fun found => (found.1.unplaced, found.2.map Token.unplaced)
  uniform := head.uniform.unplaced
  behind := head.behind.map Token.unplaced
  outer := head.outer.unplaced
  idle token ht := by
    rw [← List.map_append] at ht
    obtain ⟨found, hf, rfl⟩ := List.mem_map.1 ht
    exact head.idle found hf
  listed word list hl := by
    obtain ⟨found, hf, heq⟩ := Option.map_eq_some_iff.1 hl
    obtain ⟨rfl, rfl⟩ := Prod.mk.inj heq
    obtain ⟨hword, opening, inner, closing, hlist, hopening, hclosing, hinner⟩ :=
      head.listed found.1 found.2 hf
    refine ⟨hword, opening.unplaced, inner.map Token.unplaced, closing.unplaced, by simp [hlist],
      hopening, hclosing, ?_⟩
    rwa [lexemes_unplaced]
  keyword := head.keyword

theorem UniformHead.tokens_unplaced (head : UniformHead) :
    head.unplaced.tokens = head.tokens.map Token.unplaced := by
  obtain ⟨before, qualifiers, _ | ⟨word, list⟩, uniform, behind, _, _, _, _⟩ := head <;>
    simp [tokens, start, others, unplaced]

/-- A source with a uniform statement outside all groups. -/
structure UniformSource where
  text : String
  head : UniformHead
  first : Token
  rest : List Token
  tokens : tokensIn text = head.tokens ++ first :: rest
  opens : Opens first

/-- Two sources with the same statements, apart from the qualifiers of one of them. -/
structure UniformSource.Requalifies (source source' : UniformSource) : Prop where
  before : source.head.before.map Token.unplaced = source'.head.before.map Token.unplaced
  layout : source.head.unplaced.layout.map Prod.snd = source'.head.unplaced.layout.map Prod.snd
  first : source.first.lexeme = source'.first.lexeme
  rest : source.rest.map Token.unplaced = source'.rest.map Token.unplaced
  directives : directiveLines source.text = directiveLines source'.text

namespace UniformSource

theorem unplaced_tokens (source : UniformSource) : (tokensIn source.text).map Token.unplaced =
    source.head.unplaced.tokens ++ source.first.unplaced :: source.rest.map Token.unplaced := by
  rw [source.tokens, List.map_append, List.map_cons, source.head.tokens_unplaced]

theorem inOnePlace (source : UniformSource) : InOnePlace
    (source.head.unplaced.tokens ++ source.first.unplaced :: source.rest.map Token.unplaced) := by
  rw [← source.unplaced_tokens]
  intro token ht
  obtain ⟨found, -, rfl⟩ := List.mem_map.1 ht
  exact ⟨rfl, rfl⟩

theorem Requalifies.constants {source source' : UniformSource} (h : source.Requalifies source') :
    constantsOf source.text.toList = constantsOf source'.text.toList := by
  have hopens := source.opens
  have hopens' := source'.opens
  rw [constantsOf_eq, constantsOf_eq, source.unplaced_tokens, source'.unplaced_tokens, h.directives,
    ofStatements_head _ (show Opens source.first.unplaced from hopens),
    ofStatements_head _ (show Opens source'.first.unplaced from hopens')]
  have hbody : Constants.ofStatements (source.first.unplaced :: source.rest.map Token.unplaced) =
      Constants.ofStatements (source'.first.unplaced :: source'.rest.map Token.unplaced) := by
    refine Constants.ofStatements_congr ?_
    rw [List.map_cons, List.map_cons, h.rest]
    exact congrArg (· :: _) h.first
  have hbefore : source.head.unplaced.before = source'.head.unplaced.before := h.before
  rw [hbody, hbefore]

end UniformSource

end Source

open Source

/-- A uniform statement outside all groups has what it declares found in the contents of its source, if
these can be read at all, which they cannot if it declares nothing; and they are the same, apart from
places, wherever its qualifiers stand. -/
theorem uniforms_kept (key : String) (source : UniformSource)
    (hnumbers : NoNumber delimiters ⟨key, constantsOf source.text.toList⟩) :
    (SourceContents.read key source.text).Ensures
        (Contributes key source.head.start (source.first :: source.rest)) ∧
      ∀ source', source.Requalifies source' →
        withoutPlaces (SourceContents.read key source.text) =
          withoutPlaces (SourceContents.read key source'.text) := by
  refine ⟨fun contents hread => ?_, fun source' h => ?_⟩
  · rw [read_eq] at hread
    obtain ⟨found, hfound, rfl⟩ : ∃ found, (Cursor.loop
        (statement ⟨key, constantsOf source.text.toList⟩) {} ⟨0, tokensIn source.text⟩).result =
          .ok found ∧ SourceContents.ofEntries key found.1 (warningsOf (Cursor.loop
            (statement ⟨key, constantsOf source.text.toList⟩) {}
              ⟨0, tokensIn source.text⟩).notices) = contents := by
      revert hread
      unfold gathered tokensIn
      dsimp only
      cases (Cursor.loop (statement ⟨key, constantsOf source.text.toList⟩) {}
          ⟨0, tokensOf (items (stripComments source.text.toList))⟩).result with
      | error e => exact fun h => nomatch h
      | ok found => exact fun h => ⟨found, rfl, Except.ok.inj h⟩
    rw [source.tokens] at hfound
    obtain ⟨entry, hmem, hentry⟩ :=
      source_brings hnumbers source.head source.opens source.rest {} 0 found hfound
    exact hentry.of_mem hmem
  · rw [withoutPlaces_read, withoutPlaces_read, ← h.constants, source.unplaced_tokens,
      source'.unplaced_tokens, ← h.rest]
    have hopens : Opens source.first.unplaced := source.opens
    have hfirst : source.first.unplaced.lexeme = source'.first.unplaced.lexeme := h.first
    have hplace' := source'.inOnePlace
    rw [← h.rest] at hplace'
    exact statements_requalified hnumbers h.before h.layout hopens hfirst source.inOnePlace hplace' key

/-! ## Qualified uniforms -/

/-- `(location = 2)` in the first line of a source. -/
def locationList (column : Nat) : List Token :=
  [⟨.punct '(', 1, column, []⟩, ⟨.word "location", 1, column + 1, []⟩,
    ⟨.punct '=', 1, column + 10, [' ']⟩, ⟨.number "2", 1, column + 12, [' ']⟩,
    ⟨.punct ')', 1, column + 13, []⟩]

theorem isLayoutList_locationList (column : Nat) : IsLayoutList (locationList column) := by
  have hentries : Expression [.word "location", .punct '=', .number "2"] :=
    .operand (by decide) (.operand (by decide) (.operand (by decide) .nil))
  exact ⟨_, [⟨.word "location", 1, column + 1, []⟩, ⟨.punct '=', 1, column + 10, [' ']⟩,
    ⟨.number "2", 1, column + 12, [' ']⟩], _, rfl, rfl, rfl, hentries⟩

/-- `tint, glow;` behind a type that ends in the given column of the first line. -/
def tintAndGlow (column : Nat) : List Token :=
  [⟨.word "tint", 1, column + 1, [' ']⟩, ⟨.punct ',', 1, column + 5, []⟩,
    ⟨.word "glow", 1, column + 7, [' ']⟩, ⟨.punct ';', 1, column + 11, []⟩]

/-- A source whose statement has its qualifier behind the word of uniforms. -/
def qualifierBehind : UniformSource where
  text := "layout(location = 2) uniform highp vec4 tint, glow;"
  head :=
    { before := []
      qualifiers := []
      layout := some (⟨.word "layout", 1, 1, []⟩, locationList 7)
      uniform := ⟨.word "uniform", 1, 22, [' ']⟩
      behind := [⟨.word "highp", 1, 30, [' ']⟩]
      outer := outer_nil
      idle := by decide
      listed := by
        rintro word list hl
        obtain ⟨rfl, rfl⟩ := Prod.mk.inj (Option.some.inj hl)
        exact ⟨rfl, isLayoutList_locationList 7⟩
      keyword := rfl }
  first := ⟨.word "vec4", 1, 36, [' ']⟩
  rest := tintAndGlow 40
  tokens := by decide +kernel
  opens := Or.inr ⟨"vec4", by decide, rfl⟩

/-- The same source with the qualifier in front. -/
def qualifierInFront : UniformSource where
  text := "highp layout(location = 2) uniform vec4 tint, glow;"
  head :=
    { before := []
      qualifiers := [⟨.word "highp", 1, 1, []⟩]
      layout := some (⟨.word "layout", 1, 7, [' ']⟩, locationList 13)
      uniform := ⟨.word "uniform", 1, 28, [' ']⟩
      behind := []
      outer := outer_nil
      idle := by decide
      listed := by
        rintro word list hl
        obtain ⟨rfl, rfl⟩ := Prod.mk.inj (Option.some.inj hl)
        exact ⟨rfl, isLayoutList_locationList 13⟩
      keyword := rfl }
  first := ⟨.word "vec4", 1, 36, [' ']⟩
  rest := tintAndGlow 40
  tokens := by decide +kernel
  opens := Or.inr ⟨"vec4", by decide, rfl⟩

/-- Two uniforms are read alike with the qualifier on either side. -/
theorem uniforms_kept_tint :
    (SourceContents.read "a.glsl" qualifierBehind.text).result.isOk = true ∧
      (SourceContents.read "a.glsl" qualifierBehind.text).Ensures (Contributes "a.glsl"
        qualifierBehind.head.start (qualifierBehind.first :: qualifierBehind.rest)) ∧
      withoutPlaces (SourceContents.read "a.glsl" qualifierBehind.text) =
        withoutPlaces (SourceContents.read "a.glsl" qualifierInFront.text) := by
  have hsame : qualifierBehind.Requalifies qualifierInFront :=
    ⟨rfl, by decide, rfl, by decide, by decide +kernel⟩
  obtain ⟨hkept, hread⟩ := uniforms_kept "a.glsl" qualifierBehind (by decide +kernel)
  exact ⟨by decide +kernel, hkept, hread qualifierInFront hsame⟩

/-- A qualifier between a `layout(...)` list and the word of uniforms makes a uniform disappear. -/
theorem image_dropped :
    (SourceContents.read "a.glsl" "layout(binding = 1) uniform readonly image2D img;").result.map
        (fun contents => contents.uniforms.map UniformDeclaration.name) = .ok ["img"] ∧
      (SourceContents.read "a.glsl" "layout(binding = 1) readonly uniform image2D img;").result.map
        (fun contents => contents.uniforms.map UniformDeclaration.name) = .ok [] := by
  constructor <;> decide +kernel

end UniformLayout
