import UniformLayout.Proofs.Source.Twins

/-!
# The statements of a token list

What the reader takes from a list of tokens, as relations between the tokens in front of a part, what the
part gives, and the tokens behind it. `num` says which number a token may be taken for; a number is
needed for each array length and each value in a `layout(...)` list.

* `LengthAt`, `ListAt`, `DeclaratorsAt`, `MembersAt`: the parts of statements.
* `StatementAt`, `StatementsAt`: one statement, and all the statements up to the end of a source.
* `StandIn`: the contents of a source are what its statements give.

Main statements: `StatementAt.shorter` and `StandIn.uniform_at`.
-/

namespace UniformLayout

namespace Source

variable (num : Token → Nat → Prop) (file : String)

/-! ## Array lengths -/

/-- The length in brackets, if there are any. -/
inductive LengthAt : List Token → Option Nat → List Token → Prop
  | none {tokens : List Token} : (∀ token ∈ tokens.head?, token.lexeme ≠ .punct '[') →
      LengthAt tokens none tokens
  | some {opening number closing : Token} {n : Nat} {behind : List Token} :
      opening.lexeme = .punct '[' → num number n → closing.lexeme = .punct ']' →
        LengthAt (opening :: number :: closing :: behind) (some n) behind

/-! ## Layout lists -/

/-- The entries of a list up to the parenthesis that closes it. -/
inductive EntriesAt : List Token → List LayoutList.Entry → List Token → Prop
  | close {closing : Token} {behind : List Token} : closing.lexeme = .punct ')' →
      EntriesAt (closing :: behind) [] behind
  | comma {comma : Token} {rest behind : List Token} {entries : List LayoutList.Entry} :
      comma.lexeme = .punct ',' → EntriesAt rest entries behind →
        EntriesAt (comma :: rest) entries behind
  | word {named : Token} {word : String} {rest behind : List Token}
      {entries : List LayoutList.Entry} : named.lexeme = .word word →
      (∀ token ∈ rest.head?, token.lexeme ≠ .punct '=') → EntriesAt rest entries behind →
        EntriesAt (named :: rest) ((word, none) :: entries) behind
  | value {named equals value : Token} {word : String} {n : Nat} {rest behind : List Token}
      {entries : List LayoutList.Entry} : named.lexeme = .word word → equals.lexeme = .punct '=' →
      num value n → EntriesAt rest entries behind →
        EntriesAt (named :: equals :: value :: rest) ((word, some n) :: entries) behind

/-- The value that the last entry with the word gives it. -/
def lastValue (word : String) (entries : List LayoutList.Entry) : Option Nat :=
  (entries.filterMap fun entry => if entry.1 = word then entry.2 else none).getLast?

/-- A list in parentheses with its binding and its location. -/
inductive ListAt : List Token → Qualifiers → List Token → Prop
  | mk {opening : Token} {rest behind : List Token} {entries : List LayoutList.Entry} :
      opening.lexeme = .punct '(' → EntriesAt num rest entries behind →
        ListAt (opening :: rest) ⟨lastValue "binding" entries, lastValue "location" entries⟩ behind

/-! ## Declarators -/

/-- The tokens behind the qualifiers that do not change the layout. -/
def pastIdle (tokens : List Token) : List Token := tokens.dropWhile fun token => isIdle token.lexeme

/-- The tokens behind an initialiser, if there is one. -/
def pastInitialiser : List Token → List Token
  | [] => []
  | token :: rest =>
    if token.lexeme = .punct '=' then
      rest.dropWhile fun token => token.lexeme ≠ .punct ',' ∧ token.lexeme ≠ .punct ';'
    else token :: rest

section Declarators

variable (typeName : String) (qualifiers : Qualifiers) (past : List Token → List Token)

/-- One declarator up to the mark behind it. `past` leads over what may stand in front of the mark. -/
inductive DeclaratorAt (mark : Char) : List Token → FieldDeclaration → List Token → Prop
  | mk {named ending : Token} {name : String} {rest middle behind : List Token}
      {length : Option Nat} : named.lexeme = .word name → LengthAt num rest length middle →
      past middle = ending :: behind → ending.lexeme = .punct mark →
        DeclaratorAt mark (named :: rest)
          { typeName, name, arrayLength := length, qualifiers,
            source := ⟨file, named.line, named.column⟩ } behind

/-- Declarators with commas between them, up to the semicolon behind the last one. -/
inductive DeclaratorsAt : List Token → List FieldDeclaration → List Token → Prop
  | last {tokens behind : List Token} {field : FieldDeclaration} :
      DeclaratorAt num file typeName qualifiers past ';' tokens field behind →
        DeclaratorsAt tokens [field] behind
  | more {tokens middle behind : List Token} {field : FieldDeclaration}
      {fields : List FieldDeclaration} :
      DeclaratorAt num file typeName qualifiers past ',' tokens field middle →
      DeclaratorsAt middle fields behind → DeclaratorsAt tokens (field :: fields) behind

end Declarators

/-! ## Members -/

/-- What may stand in front of the type of a member: qualifiers, and a list that has no effect. -/
inductive MemberHeadAt (tokens : List Token) : List Token → Prop
  | plain : (∀ token ∈ (pastIdle tokens).head?, token.lexeme ≠ .word "layout") →
      MemberHeadAt tokens (pastIdle tokens)
  | listed {word : Token} {rest behind : List Token} {qualifiers : Qualifiers} :
      pastIdle tokens = word :: rest → word.lexeme = .word "layout" →
        ListAt num rest qualifiers behind → MemberHeadAt tokens (pastIdle behind)

/-- Members up to the brace behind them. They have neither binding nor location. -/
inductive MembersAt : List Token → List FieldDeclaration → List Token → Prop
  | close {tokens behind : List Token} {closing : Token} :
      MemberHeadAt num tokens (closing :: behind) → closing.lexeme = .punct '}' →
        MembersAt tokens [] behind
  | group {tokens rest middle behind : List Token} {type : Token} {typeName : String}
      {fields others : List FieldDeclaration} : MemberHeadAt num tokens (type :: rest) →
      type.lexeme = .word typeName → DeclaratorsAt num file typeName {} id rest fields middle →
      MembersAt middle others behind → MembersAt tokens (fields ++ others) behind

/-! ## Statements -/

/-- The start of a uniform statement up to what it declares. Its binding and its location are those of
its own list. -/
inductive HeadAt (start : Token) (rest : List Token) : Qualifiers → List Token → Prop
  | plain : start.lexeme = .word "uniform" → HeadAt start rest {} (pastIdle rest)
  | listed {keyword : Token} {behind : List Token} {qualifiers : Qualifiers} :
      start.lexeme = .word "layout" → ListAt num rest qualifiers (keyword :: behind) →
        keyword.lexeme = .word "uniform" → HeadAt start rest qualifiers (pastIdle behind)

/-- The name of a block, if it has one, and the brace behind it. -/
inductive BlockNameAt : List Token → Option String → List Token → Prop
  | none {opening : Token} {behind : List Token} : opening.lexeme = .punct '{' →
      BlockNameAt (opening :: behind) none behind
  | some {named opening : Token} {name : String} {behind : List Token} :
      named.lexeme = .word name → opening.lexeme = .punct '{' →
        BlockNameAt (named :: opening :: behind) (some name) behind

/-- The name of the instance of a block, if it has one, with its array length, which does not count. -/
inductive BlockEndAt : List Token → Option String → List Token → Prop
  | none {tokens behind : List Token} {ending : Token} {length : Option Nat} :
      (∀ token ∈ tokens.head?, ∀ name, token.lexeme ≠ .word name) →
        LengthAt num tokens length (ending :: behind) → ending.lexeme = .punct ';' →
          BlockEndAt tokens none behind
  | some {named ending : Token} {name : String} {rest behind : List Token} {length : Option Nat} :
      named.lexeme = .word name → LengthAt num rest length (ending :: behind) →
        ending.lexeme = .punct ';' → BlockEndAt (named :: rest) (some name) behind

/-- What a block gives: a declaration under its name or that of its instance, or no declaration if it
has neither. -/
inductive BlockGives (source : SourceLocation) (binding : Option Nat)
    (fields : List FieldDeclaration) : Option String → Entry → Prop
  | declaration {name : String} {decl : TypeDeclaration} : decl.name = name →
      decl.source = source → decl.fields = fields → decl.kind.bindingSlot? = binding →
        BlockGives source binding fields (some name) (.declaration decl)
  | anonymous : BlockGives source binding fields none (.anonymous ⟨source, fields⟩)

/-- The tokens behind a semicolon, if there is one. -/
def pastEnd : List Token → List Token
  | [] => []
  | token :: rest => if token.lexeme = .punct ';' then rest else token :: rest

/-- One statement at the top level, or one token or group that is passed over. -/
inductive StatementAt : List Token → Entry → List Token → Prop
  | struct {keyword : Token} {rest middle : List Token} {body : Cursor} {decl : TypeDeclaration} :
      keyword.lexeme = .word "struct" → structHead? rest = some (decl.name, body) →
        decl.kind = .struct → decl.source = ⟨file, keyword.line, keyword.column⟩ →
          MembersAt num file body.rest decl.fields middle →
            StatementAt (keyword :: rest) (.declaration decl) (pastEnd middle)
  | block {start : Token} {rest body inner middle behind : List Token} {qualifiers : Qualifiers}
      {blockName instanceName : Option String} {fields : List FieldDeclaration} {entry : Entry} :
      HeadAt num start rest qualifiers body → BlockNameAt body blockName inner →
        MembersAt num file inner fields middle → BlockEndAt num middle instanceName behind →
          BlockGives ⟨file, start.line, start.column⟩ qualifiers.binding fields
            (blockName.or instanceName) entry → StatementAt (start :: rest) entry behind
  | uniforms {start type : Token} {typeName : String} {rest body behind : List Token}
      {qualifiers : Qualifiers} {list : List UniformDeclaration} :
      HeadAt num start rest qualifiers (type :: body) → type.lexeme = .word typeName →
        DeclaratorsAt num file typeName qualifiers pastInitialiser body
          (list.map UniformDeclaration.toField) behind →
            StatementAt (start :: rest) (.uniforms list) behind
  | packing {start ending : Token} {rest behind : List Token} {qualifiers : Qualifiers}
      {packing : Option Packing} : HeadAt num start rest qualifiers (ending :: behind) →
      ending.lexeme = .punct ';' →
        StatementAt (start :: rest) (packing.elim .nothing .packing) behind
  | other {start : Token} {line : Nat} {rest behind : List Token} {qualifiers : Qualifiers} :
      start.lexeme = .word "layout" → ListAt num rest qualifiers behind →
        (∀ token ∈ behind.head?, token.lexeme ≠ .word "uniform") →
          StatementAt (start :: rest) .nothing (Cursor.skipStatement 0 line behind).rest
  | tagged {token : Token} {rest : List Token} : token.lexeme = .punct '[' →
      StatementAt (token :: rest) .nothing ((attribute? rest).elim rest (·.2.rest))
  | group {token : Token} {rest : List Token} : token.lexeme = .punct '{' →
      StatementAt (token :: rest) .nothing (Cursor.skipGroup 1 token.line rest).rest
  | passedOver {token : Token} {rest : List Token} :
      token.lexeme = .word "struct" ∧ structHead? rest = none ∨ token.lexeme = .punct ';' ∨
        PassedOver token.lexeme → StatementAt (token :: rest) .nothing rest

/-- All statements up to the end of the tokens. -/
inductive StatementsAt : List Token → List Entry → Prop
  | nil : StatementsAt [] []
  | cons {tokens behind : List Token} {entry : Entry} {entries : List Entry} :
      StatementAt num file tokens entry behind → StatementsAt behind entries →
        StatementsAt tokens (entry :: entries)

/-- The contents are what the statements of the tokens give, with the numbers that stand there. -/
def StandIn (tokens : List Token) (contents : SourceContents) : Prop :=
  ∃ entries, StatementsAt num contents.key tokens entries ∧
    contents = SourceContents.ofEntries contents.key entries contents.warnings

/-! ## What is read of the tokens -/

section Suffixes

variable {num : Token → Nat → Prop} {file : String} {tokens behind : List Token}

theorem pastIdle_suffix (tokens : List Token) : pastIdle tokens <:+ tokens :=
  List.dropWhile_suffix _

theorem pastInitialiser_suffix (tokens : List Token) : pastInitialiser tokens <:+ tokens := by
  unfold pastInitialiser
  split
  · exact List.suffix_refl _
  · split
    · exact (List.dropWhile_suffix _).trans (List.suffix_cons _ _)
    · exact List.suffix_refl _

theorem pastEnd_suffix (tokens : List Token) : pastEnd tokens <:+ tokens := by
  unfold pastEnd
  split
  · exact List.suffix_refl _
  · split
    · exact List.suffix_cons _ _
    · exact List.suffix_refl _

theorem LengthAt.suffix {length : Option Nat} (h : LengthAt num tokens length behind) :
    behind <:+ tokens := by
  cases h with
  | none _ => exact List.suffix_refl _
  | some _ _ _ => exact ⟨[_, _, _], rfl⟩

theorem EntriesAt.suffix {entries : List LayoutList.Entry} (h : EntriesAt num tokens entries behind) :
    behind <:+ tokens := by
  induction h with
  | close _ => exact List.suffix_cons _ _
  | comma _ _ ih => exact ih.trans (List.suffix_cons _ _)
  | word _ _ _ ih => exact ih.trans (List.suffix_cons _ _)
  | value _ _ _ _ ih => exact ih.trans ⟨[_, _, _], rfl⟩

theorem ListAt.suffix {qualifiers : Qualifiers} (h : ListAt num tokens qualifiers behind) :
    behind <:+ tokens := by
  obtain ⟨-, hentries⟩ := h
  exact hentries.suffix.trans (List.suffix_cons _ _)

theorem DeclaratorAt.suffix {typeName : String} {qualifiers : Qualifiers}
    {past : List Token → List Token} {mark : Char} {field : FieldDeclaration}
    (hpast : ∀ tokens, past tokens <:+ tokens)
    (h : DeclaratorAt num file typeName qualifiers past mark tokens field behind) :
    behind <:+ tokens := by
  obtain ⟨-, hlength, hend, -⟩ := h
  have hmiddle : behind <:+ _ := (List.suffix_cons _ _).trans (hend ▸ hpast _)
  exact hmiddle.trans (hlength.suffix.trans (List.suffix_cons _ _))

theorem DeclaratorsAt.suffix {typeName : String} {qualifiers : Qualifiers}
    {past : List Token → List Token} {fields : List FieldDeclaration}
    (hpast : ∀ tokens, past tokens <:+ tokens)
    (h : DeclaratorsAt num file typeName qualifiers past tokens fields behind) :
    behind <:+ tokens := by
  induction h with
  | last hfield => exact hfield.suffix hpast
  | more hfield _ ih => exact ih.trans (hfield.suffix hpast)

theorem MemberHeadAt.suffix (h : MemberHeadAt num tokens behind) : behind <:+ tokens := by
  cases h with
  | plain _ => exact pastIdle_suffix _
  | listed hidle _ hlist =>
    have hrest := (List.suffix_cons _ _).trans (hidle ▸ pastIdle_suffix tokens)
    exact (pastIdle_suffix _).trans (hlist.suffix.trans hrest)

theorem MembersAt.suffix {fields : List FieldDeclaration}
    (h : MembersAt num file tokens fields behind) : behind <:+ tokens := by
  induction h with
  | close hhead _ => exact (List.suffix_cons _ _).trans hhead.suffix
  | group hhead _ hfields _ ih =>
    exact ih.trans ((hfields.suffix List.suffix_refl).trans
      ((List.suffix_cons _ _).trans hhead.suffix))

theorem HeadAt.suffix {start : Token} {qualifiers : Qualifiers}
    (h : HeadAt num start tokens qualifiers behind) : behind <:+ tokens := by
  cases h with
  | plain _ => exact pastIdle_suffix _
  | listed _ hlist _ => exact (pastIdle_suffix _).trans ((List.suffix_cons _ _).trans hlist.suffix)

theorem BlockNameAt.suffix {blockName : Option String} (h : BlockNameAt tokens blockName behind) :
    behind <:+ tokens := by
  cases h with
  | none _ => exact List.suffix_cons _ _
  | some _ _ => exact ⟨[_, _], rfl⟩

theorem BlockEndAt.suffix {instanceName : Option String}
    (h : BlockEndAt num tokens instanceName behind) : behind <:+ tokens := by
  cases h with
  | none _ hlength _ => exact (List.suffix_cons _ _).trans hlength.suffix
  | some _ hlength _ =>
    exact (List.suffix_cons _ _).trans (hlength.suffix.trans (List.suffix_cons _ _))

/-- Each statement is at least one token. -/
theorem StatementAt.shorter {entry : Entry} (h : StatementAt num file tokens entry behind) :
    ∃ start rest, tokens = start :: rest ∧ behind <:+ rest := by
  cases h with
  | struct _ hhead _ _ hmembers =>
    exact ⟨_, _, rfl, (pastEnd_suffix _).trans (hmembers.suffix.trans (structHead?_suffix hhead))⟩
  | block hhead hname hmembers hend _ =>
    exact ⟨_, _, rfl, hend.suffix.trans (hmembers.suffix.trans (hname.suffix.trans hhead.suffix))⟩
  | uniforms hhead _ hfields =>
    exact ⟨_, _, rfl, (hfields.suffix pastInitialiser_suffix).trans
      ((List.suffix_cons _ _).trans hhead.suffix)⟩
  | packing hhead _ => exact ⟨_, _, rfl, (List.suffix_cons _ _).trans hhead.suffix⟩
  | other _ hlist _ => exact ⟨_, _, rfl, (Cursor.skipStatement_suffix _ _ _).trans hlist.suffix⟩
  | @tagged _ rest _ =>
    refine ⟨_, _, rfl, ?_⟩
    cases ha : attribute? rest with
    | none => exact List.suffix_refl _
    | some found => exact attribute?_suffix ha
  | group _ => exact ⟨_, _, rfl, Cursor.skipGroup_suffix _ _ _⟩
  | passedOver _ => exact ⟨_, _, rfl, List.suffix_refl _⟩

end Suffixes

/-! ## Uniforms -/

section Uniforms

variable {num : Token → Nat → Prop} {file : String} {tokens behind : List Token}

/-- The name of each field stands among the tokens, in front of its array length. -/
theorem DeclaratorsAt.exists_of_mem {typeName : String} {qualifiers : Qualifiers}
    {past : List Token → List Token} {fields : List FieldDeclaration} {field : FieldDeclaration}
    (hpast : ∀ tokens, past tokens <:+ tokens)
    (h : DeclaratorsAt num file typeName qualifiers past tokens fields behind)
    (hmem : field ∈ fields) : field.qualifiers = qualifiers ∧ ∃ named rest after,
      named :: rest <:+ tokens ∧ named.lexeme = .word field.name ∧
        LengthAt num rest field.arrayLength after := by
  have hfirst : ∀ {mark : Char} {tokens behind : List Token} {field : FieldDeclaration},
      DeclaratorAt num file typeName qualifiers past mark tokens field behind →
        field.qualifiers = qualifiers ∧ ∃ named rest after, named :: rest <:+ tokens ∧
          named.lexeme = .word field.name ∧ LengthAt num rest field.arrayLength after := by
    rintro mark tokens behind field ⟨hname, hlength, -, -⟩
    exact ⟨rfl, _, _, _, List.suffix_refl _, hname, hlength⟩
  induction h with
  | last hfield =>
    obtain rfl := List.mem_singleton.1 hmem
    exact hfirst hfield
  | more hfield _ ih =>
    rcases List.mem_cons.1 hmem with rfl | hmem
    · exact hfirst hfield
    · obtain ⟨hqualifiers, named, rest, after, hsuffix, hfound⟩ := ih hmem
      exact ⟨hqualifiers, named, rest, after, hsuffix.trans (hfield.suffix hpast), hfound⟩

/-- A statement stands for each entry among the tokens. -/
theorem StatementsAt.exists_of_mem {entries : List Entry} {entry : Entry}
    (h : StatementsAt num file tokens entries) (hmem : entry ∈ entries) :
    ∃ front behind, front <:+ tokens ∧ StatementAt num file front entry behind := by
  induction h with
  | nil => cases hmem
  | cons hentry _ ih =>
    rcases List.mem_cons.1 hmem with rfl | hmem
    · exact ⟨_, _, List.suffix_refl _, hentry⟩
    · obtain ⟨front, after, hsuffix, hfound⟩ := ih hmem
      obtain ⟨start, rest, rfl, hrest⟩ := hentry.shorter
      exact ⟨front, after, hsuffix.trans (hrest.trans (List.suffix_cons _ _)), hfound⟩

/-- A uniform has the qualifiers of its own statement, and its array length stands behind its name. -/
theorem StandIn.uniform_at {contents : SourceContents} (h : StandIn num tokens contents)
    {uniform : UniformDeclaration} (hu : uniform ∈ contents.uniforms) :
    ∃ start rest type body named behind after, start :: rest <:+ tokens ∧
      HeadAt num start rest uniform.qualifiers (type :: body) ∧ named :: behind <:+ body ∧
        named.lexeme = .word uniform.name ∧ LengthAt num behind uniform.arrayLength after := by
  obtain ⟨entries, hentries, hcontents⟩ := h
  rw [hcontents] at hu
  obtain ⟨entry, hmem, hu⟩ := List.mem_flatMap.1 hu
  obtain ⟨front, after, hfront, hentry⟩ := hentries.exists_of_mem hmem
  cases hentry with
  | uniforms hhead _ hfields =>
    obtain ⟨hqualifiers, named, behind, after, hsuffix, hnamed, hlength⟩ :=
      hfields.exists_of_mem pastInitialiser_suffix (List.mem_map_of_mem hu)
    have hown : uniform.qualifiers = _ := hqualifiers
    exact ⟨_, _, _, _, named, behind, after, hfront, hown ▸ hhead, hsuffix, hnamed, hlength⟩
  | @block _ _ _ _ _ _ _ blockName instanceName _ _ _ _ _ _ hgives =>
    generalize blockName.or instanceName = name at hgives
    cases hgives <;> cases hu
  | @packing _ _ _ _ _ packing _ _ => cases packing <;> cases hu
  | _ => cases hu

end Uniforms

end Source

end UniformLayout
