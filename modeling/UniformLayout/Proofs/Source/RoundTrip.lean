import UniformLayout.Proofs.Source.Recognition

/-!
# Reading what is written

A source that is written by the grammar of declarations is read without a failure, and what is found in
it are the declarations that were written, in their order. The fillers between the lexemes, the idle
qualifiers and the order of layout entries leave no trace; only the places of the declarations in the
source depend on them.

There is one lemma for each reader: it reads what the grammar writes for its part.

Main statement: `read_written`.
-/

namespace UniformLayout

namespace Source

open Logged Grammar

/-! ## Names with array lengths -/

theorem arrayLength_reads {scope : Scope} {declaration field : String} {cursor : Cursor}
    {length : Option Length} {behind : List Lexeme}
    (h : cursor.lexemes = lengthLexemes length ++ behind)
    (hb : behind.head? ≠ some (.punct '[')) :
    Reads (arrayLength scope declaration field cursor) (· = length.map (·.value)) behind := by
  cases length with
  | none =>
    rw [arrayLength_of_not_bracket (Cursor.eat?_eq_none (h ▸ hb))]
    exact reads_pure rfl h
  | some length =>
    obtain ⟨opened, hopen, hopened⟩ := Cursor.eat?_of_lexemes h
    obtain ⟨token, inside, hnext, htoken, hinside⟩ := Cursor.next?_of_lexemes hopened
    obtain ⟨closed, hclose, hclosed⟩ := Cursor.eat?_of_lexemes hinside
    have hvalue : scope.constants.resolve? length.text = some length.value :=
      Constants.resolve?_of_literal length.integerLiteral?_text
    have hlexeme : token.lexeme = .number length.text := htoken
    have hzero : length.value ≠ 0 := Nat.pos_iff_ne_zero.1 length.positive
    have hpeek : closed.peek? ≠ some (.punct '[') := by
      rw [Cursor.peek?, ← List.head?_map]
      exact (congrArg List.head? hclosed).trans_ne hb
    simp only [arrayLength, hopen, hnext, hlexeme, hvalue, hclose, hpeek, if_false, pure_bind, hzero]
    exact reads_pure rfl hclosed

theorem declarator_reads {scope : Scope} {declaration : String} {names : TypedNames}
    {declared : Declarator} {cursor : Cursor} {mark : Char} {after : List Lexeme}
    (hm : mark = ',' ∨ mark = ';')
    (h : cursor.lexemes = declared.lexemes ++ .punct mark :: after) :
    Reads (declarator scope declaration names.typeName () cursor)
      (fun turn => ∃ field, field.unplaced = names.field declared ∧
        turn = if mark = ',' then .again field () else .last field) after := by
  obtain ⟨token, named, hword, hnamed⟩ := Cursor.word?_of_lexemes h
  have hb : (Lexeme.punct mark :: after).head? ≠ some (.punct '[') := by
    rcases hm with rfl | rfl <;> simp
  simp only [declarator, hword]
  refine (arrayLength_reads hnamed hb).bind ?_
  rintro length behind rfl hbehind
  obtain ⟨final, hfinal, ⟨rfl, hcomma⟩ | ⟨rfl, hcomma, hend⟩⟩ :=
    Cursor.separator_of_lexemes hm hbehind
  · simp only [hcomma]
    exact reads_pure ⟨_, rfl, rfl⟩ hfinal
  · simp only [hcomma, hend]
    exact reads_pure ⟨_, rfl, rfl⟩ hfinal

/-! ## Layout lists -/

/-- The entry as it is read. -/
def Grammar.LayoutEntry.entry : LayoutEntry → LayoutList.Entry
  | .packing asked => (asked.name, none)
  | .binding slot => ("binding", some slot.value)
  | .location slot => ("location", some slot.value)

namespace LayoutList

theorem gather_entries (layout : List LayoutEntry) :
    gather (layout.map LayoutEntry.entry) = layoutOf layout := by
  induction layout using List.reverseRecOn with
  | nil => rfl
  | append_singleton layout entry ih =>
    unfold gather at ih ⊢
    rw [List.map_append, List.foldl_append, ih]
    cases entry with
    | packing asked => simp [LayoutEntry.entry, add, Packing.ofName?_name, layoutOf]
    | binding slot => simp [LayoutEntry.entry, add, layoutOf]
    | location slot => simp [LayoutEntry.entry, add, layoutOf]

variable {scope : Scope} {declaration : String} {cursor : Cursor} {behind : List Lexeme}

theorem value_reads {name : String} {slot : Numeral}
    (h : cursor.lexemes = .word name :: .punct '=' :: slot.lexeme :: behind) :
    Reads (entry scope declaration () cursor)
      (· = .again (some (name, some slot.value)) ()) behind := by
  obtain ⟨token, named, hnext, htoken, hnamed⟩ := Cursor.next?_of_lexemes h
  obtain ⟨assigned, hassign, hassigned⟩ := Cursor.eat?_of_lexemes hnamed
  obtain ⟨value, final, hvalue, hnumber, hfinal⟩ := Cursor.next?_of_lexemes hassigned
  have hresolve : scope.constants.resolve? value.text = some slot.value := by
    rw [Token.text, hnumber]
    exact Constants.resolve?_of_literal slot.integerLiteral?_text
  simp only [entry, hnext, htoken, hassign, hvalue, hresolve]
  exact reads_pure rfl hfinal

theorem entry_reads {asked : LayoutEntry} (h : cursor.lexemes = asked.lexemes ++ behind)
    (hb : behind.head? ≠ some (.punct '=')) :
    Reads (entry scope declaration () cursor) (· = .again (some asked.entry) ()) behind := by
  cases asked with
  | packing asked =>
    obtain ⟨token, named, hnext, htoken, hnamed⟩ := Cursor.next?_of_lexemes h
    have hassign : named.eat? '=' = none :=
      Cursor.eat?_eq_none ((congrArg List.head? hnamed).trans_ne hb)
    simp only [entry, hnext, htoken, hassign]
    exact reads_pure rfl hnamed
  | binding slot => exact value_reads h
  | location slot => exact value_reads h

/-- An entry in front of what the rest of the loop reads. -/
theorem loop_entry_reads_cons {asked : LayoutEntry} {tail : List Lexeme} {entries : List Entry}
    (h : cursor.lexemes = asked.lexemes ++ tail) (ht : tail.head? ≠ some (.punct '='))
    (hrest : ∀ final : Cursor, final.lexemes = tail →
      Reads (Cursor.loop (entry scope declaration) () final)
        (fun items => items.filterMap id = entries) behind) :
    Reads (Cursor.loop (entry scope declaration) () cursor)
      (fun items => items.filterMap id = asked.entry :: entries) behind := by
  have hsome : 0 < asked.lexemes.length := by cases asked <;> simp [LayoutEntry.lexemes]
  refine Cursor.loop_reads_again (p := fun item _ => item = some asked.entry)
    (Reads.mono (entry_reads h ht) fun turn hturn => ⟨_, _, hturn, rfl⟩) ?_ ?_
  · rw [h]
    simp only [List.length_append]
    omega
  · rintro item _ final rfl hfinal
    refine (hrest final hfinal).mono fun items hitems => ?_
    exact congrArg (asked.entry :: ·) hitems

/-- An entry, the entries behind it, each with a comma in front, and the end of the list. -/
theorem loop_entry_reads (first : LayoutEntry) (others : List LayoutEntry)
    (h : cursor.lexemes = first.lexemes ++
      ((others.map LayoutEntry.lexemes).flatMap (.punct ',' :: ·) ++ .punct ')' :: behind)) :
    Reads (Cursor.loop (entry scope declaration) () cursor)
      (fun items => items.filterMap id = (first :: others).map LayoutEntry.entry) behind := by
  induction others generalizing first cursor with
  | nil =>
    refine loop_entry_reads_cons h (by simp) fun final hfinal => ?_
    obtain ⟨token, closed, hnext, htoken, hclosed⟩ := Cursor.next?_of_lexemes hfinal
    have hdone : Reads (entry scope declaration () final) (· = .done) behind := by
      simp only [entry, hnext, htoken]
      exact reads_pure rfl hclosed
    refine (Cursor.loop_reads_done hdone).mono ?_
    rintro items rfl
    rfl
  | cons second others ih =>
    refine loop_entry_reads_cons h (by simp) fun final hfinal => ?_
    simp only [List.map_cons, List.flatMap_cons, List.cons_append, List.append_assoc] at hfinal
    obtain ⟨token, passed, hnext, htoken, hpassed⟩ := Cursor.next?_of_lexemes hfinal
    have hcomma : Reads (entry scope declaration () final) (· = .again none ()) passed.lexemes := by
      simp only [entry, hnext, htoken]
      exact reads_pure rfl rfl
    refine Cursor.loop_reads_again (p := fun item _ => item = none)
      (hcomma.mono fun turn hturn => ⟨_, _, hturn, rfl⟩) ?_ ?_
    · rw [hfinal, hpassed]
      exact Nat.lt_succ_self _
    · rintro item _ last rfl hlast
      exact ih second (hlast.trans hpassed)

/-- A list is read as what it asks for. -/
theorem read_reads {first : LayoutEntry} {others : List LayoutEntry}
    (h : cursor.lexemes =
      .punct '(' :: (listed ((first :: others).map LayoutEntry.lexemes) ++ .punct ')' :: behind)) :
    Reads (read scope declaration cursor) (· = layoutOf (first :: others)) behind := by
  obtain ⟨opened, hopen, hopened⟩ := Cursor.eat?_of_lexemes h
  rw [List.map_cons, listed_cons, List.append_assoc] at hopened
  simp only [read, hopen]
  refine (loop_entry_reads first others hopened).bind fun items final hitems hfinal => ?_
  apply reads_pure _ hfinal
  rw [hitems, gather_entries]

end LayoutList

/-! ## Members -/

theorem Grammar.TypedNames.declarators_reads {scope : Scope} {declaration : String} (names : TypedNames)
    {cursor : Cursor} {after : List Lexeme}
    (h : cursor.lexemes =
      listed (names.declarators.map Declarator.lexemes) ++ .punct ';' :: after) :
    Reads (Cursor.loop (declarator scope declaration names.typeName) () cursor)
      (fun fields => fields.map FieldDeclaration.unplaced = names.fields) after :=
  Cursor.loop_reads_listed (fun _ _ _ _ hm hc => declarator_reads hm hc) names.first names.others h

theorem memberGroup_reads {scope : Scope} {declaration : String} {names : TypedNames}
    {cursor : Cursor} {after : List Lexeme} (h : cursor.lexemes = names.lexemes ++ after) :
    Reads (memberGroup scope declaration () cursor)
      (fun turn => ∃ fields next, turn = .again fields next ∧
        fields.map FieldDeclaration.unplaced = names.fields ∧ True) after := by
  simp only [TypedNames.lexemes, List.append_assoc, List.cons_append, List.nil_append] at h
  have hskip := Cursor.lexemes_skipQualifiers names.qualifiers h (by
    rintro text ht
    obtain rfl := Lexeme.word.inj (Option.some.inj ht)
    exact names.typeName.not_idle)
  obtain ⟨typeToken, typed, hword, -⟩ := Cursor.word?_of_lexemes hskip
  obtain ⟨token, behind, hnext, htoken, hbehind⟩ := Cursor.next?_of_lexemes hskip
  have hlayout : memberLayout scope declaration cursor.skipQualifiers =
      pure cursor.skipQualifiers := by
    unfold memberLayout
    rw [hword]
    split
    · rename_i heq
      simp only [Option.some.injEq, Prod.mk.injEq] at heq
      exact absurd heq.2.1 (names.typeName.ne_of_mem_keywords (by simp [keywords]))
    · rfl
  simp only [memberGroup, hlayout, pure_bind, hnext]
  split
  · rename_i heq
    cases heq.symm.trans htoken
  · rename_i heq
    have hname := Lexeme.word.inj (htoken.symm.trans heq)
    exact absurd hname (names.typeName.ne_of_mem_keywords (by simp [keywords]))
  · rename_i typeName _ heq
    obtain rfl := Lexeme.word.inj (htoken.symm.trans heq)
    refine (names.declarators_reads hbehind).bind fun fields final hfields hfinal => ?_
    exact reads_pure ⟨fields, (), rfl, hfields, trivial⟩ hfinal
  · rename_i hno
    exact absurd htoken (hno _)

/-- The closing brace ends the members. -/
theorem memberGroup_reads_done {scope : Scope} {declaration : String} {cursor : Cursor}
    {behind : List Lexeme} (h : cursor.lexemes = .punct '}' :: behind) :
    Reads (memberGroup scope declaration () cursor) (· = .done) behind := by
  have hskip : cursor.skipQualifiers.lexemes = .punct '}' :: behind :=
    Cursor.lexemes_skipQualifiers [] h (by simp)
  obtain ⟨token, closed, hnext, htoken, hclosed⟩ := Cursor.next?_of_lexemes hskip
  have hword : cursor.skipQualifiers.word? = none := Cursor.word?_eq_none hskip
  simp only [memberGroup, memberLayout, hword, pure_bind, hnext, htoken]
  exact reads_pure rfl hclosed

theorem members_reads {scope : Scope} {declaration : String} {list : List TypedNames}
    {cursor : Cursor} {behind : List Lexeme}
    (h : cursor.lexemes = list.flatMap TypedNames.lexemes ++ .punct '}' :: behind) :
    Reads (members scope declaration cursor)
      (fun fields => fields.map FieldDeclaration.unplaced = list.flatMap TypedNames.fields)
      behind := by
  have hloop : Reads (Cursor.loop (memberGroup scope declaration) () cursor)
      (fun groups => groups.map (List.map FieldDeclaration.unplaced) = list.map TypedNames.fields)
      behind :=
    Cursor.loop_reads_groups (P := fun _ => True) (fun _ _ _ _ _ hc => memberGroup_reads hc)
      (by simp [TypedNames.lexemes]) (fun _ _ _ hc => memberGroup_reads_done hc) list trivial h
  refine hloop.bind fun groups final hgroups hfinal => reads_pure ?_ hfinal
  rw [List.map_flatten, hgroups, List.flatMap_def]

/-! ## Statements -/

section Statements

variable {scope : Scope} {packing : Packing} {attributes : List Attribute} {start : Token}
  {cursor : Cursor} {behind : List Lexeme}

theorem uniformDeclarator_reads {layout : LayoutList} {names : TypedNames} {declared : Declarator}
    {mark : Char} (hm : mark = ',' ∨ mark = ';')
    (h : cursor.lexemes = declared.lexemes ++ .punct mark :: behind) :
    Reads (uniformDeclarator scope names.typeName layout [] () cursor)
      (fun turn => ∃ uniform, uniform.unplaced = names.uniform layout declared ∧
        turn = if mark = ',' then .again uniform () else .last uniform) behind := by
  obtain ⟨token, named, hword, hnamed⟩ := Cursor.word?_of_lexemes h
  have hb : (Lexeme.punct mark :: behind).head? ≠ some (.punct '[') := by
    rcases hm with rfl | rfl <;> simp
  simp only [uniformDeclarator, hword]
  refine (arrayLength_reads hnamed hb).bind ?_
  rintro length last rfl hlast
  have hplain : skipInitialiser last = last := by
    have hassign : last.eat? '=' = none := by
      apply Cursor.eat?_eq_none
      rw [hlast]
      rcases hm with rfl | rfl <;> simp
    simp only [skipInitialiser, hassign]
  obtain ⟨final, hfinal, ⟨rfl, hcomma⟩ | ⟨rfl, hcomma, hend⟩⟩ :=
    Cursor.separator_of_lexemes hm hlast
  · simp only [hplain, hcomma]
    exact reads_pure ⟨_, rfl, rfl⟩ hfinal
  · simp only [hplain, hcomma, hend]
    exact reads_pure ⟨_, rfl, rfl⟩ hfinal

/-- The entry without the places of what it declares. -/
def Entry.unplaced : Entry → Entry
  | .declaration decl => .declaration decl.unplaced
  | .uniforms list => .uniforms (list.map UniformDeclaration.unplaced)
  | entry => entry

/-- What the statement contributes. -/
def Grammar.Statement.entry (written : Statement) : Entry :=
  written.declaration?.elim (.uniforms written.uniforms) .declaration

theorem block_reads {layout : List LayoutEntry} {title : BlockTitle} {list : List TypedNames}
    {blockName : Option String} (hb : blockName = title.blockName?.map Subtype.val)
    (h : cursor.lexemes = list.flatMap TypedNames.lexemes ++ .punct '}' ::
      (title.instanceName?.toList.map (fun name => .word name) ++ .punct ';' :: behind)) :
    Reads (block scope .std140 start (layoutOf layout) [] blockName cursor)
      (fun entry => entry.unplaced = (Statement.block layout title list).entry) behind := by
  subst hb
  unfold block
  refine (members_reads h).bind fun fields last hfields hlast => ?_
  have hplain : ∀ {declaration field} {named : Cursor}, named.lexemes = .punct ';' :: behind →
      arrayLength scope declaration field named = pure (none, named) := fun hnamed =>
    arrayLength_of_not_bracket (Cursor.eat?_eq_none (by simp [hnamed]))
  have hname := title.or_instanceName?
  have hdone : ∀ {final : Cursor} {instanceName : Option String}, final.lexemes = behind →
      instanceName = title.instanceName?.map Subtype.val →
      Reads (pure (Entry.declaration
        { name := title.name
          kind := .uniformBlock (layoutOf layout).binding instanceName
            ((layoutOf layout).packing.getD .std140)
          fields, attributes := [], source := scope.locate start }, final))
        (fun entry => entry.unplaced = (Statement.block layout title list).entry) behind := by
    rintro final _ hfinal rfl
    apply reads_pure _ hfinal
    simp [Entry.unplaced, TypeDeclaration.unplaced, Statement.entry, Statement.declaration?, hfields]
  -- With an instance name or without one, the block is closed in the same way.
  cases hi : title.instanceName? with
  | none =>
    rw [hi] at hlast hname hdone
    rw [Option.map_none] at hname
    obtain ⟨final, hend, hfinal⟩ := Cursor.eat?_of_lexemes hlast
    simp only [Cursor.word?_eq_none hlast, hplain hlast, pure_bind, hend, hname,
      Option.isSome_none, Bool.false_eq_true, if_false]
    split
    · exact yields_note (hdone hfinal rfl)
    · exact hdone hfinal rfl
  | some instanceName =>
    rw [hi] at hlast hname hdone
    rw [Option.map_some] at hname
    obtain ⟨token, named, hword, hnamed⟩ := Cursor.word?_of_lexemes hlast
    obtain ⟨final, hend, hfinal⟩ := Cursor.eat?_of_lexemes hnamed
    simp only [hword, hplain hnamed, pure_bind, hend, hname, Option.isSome_none,
      Bool.false_eq_true, if_false]
    split
    · exact yields_note (hdone hfinal rfl)
    · exact hdone hfinal rfl

theorem uniformBody_reads_block {layout : List LayoutEntry} {title : BlockTitle}
    {list : List TypedNames}
    (h : cursor.lexemes = title.blockName?.toList.map (fun name => .word name) ++
      (membersLexemes list ++ (title.instanceName?.toList.map (fun name => .word name) ++
        .punct ';' :: behind))) :
    Reads (uniformBody scope .std140 start (layoutOf layout) [] cursor)
      (fun entry => entry.unplaced = (Statement.block layout title list).entry) behind := by
  obtain ⟨line, tokens⟩ := cursor
  simp only [membersLexemes, List.cons_append, List.append_assoc, List.nil_append] at h
  cases hb : title.blockName? with
  | none =>
    rw [hb] at h
    obtain ⟨brace, body, rfl, hbrace, hbody⟩ := List.map_eq_cons_iff.1 h
    simp only [uniformBody, hbrace]
    exact block_reads (by rw [hb]; rfl) hbody
  | some name =>
    rw [hb] at h
    obtain ⟨first, rest, rfl, hfirst, hrest⟩ := List.map_eq_cons_iff.1 h
    obtain ⟨brace, body, rfl, hbrace, hbody⟩ := List.map_eq_cons_iff.1 hrest
    simp only [uniformBody, hfirst, hbrace]
    exact block_reads (by rw [hb]; rfl) hbody

theorem uniformBody_reads_free {layout : List LayoutEntry} {names : TypedNames}
    (h : cursor.lexemes = .word names.typeName ::
      (listed (names.declarators.map Declarator.lexemes) ++ .punct ';' :: behind)) :
    Reads (uniformBody scope packing start (layoutOf layout) [] cursor)
      (fun entry => entry.unplaced = (Statement.free layout names).entry) behind := by
  obtain ⟨line, tokens⟩ := cursor
  obtain ⟨first, rest, rfl, hfirst, hrest⟩ := List.map_eq_cons_iff.1 h
  have hnames := hrest
  rw [TypedNames.declarators, List.map_cons, listed_cons, List.append_assoc] at hnames
  obtain ⟨second, tail, rfl, hsecond, -⟩ := List.map_eq_cons_iff.1 hnames
  have hloop : Reads (Cursor.loop (uniformDeclarator scope names.typeName (layoutOf layout) []) ()
      ⟨first.line, second :: tail⟩)
      (fun uniforms => uniforms.map UniformDeclaration.unplaced = names.uniforms (layoutOf layout))
      behind :=
    Cursor.loop_reads_listed (fun _ _ _ _ hm hc => uniformDeclarator_reads hm hc) names.first
      names.others hrest
  simp only [uniformBody, hfirst, hsecond]
  refine hloop.bind fun uniforms final huniforms hfinal => ?_
  exact reads_pure (congrArg Entry.uniforms huniforms) hfinal

/-- Behind an optional layout list and the word `uniform`, the reader goes on with what follows. -/
theorem uniformStatement_reads {layout : List LayoutEntry} {body : List Lexeme} {rest : List Token}
    {p : Entry → Prop}
    (h : (start :: rest).map Token.lexeme = layoutLexemes layout ++ .word "uniform" :: body)
    (hbody : ∀ cursor : Cursor, cursor.lexemes = body →
      Reads (uniformBody scope packing start (layoutOf layout) attributes cursor.skipQualifiers) p
        behind) :
    Reads (uniformStatement scope packing attributes start rest) p behind := by
  cases layout with
  | nil =>
    obtain ⟨hstart, hrest⟩ := List.cons.inj h
    have htext : start.text ≠ "layout" := by
      rw [Token.text, hstart]
      decide
    have hword : Cursor.word? ⟨start.line, start :: rest⟩ =
        some (start, "uniform", ⟨start.line, rest⟩) := by
      simp [Cursor.word?, hstart]
    simp only [uniformStatement, htext, if_false, pure_bind, hword]
    exact hbody _ hrest
  | cons first others =>
    simp only [layoutLexemes, List.cons_append, List.append_assoc, List.nil_append] at h
    obtain ⟨hstart, hrest⟩ := List.cons.inj h
    have htext : start.text = "layout" := by
      rw [Token.text, hstart]
      rfl
    simp only [uniformStatement, htext, if_true]
    have hlist : Cursor.lexemes ⟨start.line, rest⟩ = _ := hrest
    refine (LayoutList.read_reads hlist).bind ?_
    rintro list next rfl hnext
    obtain ⟨token, named, hword, hnamed⟩ := Cursor.word?_of_lexemes hnext
    simp only [hword]
    exact hbody named hnamed

theorem struct_reads {name : Name} {list : List TypedNames}
    (h : cursor.lexemes =
      list.flatMap TypedNames.lexemes ++ .punct '}' :: .punct ';' :: behind) :
    Reads (struct scope [] start name.val cursor)
      (fun entry => entry.unplaced = (Statement.struct name list).entry) behind := by
  unfold struct
  refine (members_reads h).bind fun fields last hfields hlast => ?_
  obtain ⟨final, hend, hfinal⟩ := Cursor.eat?_of_lexemes hlast
  simp only [hend, Option.getD_some]
  apply reads_pure _ hfinal
  simp [Entry.unplaced, TypeDeclaration.unplaced, Statement.entry, Statement.declaration?, hfields]

/-- No statement of the grammar sets the packing of later blocks. -/
theorem after_of_entry {written : Statement} {entry : Entry}
    (h : entry.unplaced = written.entry) : Pending.after {} entry = {} := by
  cases entry with
  | packing default => cases written <;> cases h
  | declaration decl => rfl
  | uniforms list => rfl
  | anonymous block => rfl
  | nothing => rfl

/-- The turn adds what the statement declares, and leaves nothing pending. -/
def Declares (written : Statement) (turn : Cursor.Turn Pending Entry) : Prop :=
  ∃ entry next, turn = .again entry next ∧ entry.unplaced = written.entry ∧ next = {}

theorem reads_declares {written : Statement} {x : Reading (Entry × Cursor)}
    (h : Reads x (fun entry => entry.unplaced = written.entry) behind) :
    Reads ((fun result : Entry × Cursor =>
      (Cursor.Turn.again result.1 (Pending.after {} result.1), result.2)) <$> x)
      (Declares written) behind := by
  refine Yields.map h ?_
  rintro ⟨entry, next⟩ ⟨hentry, hnext⟩
  exact ⟨⟨entry, _, rfl, hentry, after_of_entry hentry⟩, hnext⟩

theorem statement_reads_uniform {written : Statement} {layout : List LayoutEntry}
    {body : List Lexeme} (h : cursor.lexemes = layoutLexemes layout ++ .word "uniform" :: body)
    (hbody : ∀ (start : Token) (inner : Cursor), inner.lexemes = body →
      Reads (uniformBody scope .std140 start (layoutOf layout) [] inner.skipQualifiers)
        (fun entry => entry.unplaced = written.entry) behind) :
    Reads (statement scope {} cursor) (Declares written) behind := by
  obtain ⟨line, tokens⟩ := cursor
  cases tokens with
  | nil => cases layout <;> cases h
  | cons start rest =>
    have hread := reads_declares (uniformStatement_reads h (hbody start))
    cases layout with
    | nil =>
      have hstart : start.lexeme = .word "uniform" := (List.cons.inj h).1
      simp only [statement, hstart]
      exact hread
    | cons first others =>
      have hstart : start.lexeme = .word "layout" := (List.cons.inj h).1
      simp only [statement, hstart]
      exact hread

/-- A statement is read as what it declares. -/
theorem statement_reads {written : Statement} (h : cursor.lexemes = written.lexemes ++ behind) :
    Reads (statement scope {} cursor) (Declares written) behind := by
  cases written with
  | struct name list =>
    obtain ⟨line, tokens⟩ := cursor
    simp only [Statement.lexemes, membersLexemes, List.cons_append, List.append_assoc,
      List.nil_append] at h
    obtain ⟨keyword, rest, rfl, hkeyword, hrest⟩ := List.map_eq_cons_iff.1 h
    obtain ⟨title, rest, rfl, htitle, hrest⟩ := List.map_eq_cons_iff.1 hrest
    obtain ⟨brace, body, rfl, hbrace, hbody⟩ := List.map_eq_cons_iff.1 hrest
    simp only [statement, hkeyword, htitle, hbrace]
    exact reads_declares (struct_reads hbody)
  | block layout title list =>
    simp only [Statement.lexemes, List.cons_append, List.append_assoc, List.nil_append] at h
    refine statement_reads_uniform h fun start inner hinner => ?_
    apply uniformBody_reads_block
    apply Cursor.lexemes_skipQualifiers [] hinner
    intro text ht
    cases hb : title.blockName? with
    | none =>
      rw [hb] at ht
      cases ht
    | some name =>
      rw [hb] at ht
      obtain rfl := Lexeme.word.inj (Option.some.inj ht)
      exact name.not_idle
  | free layout names =>
    simp only [Statement.lexemes, TypedNames.lexemes, List.cons_append, List.append_assoc,
      List.nil_append] at h
    refine statement_reads_uniform h fun start inner hinner => ?_
    apply uniformBody_reads_free
    apply Cursor.lexemes_skipQualifiers names.qualifiers hinner
    intro text ht
    obtain rfl := Lexeme.word.inj (Option.some.inj ht)
    exact names.typeName.not_idle

end Statements

/-! ## Sources -/

/-- All statements of a source are read, one after the other. -/
theorem entries_written {statements : List Statement} {key text : String}
    (h : (tokensOf (items (stripComments text.toList))).map Token.lexeme =
      statements.flatMap Statement.lexemes) :
    (SourceContents.entries key text).Yields fun entries =>
      entries.map Entry.unplaced = statements.map Statement.entry := by
  have hstart : Cursor.lexemes ⟨0, tokensOf (items (stripComments text.toList))⟩ =
      statements.flatMap Statement.lexemes ++ [] := by
    rw [List.append_nil]
    exact h
  have hsome : ∀ written : Statement, written.lexemes ≠ [] := by
    intro written
    cases written <;> simp [Statement.lexemes]
  have hdone : ∀ (scope : Scope) (pending : Pending) (cursor : Cursor), pending = {} →
      cursor.lexemes = [] → Reads (statement scope pending cursor) (· = .done) [] := by
    rintro scope pending ⟨line, tokens⟩ rfl hnil
    obtain rfl := List.map_eq_nil_iff.1 hnil
    exact reads_pure rfl rfl
  unfold SourceContents.entries
  have hloop := Cursor.loop_reads_groups (P := fun pending : Pending => pending = {})
    (fun written pending cursor after hp hc => by
      subst hp
      exact statement_reads hc)
    hsome (hdone ⟨key, Constants.ofItems (items (stripComments text.toList))⟩) statements rfl hstart
  refine Yields.bind hloop ?_
  rintro ⟨entries, final⟩ ⟨hentries, -⟩
  exact yields_pure hentries

theorem exists_of_unplaced_declaration {entry : Entry} {declared : TypeDeclaration}
    (h : entry.unplaced = .declaration declared) :
    ∃ decl, entry = .declaration decl ∧ decl.unplaced = declared := by
  cases entry with
  | declaration decl => exact ⟨decl, rfl, Entry.declaration.inj h⟩
  | uniforms list => cases h
  | anonymous block => cases h
  | packing default => cases h
  | nothing => cases h

theorem exists_of_unplaced_uniforms {entry : Entry} {declared : List UniformDeclaration}
    (h : entry.unplaced = .uniforms declared) :
    ∃ list, entry = .uniforms list ∧ list.map UniformDeclaration.unplaced = declared := by
  cases entry with
  | declaration decl => cases h
  | uniforms list => exact ⟨list, rfl, Entry.uniforms.inj h⟩
  | anonymous block => cases h
  | packing default => cases h
  | nothing => cases h

/-- The contents without places of entries that were written. -/
theorem ofEntries_written {key : String} {warnings : List SourceWarning}
    {statements : List Statement} {entries : List Entry}
    (h : entries.map Entry.unplaced = statements.map Statement.entry) :
    (SourceContents.ofEntries key entries warnings).declarations.map TypeDeclaration.unplaced =
        statements.filterMap Statement.declaration? ∧
      (SourceContents.ofEntries key entries warnings).uniforms.map UniformDeclaration.unplaced =
        statements.flatMap Statement.uniforms ∧
      (SourceContents.ofEntries key entries warnings).anonymousBlocks = [] := by
  unfold SourceContents.ofEntries
  dsimp only
  induction statements generalizing entries with
  | nil =>
    obtain rfl := List.map_eq_nil_iff.1 h
    exact ⟨rfl, rfl, rfl⟩
  | cons written statements ih =>
    obtain ⟨entry, entries, rfl, hentry, hrest⟩ := List.map_eq_cons_iff.1 h
    obtain ⟨hdecls, huniforms, hnone⟩ := ih hrest
    cases hd : written.declaration? with
    | none =>
      rw [Statement.entry, hd] at hentry
      obtain ⟨list, rfl, hlist⟩ := exists_of_unplaced_uniforms hentry
      simp [hd, hdecls, huniforms, hnone, hlist]
    | some declared =>
      rw [Statement.entry, hd] at hentry
      obtain ⟨decl, rfl, hdecl⟩ := exists_of_unplaced_declaration hentry
      simp [hd, hdecls, huniforms, hnone, hdecl, Statement.uniforms_of_declaration hd]

end Source

open Source Grammar

/-- A source that is written by the grammar is read without a failure, and what it declares is what was
written, in the same order. -/
theorem read_written (key : String) {statements : List Statement} {script : Script}
    (h : script.lexemes = statements.flatMap Statement.lexemes) :
    ∃ contents, (SourceContents.read key (String.ofList script.text)).result = .ok contents ∧
      contents.declarations.map TypeDeclaration.unplaced =
        statements.filterMap Statement.declaration? ∧
      contents.uniforms.map UniformDeclaration.unplaced =
        statements.flatMap Statement.uniforms ∧
      contents.anonymousBlocks = [] := by
  have hproper : ∀ lexeme ∈ script.lexemes, lexeme.Proper := by
    intro lexeme hm
    rw [h] at hm
    obtain ⟨written, -, hm⟩ := List.mem_flatMap.1 hm
    exact written.proper lexeme hm
  have hlexemes : (tokensOf (items (stripComments (String.ofList script.text).toList))).map
      Token.lexeme = statements.flatMap Statement.lexemes := by
    rw [String.toList_ofList, ← h]
    exact Script.lexesTo hproper _ _ _ _
  obtain ⟨entries, hread, hentries⟩ := @entries_written _ key _ hlexemes
  refine ⟨SourceContents.ofEntries key entries
    (warningsOf (SourceContents.entries key (String.ofList script.text)).notices), ?_,
    ofEntries_written hentries⟩
  simp only [SourceContents.read, hread]
  rfl

section Example

/-- A block with a slot of its own, and two free uniforms. -/
def lampStatements : List Statement :=
  [.block [.binding { value := 2, fits := by decide, unsigned := by decide }]
      (.both ⟨"Lamp", by decide⟩ ⟨"lamp", by decide⟩)
      [{ qualifiers := [⟨"lowp", by decide⟩]
         typeName := ⟨"vec3", by decide⟩
         first :=
          { name := ⟨"tint", by decide⟩
            length := some
              { value := 4, suffix := ['u'], fits := by decide, unsigned := by decide,
                positive := by decide } } }],
    .free []
      { typeName := ⟨"float", by decide⟩
        first := { name := ⟨"gain", by decide⟩ }
        others := [{ name := ⟨"dim", by decide⟩ }] }]

/-- The source writes a space in front of the words that need one, and two comments. -/
def lampScript : Script where
  pieces :=
    let space : List Filler := [.blank ' ' rfl]
    [⟨[], .word "layout"⟩, ⟨[], .punct '('⟩, ⟨[], .word "binding"⟩, ⟨[], .punct '='⟩,
      ⟨[], .number "2"⟩, ⟨[], .punct ')'⟩, ⟨[], .word "uniform"⟩, ⟨space, .word "Lamp"⟩,
      ⟨[], .punct '{'⟩, ⟨[.block "warm".toList (by decide)], .word "lowp"⟩,
      ⟨space, .word "vec3"⟩, ⟨space, .word "tint"⟩, ⟨[], .punct '['⟩, ⟨[], .number "4u"⟩,
      ⟨[], .punct ']'⟩, ⟨[], .punct ';'⟩, ⟨[], .punct '}'⟩, ⟨[], .word "lamp"⟩,
      ⟨[], .punct ';'⟩, ⟨[.line "free".toList (by decide)], .word "uniform"⟩,
      ⟨space, .word "float"⟩, ⟨space, .word "gain"⟩, ⟨[], .punct ','⟩, ⟨[], .word "dim"⟩,
      ⟨[], .punct ';'⟩]
  apart := by decide

theorem read_written_lamp :
    lampScript.lexemes = lampStatements.flatMap Statement.lexemes ∧
      ∃ contents, (SourceContents.read "lamp.glsl" (String.ofList lampScript.text)).result =
          .ok contents ∧
        contents.declarations.map TypeDeclaration.unplaced =
          [{ name := "Lamp"
             kind := .uniformBlock (some 2) (some "lamp") .std140
             fields := [{ typeName := "vec3", name := "tint", arrayLength := some 4 }] }] ∧
        contents.uniforms.map UniformDeclaration.unplaced =
          [{ typeName := "float", name := "gain", arrayLength := none, qualifiers := {},
             attributes := [], source := {} },
            { typeName := "float", name := "dim", arrayLength := none, qualifiers := {},
              attributes := [], source := {} }] ∧
        contents.anonymousBlocks = [] := by
  have hwritten : lampScript.lexemes = lampStatements.flatMap Statement.lexemes := by decide
  exact ⟨hwritten, read_written "lamp.glsl" hwritten⟩

end Example

end UniformLayout
