import UniformLayout.Proofs.Source.Constants
import UniformLayout.Proofs.Source.Heads
import UniformLayout.Proofs.Source.Recognition

/-!
# Initialisers of free uniforms

What a uniform is initialised with is passed over, so it does not change what is read; as long as no
comma stands in it, which the reader takes for the end of the initialiser even between brackets.

* `FreeDeclarator`: the tokens up to the end of a declarator of free uniforms.
* `uniformStatement_same`: a statement is read alike with one initialiser or another.

Main statement: `read_reinitialised`.
-/

namespace UniformLayout

namespace Source

open Logged

variable {scope : Scope} {line : Nat} {front rest : List Token}

/-! ## Declarators -/

/-- What stands between a declarator and the mark behind it: nothing, or an equals sign and an
expression. -/
def IsInitialiser (tokens : List Token) : Prop :=
  tokens = [] ∨ ∃ sign value, tokens = sign :: value ∧ sign.lexeme = .punct '=' ∧
    Expression (value.map Token.lexeme)

namespace IsInitialiser

variable {tokens : List Token}

theorem ne_semicolon (h : IsInitialiser tokens) : ∀ token ∈ tokens, token.lexeme ≠ .punct ';' := by
  rcases h with rfl | ⟨sign, value, rfl, hsign, hvalue⟩
  · simp
  · exact List.forall_mem_cons.2
      ⟨by simp [hsign], fun token ht => hvalue.ne_semicolon _ (List.mem_map_of_mem ht)⟩

theorem ne_const (h : IsInitialiser tokens) : ∀ token ∈ tokens, token.text ≠ "const" := by
  rcases h with rfl | ⟨sign, value, rfl, hsign, hvalue⟩
  · simp
  · exact List.forall_mem_cons.2 ⟨Constants.text_ne_of_punct hsign (by decide),
      fun token ht => hvalue.ne_const _ (List.mem_map_of_mem ht)⟩

theorem depth_eq (h : IsInitialiser tokens) (groups : Nat) :
    depth groups (tokens.map Token.lexeme) = groups := by
  rcases h with rfl | ⟨sign, value, rfl, hsign, hvalue⟩
  · rfl
  · have hdepth := hvalue.depth_append groups []
    rw [List.append_nil] at hdepth
    rw [List.map_cons, hsign, depth_plain (by simp) (by simp), hdepth, depth_nil]

end IsInitialiser

/-- Array lengths behind a type or a name. -/
inductive AreLengths : List Token → Prop
  | nil : AreLengths []
  | bracketed {opening closing : Token} {inner rest : List Token} : opening.lexeme = .punct '[' →
      closing.lexeme = .punct ']' → Expression (inner.map Token.lexeme) → AreLengths rest →
        AreLengths (opening :: (inner ++ closing :: rest))

namespace AreLengths

variable {tokens : List Token}

theorem ne_semicolon (h : AreLengths tokens) : ∀ token ∈ tokens, token.lexeme ≠ .punct ';' := by
  induction h with
  | nil => simp
  | bracketed hopening hclosing hinner _ ih =>
    simp only [List.mem_cons, List.mem_append]
    rintro token (rfl | ht | rfl | ht)
    · simp [hopening]
    · exact hinner.ne_semicolon _ (List.mem_map_of_mem ht)
    · simp [hclosing]
    · exact ih token ht

theorem last (h : AreLengths tokens) :
    tokens = [] ∨ ∃ front closing, tokens = front ++ [closing] ∧ closing.lexeme = .punct ']' := by
  induction h with
  | nil => exact Or.inl rfl
  | @bracketed opening closing inner rest hopening hclosing hinner _ ih =>
    rcases ih with rfl | ⟨front, last, rfl, hlast⟩
    · exact Or.inr ⟨opening :: inner, closing, rfl, hclosing⟩
    · exact Or.inr ⟨opening :: (inner ++ closing :: front), last, by simp, hlast⟩

end AreLengths

/-- A statement up to the type of its uniforms: the word of uniforms, or a `layout(...)` list with
qualifiers in front of that word; and other qualifiers behind it. -/
inductive Header : List Token → Prop
  | bare {uniform : Token} {behind : List Token} : uniform.lexeme = .word "uniform" →
      (∀ token ∈ behind, isIdle token.lexeme) → Header (uniform :: behind)
  | listed {layout opening closing uniform : Token} {inner between behind : List Token} :
    layout.lexeme = .word "layout" → opening.lexeme = .punct '(' → closing.lexeme = .punct ')' →
      Expression (inner.map Token.lexeme) → (∀ token ∈ between, isIdle token.lexeme) →
        uniform.lexeme = .word "uniform" → (∀ token ∈ behind, isIdle token.lexeme) →
          Header (layout :: opening :: (inner ++ closing :: (between ++ uniform :: behind)))

/-- The tokens of a source up to the end of a declarator of free uniforms. -/
structure FreeDeclarator where
  before : List Token
  header : List Token
  type : Token
  typeLengths : List Token
  earlier : List Token
  name : Token
  lengths : List Token
  outer : Outer before
  heads : Header header
  typed : (∃ text, type.lexeme = .word text) ∧ ¬ isIdle type.lexeme
  typeSized : AreLengths typeLengths
  listed : AreEarlier earlier
  named : ∃ text, name.lexeme = .word text
  sized : AreLengths lengths

namespace FreeDeclarator

/-- The statement's tokens behind its header. -/
def names (declarator : FreeDeclarator) : List Token :=
  declarator.type :: (declarator.typeLengths ++ (declarator.earlier ++
    declarator.name :: declarator.lengths))

def tokens (declarator : FreeDeclarator) : List Token :=
  declarator.before ++ (declarator.header ++ declarator.names)

theorem names_ne_semicolon (declarator : FreeDeclarator) :
    ∀ token ∈ declarator.names, token.lexeme ≠ .punct ';' := by
  obtain ⟨typeText, htype⟩ := declarator.typed.1
  obtain ⟨nameText, hname⟩ := declarator.named
  simp only [names, List.mem_cons, List.mem_append]
  rintro token (rfl | ht | ht | rfl | ht)
  · simp [htype]
  · exact declarator.typeSized.ne_semicolon token ht
  · rcases declarator.listed with hnil | ⟨hlisted, -⟩
    · simp [hnil] at ht
    · exact hlisted.plain token ht
  · simp [hname]
  · exact declarator.sized.ne_semicolon token ht

end FreeDeclarator

/-! ## The end of a declarator -/

/-- What follows a declarator: an initialiser without commas, a comma or semicolon on a line, and other
tokens. -/
def EndsIn (mark : Char) (line : Nat) (after rest : List Token) : Prop :=
  ∃ init ending, rest = init ++ ending :: after ∧ IsInitialiser init ∧
    (∀ token ∈ init, token.lexeme ≠ .punct ',') ∧ ending.lexeme = .punct mark ∧ ending.line = line

namespace EndsIn

variable {mark : Char} {after : List Token}

/-- The mark behind the initialiser, if that is passed over. -/
theorem skipInitialiser (hm : mark = ',' ∨ mark = ';') (h : EndsIn mark line after rest)
    (start : Nat) : ∃ ending start', Source.skipInitialiser ⟨start, rest⟩ = ⟨start', ending :: after⟩ ∧
      ending.lexeme = .punct mark ∧ ending.line = line := by
  obtain ⟨init, ending, rfl, hinit, hcommas, hending, hline⟩ := h
  rcases hinit with rfl | ⟨sign, value, rfl, hsign, hvalue⟩
  · refine ⟨ending, start, ?_, hending, hline⟩
    have hne : mark ≠ '=' := by rcases hm with rfl | rfl <;> decide
    simp [Source.skipInitialiser, Cursor.eat?, hending, hne]
  · obtain ⟨-, hcommas⟩ := List.forall_mem_cons.1 hcommas
    refine ⟨ending, lineAfter sign.line value, ?_, hending, hline⟩
    have hpass : ∀ token ∈ value,
        decide (token.lexeme ≠ .punct ',' ∧ token.lexeme ≠ .punct ';') = true := fun token ht =>
      decide_eq_true ⟨hcommas token ht, hvalue.ne_semicolon _ (List.mem_map_of_mem ht)⟩
    have hstop : decide (ending.lexeme ≠ .punct ',' ∧ ending.lexeme ≠ .punct ';') = false := by
      rcases hm with rfl | rfl <;> simp [hending]
    simp only [Source.skipInitialiser, Cursor.eat?, List.cons_append, hsign, if_true]
    rw [skipWhile_passes hpass, Cursor.skipWhile, hstop]
    rfl

/-- The first token behind the declarator. -/
theorem head (hm : mark = ',' ∨ mark = ';') (h : EndsIn mark line after rest) :
    ∃ c ∈ ['=', ',', ';'], (rest.map Token.lexeme).head? = some (.punct c) := by
  obtain ⟨init, ending, rfl, hinit, -, hending, -⟩ := h
  rcases hinit with rfl | ⟨sign, value, rfl, hsign, -⟩
  · refine ⟨mark, ?_, by simp [hending]⟩
    rcases hm with rfl | rfl <;> decide
  · exact ⟨'=', by decide, by simp [hsign]⟩

/-- A statement that is skipped ends in one place. -/
theorem skipStatement (hm : mark = ',' ∨ mark = ';') (h : EndsIn mark line after rest)
    (groups start : Nat) : Cursor.skipStatement groups start rest =
      if mark = ';' ∧ groups = 0 then ⟨line, after⟩ else Cursor.skipStatement groups line after := by
  obtain ⟨init, ending, rfl, hinit, -, hending, rfl⟩ := h
  have hplain : ∀ c ∈ ['{', '}'], ending.lexeme ≠ .punct c := by
    rw [hending]
    rcases hm with rfl | rfl <;> decide
  rw [skipStatement_passes hinit.ne_semicolon, hinit.depth_eq,
    skipStatement_plain _ _ (hplain _ (by decide)) (hplain _ (by decide)), hending]
  simp

/-- No constant is defined up to the mark. -/
theorem ofStatements (h : EndsIn mark line after rest) :
    Constants.ofStatements rest = Constants.ofStatements after := by
  obtain ⟨init, ending, rfl, hinit, -, hending, -⟩ := h
  have hconst : ∀ token ∈ init ++ [ending], token.text ≠ "const" := by
    intro token ht
    rcases List.mem_append.1 ht with ht | ht
    · exact hinit.ne_const token ht
    · rw [List.mem_singleton.1 ht]
      exact Constants.text_ne_of_punct hending (by decide)
  have happend := Constants.ofStatements_append_of_ne_const hconst after
  rwa [List.append_assoc] at happend

end EndsIn

/-! ## Array lengths -/

/-- Behind the number in brackets the length ends, or the brackets hold more than a number. -/
theorem lengthOf_cases {inner others : List Token} {closing : Token}
    (hinner : Expression (inner.map Token.lexeme)) (hclosing : closing.lexeme = .punct ']')
    (hothers : AreLengths others) (declaration field text : String) (line : Nat) :
    (∃ e, ∀ rest, (rest.map Token.lexeme).head? ≠ some (.punct '[') →
        lengthOf scope declaration field ⟨line, inner ++ closing :: (others ++ rest)⟩ text =
          ⟨[], .error e⟩) ∨
      ∃ length line', ∀ rest, (rest.map Token.lexeme).head? ≠ some (.punct '[') →
        lengthOf scope declaration field ⟨line, inner ++ closing :: (others ++ rest)⟩ text =
          ⟨[], .ok (length, ⟨line', rest⟩)⟩ := by
  unfold lengthOf
  cases scope.constants.resolve? text with
  | none =>
    exact Or.inl ⟨.malformedDeclaration scope.file line declaration (.unknownLength text field),
      fun rest _ => rfl⟩
  | some length =>
    unfold lengthEnd
    cases inner with
    | cons first inner =>
      have hfirst : first.lexeme ≠ .punct ']' := by
        rw [List.map_cons] at hinner
        rcases hinner.cons_cases with ⟨ho, -⟩ | ⟨c, hc, hopen⟩
        · exact ho.1 _ (by decide)
        · rw [hopen]
          rintro heq
          rw [Lexeme.punct.inj heq] at hc
          revert hc
          decide
      refine Or.inl ⟨.malformedDeclaration scope.file line declaration (.compoundLength field),
        fun rest _ => ?_⟩
      simp [Cursor.eat?, hfirst]
      rfl
    | nil =>
      by_cases hzero : length = 0
      · refine Or.inl ⟨.malformedDeclaration scope.file closing.line declaration (.zeroLength field),
          fun rest _ => ?_⟩
        simp [Cursor.eat?, hclosing, hzero]
        rfl
      · cases hothers with
        | nil =>
          refine Or.inr ⟨some length, closing.line, fun rest hr => ?_⟩
          have hpeek : (Cursor.mk closing.line rest).peek? ≠ some (.punct '[') := by
            rwa [Cursor.peek?, ← List.head?_map]
          simp [Cursor.eat?, hclosing, hzero, hpeek]
        | bracketed hopening _ _ _ =>
          refine Or.inl ⟨.malformedDeclaration scope.file closing.line declaration
            (.nestedLength field), fun rest _ => ?_⟩
          simp [Cursor.eat?, hclosing, hzero, Cursor.peek?, hopening]
          rfl

theorem arrayLength_bracket {opening : Token} (h : opening.lexeme = .punct '[') (first : Token)
    (declaration field : String) (line : Nat) (inside : List Token) :
    arrayLength scope declaration field ⟨line, opening :: first :: inside⟩ =
      match first.lexeme with
      | .punct c => scope.malformed ⟨first.line, inside⟩ declaration
          (if c = ']' then .missingLength field else .symbolicLength field)
      | .word text | .number text =>
        lengthOf scope declaration field ⟨first.line, inside⟩ text := by
  rw [arrayLength_eq]
  cases hf : first.lexeme <;> simp only [Cursor.eat?, h, if_true, Cursor.next?, hf]

/-- Array lengths are read in the same way whatever follows them, if that is no bracket. -/
theorem arrayLength_cases {lengths : List Token} (hl : AreLengths lengths)
    (declaration field : String) (line : Nat) :
    (∃ e, ∀ rest, (rest.map Token.lexeme).head? ≠ some (.punct '[') →
        arrayLength scope declaration field ⟨line, lengths ++ rest⟩ = ⟨[], .error e⟩) ∨
      ∃ length line', ∀ rest, (rest.map Token.lexeme).head? ≠ some (.punct '[') →
        arrayLength scope declaration field ⟨line, lengths ++ rest⟩ =
          ⟨[], .ok (length, ⟨line', rest⟩)⟩ := by
  cases hl with
  | nil =>
    exact Or.inr ⟨none, line, fun rest hr => arrayLength_of_not_bracket (Cursor.eat?_eq_none hr)⟩
  | @bracketed opening closing inner others hopening hclosing hinner hothers =>
    cases inner with
    | nil =>
      refine Or.inl ⟨.malformedDeclaration scope.file closing.line declaration (.missingLength field),
        fun rest _ => ?_⟩
      simp only [List.nil_append, List.cons_append, arrayLength_bracket hopening, hclosing]
      rfl
    | cons first inner =>
      simp only [List.cons_append, List.append_assoc, arrayLength_bracket hopening]
      rw [List.map_cons] at hinner
      rcases hinner.cons_cases with ⟨-, hrest⟩ | ⟨c, -, hopen⟩
      · cases first.lexeme with
        | punct c =>
          exact Or.inl ⟨.malformedDeclaration scope.file first.line declaration
            (if c = ']' then .missingLength field else .symbolicLength field), fun rest _ => rfl⟩
        | word text => exact lengthOf_cases hrest hclosing hothers declaration field text first.line
        | number text =>
          exact lengthOf_cases hrest hclosing hothers declaration field text first.line
      · rw [hopen]
        exact Or.inl ⟨.malformedDeclaration scope.file first.line declaration
          (if c = ']' then .missingLength field else .symbolicLength field), fun rest _ => rfl⟩

/-! ## Statements -/

section Same

variable {mark : Char} {after rest' : List Token} (hm : mark = ',' ∨ mark = ';')
  (h : EndsIn mark line after rest) (h' : EndsIn mark line after rest')

include hm h h'

/-- A declarator is read alike with one initialiser or another. -/
theorem uniformDeclarator_same (typeName : String) (layout : LayoutList)
    (attributes : List Attribute) (start : Nat) {name : Token} {lengths : List Token}
    (hname : ∃ text, name.lexeme = .word text) (hl : AreLengths lengths) :
    uniformDeclarator scope typeName layout attributes () ⟨start, name :: (lengths ++ rest)⟩ =
      uniformDeclarator scope typeName layout attributes () ⟨start, name :: (lengths ++ rest')⟩ := by
  obtain ⟨text, hname⟩ := hname
  have hplain : ∀ {rest : List Token}, EndsIn mark line after rest →
      (rest.map Token.lexeme).head? ≠ some (.punct '[') := by
    intro rest h
    obtain ⟨c, hc, hfirst⟩ := h.head hm
    rw [hfirst]
    rintro heq
    obtain rfl := Lexeme.punct.inj (Option.some.inj heq)
    revert hc
    decide
  unfold uniformDeclarator
  simp only [Cursor.word?, hname]
  rcases arrayLength_cases hl text text name.line with ⟨e, hread⟩ | ⟨length, line', hread⟩
  · rw [hread rest (hplain h), hread rest' (hplain h')]
  · rw [hread rest (hplain h), hread rest' (hplain h'), bind_ok, bind_ok]
    obtain ⟨ending, start₁, hskip, hending, hline⟩ := h.skipInitialiser hm line'
    obtain ⟨ending', start₂, hskip', hending', hline'⟩ := h'.skipInitialiser hm line'
    dsimp only
    rw [hskip, hskip']
    rcases hm with rfl | rfl <;> simp [Cursor.eat?, hending, hending', hline, hline']

variable (hmarks : NoNumber delimiters scope) (declarator : FreeDeclarator)

include hmarks

theorem declarators_same (typeName : String) (layout : LayoutList) (attributes : List Attribute)
    (start : Nat) :
    Cursor.loop (uniformDeclarator scope typeName layout attributes) ()
        ⟨start, declarator.earlier ++ declarator.name :: (declarator.lengths ++ rest)⟩ =
      Cursor.loop (uniformDeclarator scope typeName layout attributes) ()
        ⟨start, declarator.earlier ++ declarator.name :: (declarator.lengths ++ rest')⟩ := by
  have hearlier : declarator.earlier = [] ∨ Listed declarator.earlier :=
    declarator.listed.imp_right And.left
  have hlast : ∀ start, Cursor.loop (uniformDeclarator scope typeName layout attributes) ()
        ⟨start, declarator.name :: (declarator.lengths ++ rest)⟩ =
      Cursor.loop (uniformDeclarator scope typeName layout attributes) ()
        ⟨start, declarator.name :: (declarator.lengths ++ rest')⟩ := fun start =>
    loop_congr (uniformDeclarator_same hm h h' typeName layout attributes start declarator.named
      declarator.sized) (uniformDeclarator_turns typeName layout attributes _)
      (uniformDeclarator_turns typeName layout attributes _)
  have harrives : Arrives (uniformDeclarator scope typeName layout attributes) (fun _ => True) ()
      start declarator.earlier := by
    rw [← List.append_nil declarator.earlier]
    exact arrives_of_advances (Listed.advances (hmarks.mono (by decide)) typeName layout attributes)
      (fun state line => arrives_nil state line) hearlier () start
  rcases harrives with ⟨notices, e, hfail⟩ | ⟨notices, items, _, line', hread⟩
  · rw [hfail _ trivial, hfail _ trivial]
  · rw [hread _ trivial, hread _ trivial, hlast]

/-- What follows the word `uniform` is read alike. -/
theorem uniformBody_same (packing : Packing) (start : Token) (layout : LayoutList)
    (attributes : List Attribute) (line₀ : Nat) :
    uniformBody scope packing start layout attributes ⟨line₀, declarator.names ++ rest⟩ =
      uniformBody scope packing start layout attributes ⟨line₀, declarator.names ++ rest'⟩ := by
  obtain ⟨typeName, htype⟩ := declarator.typed.1
  have hloop := declarators_same hm h h' hmarks declarator typeName layout attributes
  simp only [FreeDeclarator.names, List.cons_append, List.append_assoc]
  rcases hlengths : declarator.typeLengths with _ | ⟨opening, lengths⟩
  · obtain ⟨second, others, text, hsecond, hword⟩ : ∃ second others text,
        (∀ rest, declarator.earlier ++ declarator.name :: (declarator.lengths ++ rest) =
          second :: (others ++ rest)) ∧ second.lexeme = .word text := by
      obtain ⟨text, hname⟩ := declarator.named
      rcases declarator.listed with hnil | ⟨-, first, others, text, hearlier, hfirst⟩
      · exact ⟨declarator.name, declarator.lengths, text, by simp [hnil], hname⟩
      · exact ⟨first, others ++ declarator.name :: declarator.lengths, text, by simp [hearlier],
          hfirst⟩
    rw [List.nil_append, List.nil_append]
    have hloop := hloop declarator.type.line
    simp only [hsecond] at hloop ⊢
    unfold uniformBody
    simp only [htype, hword, hloop]
  · have hopening : opening.lexeme = .punct '[' := by
      have hsized := declarator.typeSized
      rw [hlengths] at hsized
      cases hsized with
      | bracketed ho _ _ _ => exact ho
    unfold uniformBody
    simp [htype, hopening]
    rfl

/-- A statement is read alike with one initialiser or another. -/
theorem uniformStatement_same (packing : Packing) (attributes : List Attribute) {first : Token}
    {others : List Token} (hheader : declarator.header = first :: others) :
    uniformStatement scope packing attributes first (others ++ (declarator.names ++ rest)) =
      uniformStatement scope packing attributes first (others ++ (declarator.names ++ rest')) := by
  have hbody := uniformBody_same hm h h' hmarks declarator packing first
  have hidle : ∀ {behind : List Token} (line₀ : Nat) (rest : List Token),
      (∀ token ∈ behind, isIdle token.lexeme) →
        Cursor.skipQualifiers ⟨line₀, behind ++ (declarator.names ++ rest)⟩ =
          ⟨lineAfter line₀ behind, declarator.names ++ rest⟩ :=
    fun line₀ rest hbehind => skipQualifiers_passes hbehind declarator.typed.2 line₀ _
  have hheads := declarator.heads
  rw [hheader] at hheads
  cases hheads with
  | bare hu hbehind =>
    rw [uniformStatement_uniform _ _ _ hu, uniformStatement_uniform _ _ _ hu, hidle _ _ hbehind,
      hidle _ _ hbehind, hbody]
  | @listed _ opening closing uniform inner between behind hl hopening hclosing hinner hbetween hu
      hbehind =>
    rw [uniformStatement_layout _ _ _ hl, uniformStatement_layout _ _ _ hl]
    simp only [List.cons_append, List.append_assoc]
    rcases LayoutList.read_cases (hmarks.mono (by decide)) hopening hclosing hinner "layout" first.line with
      ⟨notices, e, hfail⟩ | ⟨notices, list, line', hread⟩
    · rw [hfail, hfail]
    · rw [hread, hread, bind_ok, bind_ok]
      dsimp only
      cases between with
      | nil =>
        rw [List.nil_append, List.nil_append, statementBody_uniform _ _ _ _ _ _ hu,
          statementBody_uniform _ _ _ _ _ _ hu, hidle _ _ hbehind, hidle _ _ hbehind, hbody]
      | cons qualifier between =>
        have hother : qualifier.lexeme ≠ .word "uniform" := by
          have hq := hbetween qualifier (by simp)
          rintro heq
          rw [heq] at hq
          revert hq
          decide
        have hpass : ∀ token ∈ qualifier :: (between ++ uniform :: (behind ++ declarator.names)),
            token.lexeme ≠ .punct ';' := by
          have hq : ∀ {token : Token}, isIdle token.lexeme → token.lexeme ≠ .punct ';' := by
            intro token hi heq
            rw [heq] at hi
            cases hi
          simp only [List.mem_cons, List.mem_append]
          rintro token (rfl | ht | rfl | ht | ht)
          · exact hq (hbetween token (by simp))
          · exact hq (hbetween token (by simp [ht]))
          · simp [hu]
          · exact hq (hbehind token ht)
          · exact declarator.names_ne_semicolon token ht
        have hskip := fun rest => skipStatement_passes hpass 0 line' rest
        simp only [List.cons_append, List.append_assoc] at hskip ⊢
        rw [statementBody_other _ _ _ _ _ _ hother, statementBody_other _ _ _ _ _ _ hother, hskip,
          hskip, h.skipStatement hm, h'.skipStatement hm]

end Same

/-! ## Sources -/

theorem Header.starts {header : List Token} (h : Header header) :
    ∃ first others, header = first :: others ∧
      (first.lexeme = .word "layout" ∨ first.lexeme = .word "uniform") := by
  cases h with
  | bare hu _ => exact ⟨_, _, rfl, Or.inr hu⟩
  | listed hl _ _ _ _ _ _ => exact ⟨_, _, rfl, Or.inl hl⟩

/-- The last token in front of a type is the word of uniforms or a qualifier. -/
theorem Header.last {header : List Token} (h : Header header) : ∃ front last, header = front ++ [last] ∧
    ∃ text ∈ "uniform" :: Cursor.idleQualifiers, last.lexeme = .word text := by
  have hbehind : ∀ {uniform : Token} {behind : List Token}, uniform.lexeme = .word "uniform" →
      (∀ token ∈ behind, isIdle token.lexeme) → ∃ front last, uniform :: behind = front ++ [last] ∧
        ∃ text ∈ "uniform" :: Cursor.idleQualifiers, last.lexeme = .word text := by
    intro uniform behind hu hb
    rcases List.eq_nil_or_concat behind with rfl | ⟨front, last, rfl⟩
    · exact ⟨[], uniform, rfl, "uniform", by simp, hu⟩
    · obtain ⟨text, ht, hl⟩ := isIdle_iff.1 (hb last (by simp))
      exact ⟨uniform :: front, last, by simp, text, List.mem_cons_of_mem _ ht, hl⟩
  cases h with
  | bare hu hb => exact hbehind hu hb
  | @listed layout opening closing uniform inner between behind _ _ _ _ _ hu hb =>
    obtain ⟨front, last, hlast, hword⟩ := hbehind hu hb
    exact ⟨layout :: opening :: (inner ++ closing :: (between ++ front)), last, by simp [hlast], hword⟩

namespace FreeDeclarator

variable (declarator : FreeDeclarator)

/-- The statement is one whatever stands in front of it. -/
theorem ready (rest : List Token) : Ready (declarator.header ++ (declarator.names ++ rest)) := by
  obtain ⟨text, htype⟩ := declarator.typed.1
  have hheads := declarator.heads
  generalize declarator.header = header at hheads
  cases hheads with
  | @bare uniform behind hu hb =>
    cases behind with
    | nil => exact ⟨_, _, _, rfl, ⟨_, hu⟩, by simp [htype]⟩
    | cons first behind =>
      refine ⟨_, _, _, rfl, ⟨_, hu⟩, fun heq => ?_⟩
      have hidle := hb first (by simp)
      rw [heq] at hidle
      cases hidle
  | listed hl hopening _ _ _ _ _ => exact ⟨_, _, _, rfl, ⟨_, hl⟩, by simp [hopening]⟩

/-- A definition of a constant that starts in front of what follows the declarator ends there. -/
theorem parts : ∃ front mark between, declarator.tokens = front ++ mark :: between ∧
    mark.text ≠ "const" ∧ between.length ≤ 2 ∧
      ∀ rest c, (rest.map Token.lexeme).head? = some (.punct c) →
        Constants.Parts mark (between ++ rest) := by
  have hmark : ∀ {mark : Token} {c : Char} (between : List Token), mark.lexeme = .punct c →
      c ∉ ['=', ';'] → mark.text ≠ "const" ∧ ∀ rest, Constants.Parts mark (between ++ rest) :=
    fun between hm hc => ⟨Constants.text_ne_of_punct hm (by decide),
      fun rest => Constants.parts_of_punct hm hc _⟩
  rcases declarator.sized.last with hlengths | ⟨front, closing, hlengths, hclosing⟩
  · rcases declarator.listed with hearlier | ⟨hlisted, -⟩
    · rcases declarator.typeSized.last with htypes | ⟨front, closing, htypes, hclosing⟩
      · obtain ⟨front, last, hheader, name, hname, hlast⟩ := declarator.heads.last
        obtain ⟨text, htype⟩ := declarator.typed.1
        have hplain : ∀ text ∈ ["const", "int", "uint"], last.text ≠ text := by
          have hall : ∀ name ∈ "uniform" :: Cursor.idleQualifiers,
              ∀ text ∈ ["const", "int", "uint"], name ≠ text := by decide
          rw [Token.text, hlast]
          exact hall name hname
        refine ⟨declarator.before ++ front, last, [declarator.type, declarator.name], ?_,
          hplain _ (by decide), Nat.le_refl _, fun rest c _ => ⟨⟨hplain _ (by decide),
            hplain _ (by decide)⟩, by simp [hlast], Or.inr fun c _ => by simp [htype]⟩⟩
        simp [tokens, names, hheader, htypes, hearlier, hlengths]
      · obtain ⟨hconst, hparts⟩ := hmark [declarator.name] hclosing (by decide)
        refine ⟨declarator.before ++ (declarator.header ++ declarator.type :: front), closing,
          [declarator.name], ?_, hconst, by simp, fun rest _ _ => hparts rest⟩
        simp [tokens, names, htypes, hearlier, hlengths]
    · obtain ⟨front, comma, hearlier⟩ : ∃ front comma, declarator.earlier = front ++ [comma] := by
        rcases List.eq_nil_or_concat declarator.earlier with hnil | hconcat
        · have hlast := hlisted.last
          rw [hnil] at hlast
          cases hlast
        · simpa using hconcat
      have hcomma : comma.lexeme = .punct ',' := by
        have hlast := hlisted.last
        rw [hearlier] at hlast
        simpa using hlast
      obtain ⟨hconst, hparts⟩ := hmark [declarator.name] hcomma (by decide)
      refine ⟨declarator.before ++ (declarator.header ++ declarator.type ::
        (declarator.typeLengths ++ front)), comma, [declarator.name], ?_, hconst, by simp,
        fun rest _ _ => hparts rest⟩
      simp [tokens, names, hearlier, hlengths]
  · obtain ⟨hconst, hparts⟩ := hmark [] hclosing (by decide)
    refine ⟨declarator.before ++ (declarator.header ++ declarator.type ::
      (declarator.typeLengths ++ (declarator.earlier ++ declarator.name :: front))), closing, [], ?_,
      hconst, by simp, fun rest _ _ => hparts rest⟩
    simp [tokens, names, hlengths]

end FreeDeclarator

section Sources

variable {mark : Char} {after rest' : List Token} (hm : mark = ',' ∨ mark = ';')
  (h : EndsIn mark line after rest) (h' : EndsIn mark line after rest')
  (declarator : FreeDeclarator)

include hm h h'

/-- An initialiser defines no constant and hides none. -/
theorem ofStatements_same : Constants.ofStatements (declarator.tokens ++ rest) =
    Constants.ofStatements (declarator.tokens ++ rest') := by
  obtain ⟨front, last, between, htokens, hconst, hshort, hparts⟩ := declarator.parts
  obtain ⟨c, -, hc⟩ := h.head hm
  obtain ⟨c', -, hc'⟩ := h'.head hm
  simp only [htokens, List.append_assoc, List.cons_append]
  rw [Constants.ofStatements_append_sign (hparts _ _ hc) hconst hshort hc,
    Constants.ofStatements_append_sign (hparts _ _ hc') hconst hshort hc', h.ofStatements,
    h'.ofStatements]

/-- All statements are read alike, from the first one on. -/
theorem statements_same (hmarks : NoNumber delimiters scope) (pending : Pending) (start : Nat) :
    Cursor.loop (statement scope) pending ⟨start, declarator.tokens ++ rest⟩ =
      Cursor.loop (statement scope) pending ⟨start, declarator.tokens ++ rest'⟩ := by
  obtain ⟨first, others, hheader, hword⟩ := declarator.heads.starts
  have hlast : ∀ pending start, Cursor.loop (statement scope) pending
        ⟨start, declarator.header ++ (declarator.names ++ rest)⟩ =
      Cursor.loop (statement scope) pending
        ⟨start, declarator.header ++ (declarator.names ++ rest')⟩ := by
    intro pending start
    refine loop_congr ?_ (statement_turns pending _) (statement_turns pending _)
    rw [hheader, List.cons_append, List.cons_append, statement_word _ _ _ hword,
      statement_word _ _ _ hword, uniformStatement_same hm h h' hmarks declarator _ _ hheader]
  simp only [FreeDeclarator.tokens, List.append_assoc]
  rcases declarator.outer.arrives (hmarks.mono (by decide)) pending start with ⟨notices, e, hfail⟩ |
    ⟨notices, items, pending', line', hread⟩
  · rw [hfail _ (declarator.ready rest), hfail _ (declarator.ready rest')]
  · rw [hread _ (declarator.ready rest), hread _ (declarator.ready rest'), hlast]

end Sources

end Source

open Source

/-- What a free uniform is initialised with, if with anything, does not change what is read from its
source, apart from places; as long as no comma stands in it. -/
theorem read_reinitialised (key : String) {text text' : String} (declarator : FreeDeclarator)
    {mark : Char} {init init' after : List Token} {ending ending' : Token}
    (hmark : mark = ',' ∨ mark = ';')
    (htokens : (tokensIn text).map Token.unplaced =
      declarator.tokens ++ (init ++ ending :: after))
    (htokens' : (tokensIn text').map Token.unplaced =
      declarator.tokens ++ (init' ++ ending' :: after))
    (hinit : IsInitialiser init) (hinit' : IsInitialiser init')
    (hending : ending.lexeme = .punct mark) (hending' : ending'.lexeme = .punct mark)
    (hcommas : ∀ token ∈ init ++ init', token.lexeme ≠ .punct ',')
    (hdirectives : directiveLines text = directiveLines text')
    (hnumbers : NoNumber delimiters ⟨key, constantsOf text.toList⟩) :
    withoutPlaces (SourceContents.read key text) = withoutPlaces (SourceContents.read key text') := by
  have hline : ∀ {text : String} {front : List Token} {token : Token} {rest : List Token},
      (tokensIn text).map Token.unplaced = front ++ token :: rest → token.line = 0 := by
    intro text front token rest heq
    have hmem : token ∈ (tokensIn text).map Token.unplaced := by simp [heq]
    obtain ⟨found, -, rfl⟩ := List.mem_map.1 hmem
    rfl
  have hends : EndsIn mark 0 after (init ++ ending :: after) :=
    ⟨init, ending, rfl, hinit, fun token ht => hcommas token (by simp [ht]), hending,
      hline (by rw [htokens, ← List.append_assoc])⟩
  have hends' : EndsIn mark 0 after (init' ++ ending' :: after) :=
    ⟨init', ending', rfl, hinit', fun token ht => hcommas token (by simp [ht]), hending',
      hline (by rw [htokens', ← List.append_assoc])⟩
  have hconstants : constantsOf text.toList = constantsOf text'.toList := by
    rw [constantsOf_eq, constantsOf_eq, hdirectives, htokens, htokens',
      ofStatements_same hmark hends hends']
  rw [withoutPlaces_read, withoutPlaces_read, ← hconstants, htokens, htokens',
    statements_same hmark hends hends' declarator hnumbers]

/-! ## A tint with a value -/

/-- A token without a place. -/
def bare (lexeme : Lexeme) (lead : List Char) : Token := ⟨lexeme, 0, 0, lead⟩

/-- The source up to the end of the declarator in `uniform vec3 tint`. -/
def tintDeclarator : FreeDeclarator where
  before := []
  header := [bare (.word "uniform") []]
  type := bare (.word "vec3") [' ']
  typeLengths := []
  earlier := []
  name := bare (.word "tint") [' ']
  lengths := []
  outer := outer_nil
  heads := .bare rfl (by simp)
  typed := ⟨⟨_, rfl⟩, by decide⟩
  typeSized := .nil
  listed := Or.inl rfl
  named := ⟨_, rfl⟩
  sized := .nil

/-- `1.0, 0.5, 0.0` -/
def tintArguments : List Token :=
  [bare (.number "1.0") [], bare (.punct ',') [], bare (.number "0.5") [' '], bare (.punct ',') [],
    bare (.number "0.0") [' ']]

/-- An initialiser that calls the constructor of the type with the arguments. -/
def tintValue (arguments : List Token) : List Token :=
  bare (.punct '=') [' '] :: bare (.word "vec3") [' '] :: bare (.punct '(') [] ::
    (arguments ++ [bare (.punct ')') []])

theorem isInitialiser_tintValue {arguments : List Token}
    (h : Expression (arguments.map Token.lexeme)) : IsInitialiser (tintValue arguments) := by
  refine Or.inr ⟨_, _, rfl, rfl, ?_⟩
  have hcall : Expression (.punct '(' :: (arguments.map Token.lexeme ++ .punct ')' :: [])) :=
    .nest (by decide) h .nil
  have hvalue : Expression (.word "vec3" :: .punct '(' ::
      (arguments.map Token.lexeme ++ .punct ')' :: [])) := .operand (by decide) hcall
  simpa [bare] using hvalue

/-- A tint is read alike with a grey value and without one. -/
theorem read_reinitialised_grey :
    withoutPlaces (SourceContents.read "a.glsl" "uniform vec3 tint;") =
      withoutPlaces (SourceContents.read "a.glsl" "uniform vec3 tint = vec3(0.5);") := by
  have htokens : (tokensIn "uniform vec3 tint;").map Token.unplaced =
      tintDeclarator.tokens ++ ([] ++ bare (.punct ';') [] :: []) := by decide +kernel
  have htokens' : (tokensIn "uniform vec3 tint = vec3(0.5);").map Token.unplaced =
      tintDeclarator.tokens ++
        (tintValue [bare (.number "0.5") []] ++ bare (.punct ';') [] :: []) := by decide +kernel
  exact read_reinitialised "a.glsl" tintDeclarator (Or.inr rfl) htokens htokens' (Or.inl rfl)
    (isInitialiser_tintValue (.operand (by decide) .nil)) rfl rfl (by decide) (by decide +kernel)
    (by decide +kernel)

/-- Of a call with several arguments only the first one is passed over; the next one is read as a
declarator, and the source is refused. -/
theorem tint_refused :
    (tokensIn "uniform vec3 tint;").map Token.unplaced =
        tintDeclarator.tokens ++ ([] ++ bare (.punct ';') [] :: []) ∧
      (tokensIn "uniform vec3 tint = vec3(1.0, 0.5, 0.0);").map Token.unplaced =
        tintDeclarator.tokens ++ (tintValue tintArguments ++ bare (.punct ';') [] :: []) ∧
      IsInitialiser (tintValue tintArguments) ∧
      directiveLines "uniform vec3 tint;" =
        directiveLines "uniform vec3 tint = vec3(1.0, 0.5, 0.0);" ∧
      withoutPlaces (SourceContents.read "a.glsl" "uniform vec3 tint;") ≠
        withoutPlaces (SourceContents.read "a.glsl" "uniform vec3 tint = vec3(1.0, 0.5, 0.0);") := by
  have hvalue : Expression (tintArguments.map Token.lexeme) :=
    .operand (by decide) (.operand (by decide) (.operand (by decide) (.operand (by decide)
      (.operand (by decide) .nil))))
  refine ⟨by decide +kernel, by decide +kernel, isInitialiser_tintValue hvalue, by decide +kernel,
    fun heq => ?_⟩
  have hread : (withoutPlaces (SourceContents.read "a.glsl" "uniform vec3 tint;")).result.isOk =
      true := by decide +kernel
  have hrefused : (withoutPlaces (SourceContents.read "a.glsl"
      "uniform vec3 tint = vec3(1.0, 0.5, 0.0);")).result.isOk = false := by decide +kernel
  rw [heq, hrefused] at hread
  cases hread

end UniformLayout
