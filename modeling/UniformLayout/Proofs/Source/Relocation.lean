import UniformLayout.Proofs.Source.Bodies

/-!
# Readings that are moved

A reader looks at the lexemes in front of it, takes places and lines from its tokens, and asks its scope
for numbers. Where the tokens are those of another reading, elsewhere or with more of them behind, it
does what it does in the other reading, and what it gives is moved with the tokens.

* `Relocation`: where the tokens of one reading are in another one.
* `Moves`: a reading gives what another one gives, moved; with one lemma for each way to put readings
  together.
* `Track`: what is known of the tokens that are still to be read, and how far it goes.

Main statements: `loop_moves`, `members_moves` and `LayoutList.read_moves`.
-/

namespace UniformLayout

/-! ## Places -/

def FieldDeclaration.mapPlace (f : SourceLocation → SourceLocation) (field : FieldDeclaration) :
    FieldDeclaration :=
  { field with source := f field.source }

def TypeDeclaration.mapPlace (f : SourceLocation → SourceLocation) (decl : TypeDeclaration) :
    TypeDeclaration :=
  { decl with fields := decl.fields.map (FieldDeclaration.mapPlace f), source := f decl.source }

def UniformDeclaration.mapPlace (f : SourceLocation → SourceLocation)
    (uniform : UniformDeclaration) : UniformDeclaration :=
  { uniform with source := f uniform.source }

def SourceWarning.mapPlace (f : SourceLocation → SourceLocation) : SourceWarning → SourceWarning
  | .anonymousBlock source => .anonymousBlock (f source)
  | .unsupportedPacking block packing source => .unsupportedPacking block packing (f source)
  | .instanceArrayIgnored block source => .instanceArrayIgnored block (f source)

def Notice.mapPlace (f : SourceLocation → SourceLocation) : Notice → Notice
  | .source warning => .source (warning.mapPlace f)
  | .identicalCopyIgnored key name copy => .identicalCopyIgnored key name (f copy)
  | notice => notice

def CompileError.mapLine (f : Nat → Nat) : CompileError → CompileError
  | .malformedDeclaration file line declaration reason =>
    .malformedDeclaration file (f line) declaration reason
  | e => e

@[simp] theorem FieldDeclaration.mapPlace_id : FieldDeclaration.mapPlace id = id := rfl

@[simp] theorem TypeDeclaration.mapPlace_id : TypeDeclaration.mapPlace id = id := by
  funext decl
  simp [TypeDeclaration.mapPlace]

@[simp] theorem UniformDeclaration.mapPlace_id : UniformDeclaration.mapPlace id = id := rfl

@[simp] theorem SourceWarning.mapPlace_id : SourceWarning.mapPlace id = id := by
  funext warning
  cases warning <;> rfl

@[simp] theorem Notice.mapPlace_id : Notice.mapPlace id = id := by
  funext notice
  cases notice <;> simp [Notice.mapPlace]

@[simp] theorem CompileError.mapLine_id : CompileError.mapLine id = id := by
  funext e
  cases e <;> rfl

namespace Source

def AnonymousBlock.mapPlace (f : SourceLocation → SourceLocation) (block : AnonymousBlock) :
    AnonymousBlock :=
  { source := f block.source, fields := block.fields.map (FieldDeclaration.mapPlace f) }

def Entry.mapPlace (f : SourceLocation → SourceLocation) : Entry → Entry
  | .declaration decl => .declaration (decl.mapPlace f)
  | .uniforms list => .uniforms (list.map (UniformDeclaration.mapPlace f))
  | .anonymous block => .anonymous (block.mapPlace f)
  | .packing default => .packing default
  | .nothing => .nothing

@[simp] theorem AnonymousBlock.mapPlace_id : AnonymousBlock.mapPlace id = id := by
  funext block
  simp [AnonymousBlock.mapPlace]

@[simp] theorem Entry.mapPlace_id : Entry.mapPlace id = id := by
  funext entry
  cases entry <;> simp [Entry.mapPlace]

/-- What a statement leaves behind it does not depend on places. -/
theorem Pending.after_mapPlace (pending : Pending) (f : SourceLocation → SourceLocation)
    (entry : Entry) : pending.after (entry.mapPlace f) = pending.after entry := by
  cases entry <;> rfl

theorem warningsOf_mapPlace (f : SourceLocation → SourceLocation) (notices : List Notice) :
    warningsOf (notices.map (Notice.mapPlace f)) =
      (warningsOf notices).map (SourceWarning.mapPlace f) := by
  induction notices with
  | nil => rfl
  | cons notice notices ih =>
    cases notice with
    | source warning => exact congrArg (warning.mapPlace f :: ·) ih
    | _ => exact ih

end Source

def SourceContents.mapPlace (f : SourceLocation → SourceLocation) (contents : SourceContents) :
    SourceContents where
  key := contents.key
  declarations := contents.declarations.map (TypeDeclaration.mapPlace f)
  uniforms := contents.uniforms.map (UniformDeclaration.mapPlace f)
  anonymousBlocks := contents.anonymousBlocks.map (Source.AnonymousBlock.mapPlace f)
  warnings := contents.warnings.map (SourceWarning.mapPlace f)

@[simp] theorem SourceContents.mapPlace_id : SourceContents.mapPlace id = id := by
  funext contents
  simp [SourceContents.mapPlace]

open Source in
/-- Entries that are moved add up to contents that are moved. -/
theorem SourceContents.ofEntries_mapPlace (f : SourceLocation → SourceLocation) (key : String)
    (entries : List Entry) (warnings : List SourceWarning) :
    (ofEntries key entries warnings).mapPlace f =
      ofEntries key (entries.map (Entry.mapPlace f)) (warnings.map (SourceWarning.mapPlace f)) := by
  induction entries with
  | nil => rfl
  | cons entry entries ih =>
    simp only [mapPlace, ofEntries, mk.injEq, true_and, and_true] at ih ⊢
    obtain ⟨hdecls, huniforms, hblocks⟩ := ih
    cases entry <;> simp [Entry.mapPlace, List.flatMap_cons, hdecls, huniforms, hblocks]

namespace Source

open Logged

/-! ## Relocations -/

/-- Where the tokens, lines and places of one reading are in another one, which has some tokens more
behind them. -/
structure Relocation where
  token : Token → Token
  line : Nat → Nat
  place : SourceLocation → SourceLocation
  behind : List Token
  lexeme_token : ∀ found, (token found).lexeme = found.lexeme
  line_token : ∀ found, (token found).line = line found.line
  locate_token : ∀ (scope : Scope) found, scope.locate (token found) = place (scope.locate found)

namespace Relocation

variable {α β : Type} (move : Relocation)

def cursor (cursor : Cursor) : Cursor :=
  ⟨move.line cursor.line, cursor.rest.map move.token ++ move.behind⟩

theorem cursor_cons (line : Nat) (first : Token) (rest : List Token) :
    move.cursor ⟨line, first :: rest⟩ =
      ⟨move.line line, move.token first :: (rest.map move.token ++ move.behind)⟩ := rfl

/-- A result with the cursor behind it. -/
def result (view : α → β) (found : α × Cursor) : β × Cursor :=
  (view found.1, move.cursor found.2)

/-- What a reading gives, moved. -/
def reading (view : α → β) (x : Reading α) : Reading β where
  notices := x.notices.map (Notice.mapPlace move.place)
  result :=
    match x.result with
    | .ok a => .ok (view a)
    | .error e => .error (e.mapLine move.line)

theorem text_token (found : Token) : (move.token found).text = found.text :=
  congrArg Lexeme.text (move.lexeme_token found)

end Relocation

/-! ## Readings -/

/-- The second reading gives what the first one gives, moved; and what the first one gives has the
property. -/
def Moves {α β : Type} (move : Relocation) (view : α → β) (p : α → Prop) (x : Reading α)
    (y : Reading β) : Prop :=
  y = move.reading view x ∧ x.Ensures p

section

variable {α β γ δ : Type} {move : Relocation} {view : α → β} {p : α → Prop}

theorem moves_pure {a : α} {b : β} (h : b = view a) (hp : p a) :
    Moves move view p (pure a) (pure b) := by
  subst h
  exact ⟨rfl, ensures_pure hp⟩

theorem moves_note {n n' : Notice} (h : n' = n.mapPlace move.place) :
    Moves move id (fun _ => True) (note n) (note n') := by
  subst h
  exact ⟨rfl, fun _ _ => trivial⟩

theorem Moves.bind {view' : γ → δ} {q : γ → Prop} {x : Reading α} {y : Reading β}
    {f : α → Reading γ} {g : β → Reading δ} (h : Moves move view p x y)
    (hf : ∀ a, p a → Moves move view' q (f a) (g (view a))) :
    Moves move view' q (x >>= f) (y >>= g) := by
  obtain ⟨rfl, hp⟩ := h
  refine ⟨?_, hp.bind fun a ha => (hf a ha).2⟩
  obtain ⟨notices, e | a⟩ := x
  · rfl
  · have hg := (hf a (hp a rfl)).1
    dsimp only [Relocation.reading]
    rw [bind_ok, bind_ok, hg]
    simp [Relocation.reading]

theorem Moves.map {view' : γ → δ} {q : γ → Prop} {x : Reading α} {y : Reading β} {f : α → γ}
    {g : β → δ} (h : Moves move view p x y) (hf : ∀ a, p a → g (view a) = view' (f a) ∧ q (f a)) :
    Moves move view' q (f <$> x) (g <$> y) := by
  rw [map_eq_pure_bind, map_eq_pure_bind]
  exact h.bind fun a ha => moves_pure (hf a ha).1 (hf a ha).2

end

/-! ## Cursors -/

namespace Cursor

variable {cursor next : Cursor} {token : Token}

theorem next?_eq_some_iff : cursor.next? = some (token, next) ↔
    cursor.rest = token :: next.rest ∧ next.line = token.line := by
  obtain ⟨line, _ | ⟨first, rest⟩⟩ := cursor
  · simp [next?]
  · obtain ⟨line', rest'⟩ := next
    simp only [next?, Option.some.injEq, Prod.mk.injEq, mk.injEq, List.cons.injEq]
    constructor
    · rintro ⟨rfl, rfl, rfl⟩
      exact ⟨⟨rfl, rfl⟩, rfl⟩
    · rintro ⟨⟨rfl, rfl⟩, rfl⟩
      exact ⟨rfl, rfl, rfl⟩

theorem eat?_eq_some_iff {c : Char} : cursor.eat? c = some next ↔
    ∃ token, cursor.rest = token :: next.rest ∧ token.lexeme = .punct c ∧
      next.line = token.line := by
  obtain ⟨line, _ | ⟨first, rest⟩⟩ := cursor
  · simp [eat?]
  · obtain ⟨line', rest'⟩ := next
    simp only [eat?, Option.ite_none_right_eq_some, Option.some.injEq, mk.injEq, List.cons.injEq]
    constructor
    · rintro ⟨hc, rfl, rfl⟩
      exact ⟨first, ⟨rfl, rfl⟩, hc, rfl⟩
    · rintro ⟨_, ⟨rfl, rfl⟩, hc, rfl⟩
      exact ⟨hc, rfl, rfl⟩

theorem word?_eq_some_iff {text : String} : cursor.word? = some (token, text, next) ↔
    cursor.rest = token :: next.rest ∧ token.lexeme = .word text ∧ next.line = token.line := by
  obtain ⟨line, _ | ⟨first, rest⟩⟩ := cursor
  · simp [word?]
  · obtain ⟨line', rest'⟩ := next
    cases hl : first.lexeme with
    | word name =>
      simp only [word?, hl, Option.some.injEq, Prod.mk.injEq, mk.injEq, List.cons.injEq]
      constructor
      · rintro ⟨rfl, rfl, rfl, rfl⟩
        exact ⟨⟨rfl, rfl⟩, hl, rfl⟩
      · rintro ⟨⟨rfl, rfl⟩, hword, rfl⟩
        exact ⟨rfl, Lexeme.word.inj (hl.symm.trans hword), rfl, rfl⟩
    | number name =>
      simp only [word?, hl, List.cons.injEq, false_iff, reduceCtorEq]
      rintro ⟨⟨rfl, rfl⟩, hword, -⟩
      rw [hl] at hword
      cases hword
    | punct c =>
      simp only [word?, hl, List.cons.injEq, false_iff, reduceCtorEq]
      rintro ⟨⟨rfl, rfl⟩, hword, -⟩
      rw [hl] at hword
      cases hword

end Cursor

/-! ## What is known of the tokens in front -/

/-- The marks that a reader may stop at. -/
def stops : List Char := ['{', '}', ';', ')', ',']

/-- Where a mark is read, one property of the tokens gives place to another one. -/
def Passes (c : Char) (P Q : List Token → Prop) : Prop :=
  ∀ token rest, token.lexeme = .punct c → P (token :: rest) → Q rest

/-- A property of the tokens that are still to be read. It says that the two readings see the same, as
there are tokens to read or no others behind them, and that both scopes give the same numbers to what is
written. It is kept when a token is read that is no mark to stop at, or has a number. -/
structure Track (move : Relocation) (scope scope' : Scope) (P : List Token → Prop) : Prop where
  room : P [] → move.behind = []
  file : scope'.file = scope.file
  number : ∀ token rest, P (token :: rest) →
    scope'.constants.resolve? token.text = scope.constants.resolve? token.text
  plain : ∀ token rest, (∀ c ∈ stops, token.lexeme ≠ .punct c) → P (token :: rest) → P rest
  value : ∀ token rest, (scope.constants.resolve? token.text).isSome → P (token :: rest) → P rest

variable {move : Relocation} {scope scope' : Scope} {P Q : List Token → Prop} {cursor next : Cursor}
  {token : Token}

theorem Passes.eat {c : Char} (h : Passes c P Q) (hc : P cursor.rest)
    (he : cursor.eat? c = some next) : Q next.rest := by
  obtain ⟨token, hr, hl, -⟩ := Cursor.eat?_eq_some_iff.1 he
  rw [hr] at hc
  exact h token _ hl hc

namespace Track

theorem malformed {α β : Type} {view : α → β} {p : α → Prop}
    (h : Track move scope scope' P) {cursor' : Cursor} (hline : cursor'.line = move.line cursor.line)
    (declaration : String) (reason : Malformation) :
    Moves move view p (scope.malformed cursor declaration reason)
      (scope'.malformed cursor' declaration reason) := by
  refine ⟨?_, ensures_throw⟩
  rw [Scope.malformed, Scope.malformed, h.file, hline]
  rfl

/-- A place of the one reading, in the other one. -/
theorem locate (h : Track move scope scope' P) (token : Token) :
    scope'.locate (move.token token) = move.place (scope.locate token) := by
  rw [← move.locate_token, Scope.locate, Scope.locate, h.file]

theorem rest_cursor (h : Track move scope scope' P) (hc : P cursor.rest) (hr : cursor.rest = []) :
    (move.cursor cursor).rest = [] := by
  rw [Relocation.cursor, hr]
  exact h.room (hr ▸ hc)

theorem next? (h : Track move scope scope' P) (hc : P cursor.rest) :
    (move.cursor cursor).next? = cursor.next?.map fun found =>
      (move.token found.1, move.cursor found.2) := by
  obtain ⟨line, _ | ⟨token, rest⟩⟩ := cursor
  · rw [Cursor.next?, h.rest_cursor hc rfl]
    rfl
  · simp [Cursor.next?, Relocation.cursor, move.line_token]

theorem eat? (h : Track move scope scope' P) (hc : P cursor.rest) (c : Char) :
    (move.cursor cursor).eat? c = (cursor.eat? c).map move.cursor := by
  obtain ⟨line, _ | ⟨token, rest⟩⟩ := cursor
  · rw [Cursor.eat?, h.rest_cursor hc rfl]
    rfl
  · by_cases hm : token.lexeme = .punct c
    · simp [Cursor.eat?, Relocation.cursor, move.line_token, move.lexeme_token, hm]
    · simp [Cursor.eat?, Relocation.cursor, move.lexeme_token, hm]

theorem word? (h : Track move scope scope' P) (hc : P cursor.rest) :
    (move.cursor cursor).word? = cursor.word?.map fun found =>
      (move.token found.1, found.2.1, move.cursor found.2.2) := by
  obtain ⟨line, _ | ⟨token, rest⟩⟩ := cursor
  · rw [Cursor.word?, h.rest_cursor hc rfl]
    rfl
  · cases hm : token.lexeme <;>
      simp [Cursor.word?, Relocation.cursor, move.line_token, move.lexeme_token, hm]

theorem peek? (h : Track move scope scope' P) (hc : P cursor.rest) :
    (move.cursor cursor).peek? = cursor.peek? := by
  obtain ⟨line, _ | ⟨token, rest⟩⟩ := cursor
  · rw [Cursor.peek?, h.rest_cursor hc rfl]
    rfl
  · simp [Cursor.peek?, Relocation.cursor, move.lexeme_token]

theorem eat (h : Track move scope scope' P) (hc : P cursor.rest) {c : Char}
    (he : cursor.eat? c = some next) (hm : c ∉ stops) : P next.rest := by
  obtain ⟨token, hr, hl, -⟩ := Cursor.eat?_eq_some_iff.1 he
  rw [hr] at hc
  refine h.plain token _ (fun d hd heq => hm ?_) hc
  rw [hl] at heq
  rwa [Lexeme.punct.inj heq]

theorem behind (h : Track move scope scope' P) (hc : P cursor.rest)
    (hn : cursor.next? = some (token, next)) (hm : ∀ c ∈ stops, token.lexeme ≠ .punct c) :
    P next.rest := by
  rw [(Cursor.next?_eq_some_iff.1 hn).1] at hc
  exact h.plain token _ hm hc

theorem word (h : Track move scope scope' P) (hc : P cursor.rest) {text : String}
    (hw : cursor.word? = some (token, text, next)) : P next.rest := by
  obtain ⟨hr, hl, -⟩ := Cursor.word?_eq_some_iff.1 hw
  rw [hr] at hc
  exact h.plain token _ (by simp [hl]) hc

/-- The line at which a missing name is reported. -/
theorem line_behind (h : Track move scope scope' P) (hc : P cursor.rest) :
    (((move.cursor cursor).next?.map Prod.snd).getD (move.cursor cursor)).line =
      move.line ((cursor.next?.map Prod.snd).getD cursor).line := by
  rw [h.next? hc]
  cases cursor.next? <;> rfl

/-- It may be known also that no more tokens are left than at some time. -/
theorem within (h : Track move scope scope' P) (n : Nat) :
    Track move scope scope' fun tokens => P tokens ∧ tokens.length ≤ n where
  room hP := h.room hP.1
  file := h.file
  number token rest hP := h.number token rest hP.1
  plain token rest hm hP := ⟨h.plain token rest hm hP.1, Nat.le_of_succ_le hP.2⟩
  value token rest hv hP := ⟨h.value token rest hv hP.1, Nat.le_of_succ_le hP.2⟩

end Track

theorem length_of_eat? {c : Char} (he : cursor.eat? c = some next) :
    next.rest.length < cursor.rest.length := by
  obtain ⟨token, hr, -⟩ := Cursor.eat?_eq_some_iff.1 he
  rw [hr]
  exact Nat.lt_succ_self _

theorem length_of_next? (hn : cursor.next? = some (token, next)) :
    next.rest.length < cursor.rest.length := by
  rw [(Cursor.next?_eq_some_iff.1 hn).1]
  exact Nat.lt_succ_self _

theorem length_of_word? {text : String} (hw : cursor.word? = some (token, text, next)) :
    next.rest.length < cursor.rest.length := by
  rw [(Cursor.word?_eq_some_iff.1 hw).1]
  exact Nat.lt_succ_self _

/-! ## Array lengths -/

theorem lengthOf_moves (h : Track move scope scope' P) (hc : P cursor.rest)
    (hnumber : scope'.constants.resolve? token.text = scope.constants.resolve? token.text)
    (declaration field : String) :
    Moves move (move.result id) (fun found => P found.2.rest)
      (lengthOf scope declaration field cursor token.text)
      (lengthOf scope' declaration field (move.cursor cursor) token.text) := by
  unfold lengthOf lengthEnd
  rw [hnumber]
  cases scope.constants.resolve? token.text with
  | none => exact h.malformed rfl _ _
  | some length =>
    dsimp only
    rw [h.eat? hc]
    cases he : cursor.eat? ']' with
    | none => exact h.malformed rfl _ _
    | some closed =>
      have hclosed := h.eat hc he (by decide)
      dsimp only [Option.map_some]
      rw [h.peek? hclosed]
      split
      · exact h.malformed rfl _ _
      · split
        · exact h.malformed rfl _ _
        · exact moves_pure rfl hclosed

theorem arrayLength_moves (h : Track move scope scope' P) (hc : P cursor.rest)
    (declaration field : String) :
    Moves move (move.result id) (fun found => P found.2.rest)
      (arrayLength scope declaration field cursor)
      (arrayLength scope' declaration field (move.cursor cursor)) := by
  rw [arrayLength_eq, arrayLength_eq, h.eat? hc]
  cases he : cursor.eat? '[' with
  | none => exact moves_pure rfl hc
  | some opened =>
    have hopened := h.eat hc he (by decide)
    dsimp only [Option.map_some]
    rw [h.next? hopened]
    cases hn : opened.next? with
    | none => exact h.malformed rfl _ _
    | some found =>
      obtain ⟨token, inside⟩ := found
      dsimp only [Option.map_some]
      rw [move.lexeme_token]
      have hnumber := h.number token inside.rest (by
        rwa [← (Cursor.next?_eq_some_iff.1 hn).1])
      cases hm : token.lexeme with
      | punct c => exact h.malformed rfl _ _
      | word text =>
        obtain rfl : token.text = text := by rw [Token.text, hm, Lexeme.text]
        exact lengthOf_moves h (h.behind hopened hn (by simp [hm])) hnumber _ _
      | number text =>
        obtain rfl : token.text = text := by rw [Token.text, hm, Lexeme.text]
        exact lengthOf_moves h (h.behind hopened hn (by simp [hm])) hnumber _ _

/-! ## Loops -/

section Loop

variable {σ α β : Type}

/-- A turn of a loop with the item moved. -/
def Cursor.Turn.map (view : α → β) : Cursor.Turn σ α → Cursor.Turn σ β
  | .again item state => .again (view item) state
  | .last item => .last (view item)
  | .done => .done

@[simp] theorem Cursor.Turn.map_id :
    Cursor.Turn.map (id : α → α) = (id : Cursor.Turn σ α → Cursor.Turn σ α) := by
  funext turn
  cases turn <;> rfl

/-- Where the loop goes on some token has been read and `P` holds; where it ends, `Q`. -/
def TurnsTo (P Q : List Token → Prop) (cursor : Cursor) : Cursor.Turn σ α × Cursor → Prop
  | (.again _ _, next) => P next.rest ∧ next.rest.length < cursor.rest.length
  | (_, next) => Q next.rest

/-- A loop moves if its steps do. -/
theorem loop_moves {view : α → β} {step : σ → Cursor → Reading (Cursor.Turn σ α × Cursor)}
    {step' : σ → Cursor → Reading (Cursor.Turn σ β × Cursor)}
    (hstep : ∀ state cursor, P cursor.rest → Moves move (move.result (Cursor.Turn.map view))
      (TurnsTo P Q cursor) (step state cursor) (step' state (move.cursor cursor)))
    (state : σ) (hc : P cursor.rest) :
    Moves move (move.result (List.map view)) (fun found => Q found.2.rest)
      (Cursor.loop step state cursor) (Cursor.loop step' state (move.cursor cursor)) := by
  induction hn : cursor.rest.length using Nat.strongRecOn generalizing state cursor with
  | ind n ih =>
    subst hn
    rw [Cursor.loop.eq_1 step state cursor, Cursor.loop.eq_1 step' state (move.cursor cursor)]
    refine (hstep state cursor hc).bind ?_
    rintro ⟨turn, next⟩ hturn
    cases turn with
    | done => exact moves_pure rfl hturn
    | last item => exact moves_pure rfl hturn
    | again item after =>
      obtain ⟨hnext, hlt⟩ := hturn
      have hlt' : (move.cursor next).rest.length < (move.cursor cursor).rest.length := by
        simpa [Relocation.cursor] using hlt
      dsimp only [Relocation.result, Cursor.Turn.map]
      rw [if_pos hlt, if_pos hlt']
      refine (ih _ hlt after hnext rfl).bind ?_
      rintro ⟨items, final⟩ hfinal
      exact moves_pure rfl hfinal

end Loop

/-! ## Layout lists -/

namespace LayoutList

theorem entry_moves (h : Track move scope scope' P) (hcomma : Passes ',' P P)
    (hclose : Passes ')' P Q) (declaration : String) (hc : P cursor.rest) :
    Moves move (move.result (Cursor.Turn.map id)) (TurnsTo P Q cursor)
      (entry scope declaration () cursor) (entry scope' declaration () (move.cursor cursor)) := by
  unfold entry
  rw [h.next? hc]
  cases hn : cursor.next? with
  | none => exact h.malformed rfl _ _
  | some found =>
    obtain ⟨token, behind⟩ := found
    have hlt := length_of_next? hn
    have hr := (Cursor.next?_eq_some_iff.1 hn).1
    dsimp only [Option.map_some]
    rw [move.lexeme_token]
    cases hm : token.lexeme with
    | punct c =>
      by_cases hend : c = ')'
      · subst hend
        exact moves_pure rfl (hclose token _ hm (hr ▸ hc))
      · by_cases hsep : c = ','
        · subst hsep
          exact moves_pure rfl ⟨hcomma token _ hm (hr ▸ hc), hlt⟩
        · simp only [Lexeme.punct.injEq, hend, hsep, imp_self]
          exact h.malformed rfl _ _
    | number text => exact h.malformed rfl _ _
    | word name =>
      have hbehind := h.behind hc hn (by simp [hm])
      dsimp only
      rw [h.eat? hbehind]
      cases he : behind.eat? '=' with
      | none => exact moves_pure rfl ⟨hbehind, hlt⟩
      | some assigned =>
        have hassigned := h.eat hbehind he (by decide)
        have hlt := (length_of_eat? he).trans hlt
        dsimp only [Option.map_some]
        rw [h.next? hassigned]
        cases hn : assigned.next? with
        | none => exact h.malformed rfl _ _
        | some found =>
          obtain ⟨value, final⟩ := found
          have hr := (Cursor.next?_eq_some_iff.1 hn).1
          have hlt := (length_of_next? hn).trans hlt
          rw [hr] at hassigned
          dsimp only [Option.map_some]
          rw [move.text_token, h.number value _ hassigned]
          cases hv : scope.constants.resolve? value.text with
          | none => exact h.malformed rfl _ _
          | some number => exact moves_pure rfl ⟨h.value value _ (by rw [hv]; rfl) hassigned, hlt⟩

theorem read_moves (h : Track move scope scope' P) (hcomma : Passes ',' P P)
    (hclose : Passes ')' P Q) (declaration : String) (hc : P cursor.rest) :
    Moves move (move.result id) (fun found => Q found.2.rest) (read scope declaration cursor)
      (read scope' declaration (move.cursor cursor)) := by
  unfold read
  rw [h.eat? hc]
  cases he : cursor.eat? '(' with
  | none => exact h.malformed rfl _ _
  | some opened =>
    dsimp only [Option.map_some]
    refine (loop_moves (fun _ _ hc => entry_moves h hcomma hclose declaration hc) ()
      (h.eat hc he (by decide))).bind ?_
    rintro ⟨entries, closed⟩ hclosed
    exact moves_pure (by simp [Relocation.result]) hclosed

end LayoutList

/-! ## Members -/

theorem skipWhile_moves {p : Lexeme → Bool} (hroom : P [] → move.behind = [])
    (hP : ∀ token rest, p token.lexeme → P (token :: rest) → P rest) {tokens : List Token}
    (h : P tokens) (line : Nat) :
    Cursor.skipWhile p (move.line line) (tokens.map move.token ++ move.behind) =
        move.cursor (Cursor.skipWhile p line tokens) ∧
      P (Cursor.skipWhile p line tokens).rest := by
  induction tokens generalizing line with
  | nil =>
    refine ⟨?_, h⟩
    simp [Cursor.skipWhile, Relocation.cursor, hroom h]
  | cons token rest ih =>
    rw [List.map_cons, List.cons_append, Cursor.skipWhile, Cursor.skipWhile, move.lexeme_token]
    by_cases hp : p token.lexeme
    · rw [if_pos hp, if_pos hp, move.line_token]
      exact ih (hP token rest hp h) _
    · rw [if_neg hp, if_neg hp]
      exact ⟨rfl, h⟩

namespace Track

theorem skipQualifiers (h : Track move scope scope' P) (hc : P cursor.rest) :
    (move.cursor cursor).skipQualifiers = move.cursor cursor.skipQualifiers ∧
      P cursor.skipQualifiers.rest := by
  refine skipWhile_moves h.room (fun token rest hi hP => h.plain token rest ?_ hP) hc _
  rintro c - hl
  rw [hl] at hi
  cases hi

end Track

theorem length_skipQualifiers (cursor : Cursor) :
    cursor.skipQualifiers.rest.length ≤ cursor.rest.length :=
  (Cursor.skipWhile_suffix _ _ _).length_le

theorem declarator_moves (h : Track move scope scope' P) (hcomma : Passes ',' P P)
    (hend : Passes ';' P P) (declaration typeName : String) (hc : P cursor.rest) :
    Moves move (move.result (Cursor.Turn.map (FieldDeclaration.mapPlace move.place)))
      (TurnsTo P P cursor) (declarator scope declaration typeName () cursor)
      (declarator scope' declaration typeName () (move.cursor cursor)) := by
  unfold declarator
  rw [h.word? hc]
  cases hw : cursor.word? with
  | none => exact h.malformed (h.line_behind hc) _ _
  | some found =>
    obtain ⟨token, name, named⟩ := found
    have hnamed := h.word hc hw
    have hlt := length_of_word? hw
    dsimp only [Option.map_some]
    refine (arrayLength_moves (h.within named.rest.length) ⟨hnamed, Nat.le_refl _⟩ _ _).bind ?_
    rintro ⟨length, behind⟩ ⟨hbehind, hle⟩
    dsimp only [Relocation.result, id] at hbehind hle ⊢
    rw [h.eat? hbehind, h.eat? hbehind, h.locate]
    cases he : behind.eat? ',' with
    | some final =>
      have hle := length_of_eat? he
      exact moves_pure rfl ⟨hcomma.eat hbehind he, by omega⟩
    | none =>
      cases he : behind.eat? ';' with
      | some final => exact moves_pure rfl (hend.eat hbehind he)
      | none => exact h.malformed rfl _ _

theorem memberLayout_moves (h : Track move scope scope' P) (hcomma : Passes ',' P P)
    (hparen : Passes ')' P P) (declaration : String) (hc : P cursor.rest) :
    Moves move move.cursor (fun final => P final.rest) (memberLayout scope declaration cursor)
      (memberLayout scope' declaration (move.cursor cursor)) := by
  unfold memberLayout
  rw [h.word? hc]
  cases hw : cursor.word? with
  | none => exact moves_pure rfl hc
  | some found =>
    obtain ⟨token, name, named⟩ := found
    dsimp only [Option.map_some]
    by_cases hlayout : name = "layout"
    · subst hlayout
      refine (LayoutList.read_moves h hcomma hparen declaration (h.word hc hw)).bind ?_
      rintro ⟨list, final⟩ hfinal
      refine (moves_note (by rw [h.file]; rfl)).bind fun _ _ => ?_
      obtain ⟨hskip, hskipped⟩ := h.skipQualifiers hfinal
      exact moves_pure hskip hskipped
    · simp only [Option.some.injEq, Prod.mk.injEq, hlayout, false_and, and_false, imp_self,
        implies_true]
      exact moves_pure rfl hc

/-- Inside a group all marks but braces may be read. -/
structure Enclosed (P : List Token → Prop) : Prop where
  comma : Passes ',' P P
  paren : Passes ')' P P
  semicolon : Passes ';' P P

theorem memberGroup_moves (h : Track move scope scope' P) (hi : Enclosed P)
    (hclose : Passes '}' P Q) (declaration : String) (hc : P cursor.rest) :
    Moves move (move.result (Cursor.Turn.map (List.map (FieldDeclaration.mapPlace move.place))))
      (TurnsTo P Q cursor) (memberGroup scope declaration () cursor)
      (memberGroup scope' declaration () (move.cursor cursor)) := by
  unfold memberGroup
  obtain ⟨hskip, hskipped⟩ := h.skipQualifiers hc
  have hle := length_skipQualifiers cursor
  rw [hskip]
  refine (memberLayout_moves (h.within cursor.rest.length) ?_ ?_ declaration ⟨hskipped, hle⟩).bind ?_
  · exact fun token rest hm hP => ⟨hi.comma token rest hm hP.1, Nat.le_of_succ_le hP.2⟩
  · exact fun token rest hm hP => ⟨hi.paren token rest hm hP.1, Nat.le_of_succ_le hP.2⟩
  rintro inner ⟨hinner, hle⟩
  rw [h.next? hinner]
  cases hn : inner.next? with
  | none => exact h.malformed rfl _ _
  | some found =>
    obtain ⟨token, behind⟩ := found
    have hr := (Cursor.next?_eq_some_iff.1 hn).1
    have hlt := length_of_next? hn
    dsimp only [Option.map_some]
    rw [move.lexeme_token]
    cases hm : token.lexeme with
    | number text => exact h.malformed rfl _ _
    | punct c =>
      by_cases hend : c = '}'
      · subst hend
        exact moves_pure rfl (hclose token _ hm (hr ▸ hinner))
      · simp only [Lexeme.punct.injEq, hend, imp_self]
        exact h.malformed rfl _ _
    | word typeName =>
      by_cases hstruct : typeName = "struct"
      · subst hstruct
        exact h.malformed rfl _ _
      · simp only
        refine (loop_moves (Q := fun tokens => P tokens ∧ tokens.length ≤ behind.rest.length)
          (fun _ _ hc => declarator_moves (h.within behind.rest.length) ?_ ?_ declaration typeName hc)
          () ⟨h.behind hinner hn (by simp [hm]), Nat.le_refl _⟩).bind ?_
        · exact fun token rest hm hP => ⟨hi.comma token rest hm hP.1, Nat.le_of_succ_le hP.2⟩
        · exact fun token rest hm hP => ⟨hi.semicolon token rest hm hP.1, Nat.le_of_succ_le hP.2⟩
        rintro ⟨fields, final⟩ ⟨hfinal, hle'⟩
        exact moves_pure rfl ⟨hfinal, (hle'.trans_lt hlt).trans_le hle⟩

theorem members_moves (h : Track move scope scope' P) (hi : Enclosed P)
    (hclose : Passes '}' P Q) (declaration : String) (hc : P cursor.rest) :
    Moves move (move.result (List.map (FieldDeclaration.mapPlace move.place)))
      (fun found => Q found.2.rest) (members scope declaration cursor)
      (members scope' declaration (move.cursor cursor)) := by
  unfold members
  refine (loop_moves (fun _ _ hc => memberGroup_moves h hi hclose declaration hc) () hc).bind ?_
  rintro ⟨groups, final⟩ hfinal
  refine moves_pure ?_ hfinal
  simp [Relocation.result, List.map_flatten]

end Source

end UniformLayout
