import UniformLayout.Proofs.Source.Lines
import UniformLayout.Proofs.Source.Reading
import UniformLayout.Proofs.Source.Writing

/-!
# Two readings side by side

Two sources differ in one group of braces. As long as their readings are in front of the group they have
the same tokens to read, and behind it the same tokens up to columns. A reader that stops at the group,
or never meets it, does the same in both.

* `Swap`: two groups of which one may stand in the place of the other.
* `Swap.Twin`: two cursors that are near to each other, in front of the groups or behind them. Of the
  lexemes between the cursors and the groups a property `P` is known.
* `Tally`: two readers fail alike, or give results that look alike and stop at cursors near to each
  other; one lemma for each reader.

Main statements: `loop_tally` and `members_tally`.
-/

namespace UniformLayout.Source

open Logged

/-! ## Braces -/

/-- The groups that are open behind the lexemes, if each brace that closes has one to close. -/
def nesting? : Nat → List Lexeme → Option Nat
  | groups, [] => some groups
  | groups, .punct '{' :: rest => nesting? (groups + 1) rest
  | 0, .punct '}' :: _ => none
  | groups + 1, .punct '}' :: rest => nesting? groups rest
  | groups, _ :: rest => nesting? groups rest

theorem nesting?_plain {lexeme : Lexeme} (hopen : lexeme ≠ .punct '{')
    (hclose : lexeme ≠ .punct '}') (groups : Nat) (rest : List Lexeme) :
    nesting? groups (lexeme :: rest) = nesting? groups rest := by
  rw [nesting?]
  · exact hopen
  · exact fun _ => hclose
  · exact fun _ _ => hclose

/-! ## Swapped groups -/

/-- The tokens from a group's inside on. -/
structure Group where
  inner : List Token
  closing : Token
  behind : List Token
  closes : closing.lexeme = .punct '}'
  balanced : nesting? 0 (inner.map Token.lexeme) = some 0

def Group.tokens (opening : Token) (group : Group) : List Token :=
  opening :: (group.inner ++ group.closing :: group.behind)

/-- Two groups that one may stand in the place of the other: behind them follow the same tokens, up to
columns. -/
structure Swap where
  opening : Token
  first : Group
  second : Group
  opens : opening.lexeme = .punct '{'
  line : first.closing.line = second.closing.line
  behind : first.behind.map Token.onLine = second.behind.map Token.onLine

namespace Swap

variable {swap : Swap} {P Q : List Lexeme → Prop} {tokens tokens' : List Token}

/-- Two readings have the same tokens to read up to the group, and `P` holds of these; or both are
behind the group. -/
def Near (swap : Swap) (P : List Lexeme → Prop) (tokens tokens' : List Token) : Prop :=
  (∃ front : List Token, P (front.map Token.lexeme) ∧
      tokens = front ++ swap.first.tokens swap.opening ∧
      tokens' = front ++ swap.second.tokens swap.opening) ∨
    (tokens <:+ swap.first.behind ∧ tokens' <:+ swap.second.behind ∧
      tokens.map Token.onLine = tokens'.map Token.onLine)

theorem Near.mono (h : swap.Near P tokens tokens') (hPQ : ∀ front, P front → Q front) :
    swap.Near Q tokens tokens' := by
  rcases h with ⟨front, hP, hfirst, hsecond⟩ | hbehind
  · exact Or.inl ⟨front, hPQ _ hP, hfirst, hsecond⟩
  · exact Or.inr hbehind

theorem near_behind : swap.Near P swap.first.behind swap.second.behind :=
  Or.inr ⟨List.suffix_refl _, List.suffix_refl _, swap.behind⟩

/-- Both readings are at the end, or both have a token. Unless it opens the group, what follows is
near again. -/
theorem Near.cases (h : swap.Near P tokens tokens') : (tokens = [] ∧ tokens' = []) ∨
    ∃ token token' rest rest', tokens = token :: rest ∧ tokens' = token' :: rest' ∧
      token.onLine = token'.onLine ∧ ((token.lexeme = .punct '{' → ¬ P []) →
        swap.Near (fun front => P (token.lexeme :: front)) rest rest') := by
  rcases h with ⟨front, hP, rfl, rfl⟩ | ⟨hfirst, hsecond, hsame⟩
  · cases front with
    | nil => exact Or.inr ⟨_, _, _, _, rfl, rfl, rfl, fun hopen => absurd hP (hopen swap.opens)⟩
    | cons token front =>
      exact Or.inr ⟨_, _, _, _, rfl, rfl, rfl, fun _ => Or.inl ⟨front, hP, rfl, rfl⟩⟩
  · cases tokens with
    | nil => exact Or.inl ⟨rfl, List.map_eq_nil_iff.1 hsame.symm⟩
    | cons token rest =>
      obtain ⟨token', rest', rfl, htoken, hrest⟩ := List.map_eq_cons_iff.1 hsame.symm
      exact Or.inr ⟨_, _, _, _, rfl, rfl, htoken.symm, fun _ => Or.inr
        ⟨(List.suffix_cons _ _).trans hfirst, (List.suffix_cons _ _).trans hsecond, hrest.symm⟩⟩

/-- Behind a brace that opens a group both are near again, unless it is the group that differs. -/
theorem Near.opened {token token' : Token} {rest rest' : List Token}
    (h : swap.Near P (token :: rest) (token' :: rest')) :
    swap.Near (fun front => P (token.lexeme :: front)) rest rest' ∨
      (P [] ∧ rest = swap.first.inner ++ swap.first.closing :: swap.first.behind ∧
        rest' = swap.second.inner ++ swap.second.closing :: swap.second.behind) := by
  rcases h with ⟨front, hP, hfirst, hsecond⟩ | ⟨hfirst, hsecond, hsame⟩
  · cases front with
    | nil => exact Or.inr ⟨hP, (List.cons.inj hfirst).2, (List.cons.inj hsecond).2⟩
    | cons _ front =>
      obtain ⟨rfl, rfl⟩ := List.cons.inj hfirst
      exact Or.inl (Or.inl ⟨front, hP, rfl, (List.cons.inj hsecond).2⟩)
  · exact Or.inl (Or.inr ⟨(List.suffix_cons _ _).trans hfirst, (List.suffix_cons _ _).trans hsecond,
      (List.cons.inj hsame).2⟩)

/-- What one reading has consumed the other has consumed too. -/
theorem Near.length_lt {later later' : List Token} (h : swap.Near P tokens tokens')
    (hl : swap.Near Q later later') :
    later.length < tokens.length ↔ later'.length < tokens'.length := by
  rcases h with ⟨front, -, rfl, rfl⟩ | ⟨hfirst, hsecond, hsame⟩
  · rcases hl with ⟨front', -, rfl, rfl⟩ | ⟨hfirst', hsecond', -⟩
    · simp
    · have hlength := hfirst'.length_le
      have hlength' := hsecond'.length_le
      simp only [Group.tokens, List.length_append, List.length_cons]
      omega
  · have hlength := congrArg List.length hsame
    have hsuffix := hfirst.length_le
    have hsuffix' := hsecond.length_le
    simp only [List.length_map] at hlength
    rcases hl with ⟨front', -, rfl, rfl⟩ | ⟨-, -, hsame'⟩
    · simp only [Group.tokens, List.length_append, List.length_cons]
      omega
    · have hlength' := congrArg List.length hsame'
      simp only [List.length_map] at hlength'
      omega

/-- Two cursors on the same line, near to each other. -/
structure Twin (swap : Swap) (P : List Lexeme → Prop) (cursor cursor' : Cursor) : Prop where
  line : cursor.line = cursor'.line
  rest : swap.Near P cursor.rest cursor'.rest

end Swap

/-- Two scopes name the same file, and what stands for a number stands for the same in both. No brace
does. -/
structure Scope.Alike (scope scope' : Scope) : Prop where
  file : scope.file = scope'.file
  number : ∀ text, scope.constants.resolve? text = scope'.constants.resolve? text
  brace : ∀ c ∈ ['{', '}'], scope.constants.resolve? c.toString = none

variable {swap : Swap} {P Q : List Lexeme → Prop} {cursor cursor' : Cursor} {scope scope' : Scope}

open Swap

namespace Swap.Twin

theorem mono (h : swap.Twin P cursor cursor') (hPQ : ∀ front, P front → Q front) :
    swap.Twin Q cursor cursor' :=
  ⟨h.line, h.rest.mono hPQ⟩

theorem next? (h : swap.Twin P cursor cursor') :
    (cursor.next? = none ∧ cursor'.next? = none) ∨
      ∃ token token' next next', cursor.next? = some (token, next) ∧
        cursor'.next? = some (token', next') ∧ token.onLine = token'.onLine ∧
        next.line = next'.line ∧ ((token.lexeme = .punct '{' → ¬ P []) →
          swap.Twin (fun front => P (token.lexeme :: front)) next next') := by
  rcases h.rest.cases with ⟨hend, hend'⟩ | ⟨token, token', rest, rest', hr, hr', htoken, hnear⟩
  · exact Or.inl ⟨by simp [Cursor.next?, hend], by simp [Cursor.next?, hend']⟩
  · have hline := (Token.onLine_eq_iff.1 htoken).2.1
    exact Or.inr ⟨token, token', ⟨token.line, rest⟩, ⟨token'.line, rest'⟩,
      by simp [Cursor.next?, hr], by simp [Cursor.next?, hr'], htoken, hline,
      fun hopen => ⟨hline, hnear hopen⟩⟩

theorem eat? (h : swap.Twin P cursor cursor') {c : Char} (hc : c ≠ '{') :
    (cursor.eat? c = none ∧ cursor'.eat? c = none) ∨
      ∃ next next', cursor.eat? c = some next ∧ cursor'.eat? c = some next' ∧
        swap.Twin (fun front => P (.punct c :: front)) next next' := by
  rcases h.rest.cases with ⟨hend, hend'⟩ | ⟨token, token', rest, rest', hr, hr', htoken, hnear⟩
  · exact Or.inl ⟨by simp [Cursor.eat?, hend], by simp [Cursor.eat?, hend']⟩
  · obtain ⟨hlexeme, hline, -⟩ := Token.onLine_eq_iff.1 htoken
    by_cases hm : token.lexeme = .punct c
    · refine Or.inr ⟨⟨token.line, rest⟩, ⟨token'.line, rest'⟩, by simp [Cursor.eat?, hr, hm],
        by simp [Cursor.eat?, hr', ← hlexeme, hm], hline, ?_⟩
      rw [hm] at hnear
      exact hnear fun hopen => absurd (Lexeme.punct.inj hopen) hc
    · exact Or.inl ⟨by simp [Cursor.eat?, hr, hm], by simp [Cursor.eat?, hr', ← hlexeme, hm]⟩

theorem word? (h : swap.Twin P cursor cursor') :
    (cursor.word? = none ∧ cursor'.word? = none) ∨
      ∃ token token' name next next', cursor.word? = some (token, name, next) ∧
        cursor'.word? = some (token', name, next') ∧ token.onLine = token'.onLine ∧
        swap.Twin (fun front => P (.word name :: front)) next next' := by
  rcases h.rest.cases with ⟨hend, hend'⟩ | ⟨token, token', rest, rest', hr, hr', htoken, hnear⟩
  · exact Or.inl ⟨by simp [Cursor.word?, hend], by simp [Cursor.word?, hend']⟩
  · obtain ⟨hlexeme, hline, -⟩ := Token.onLine_eq_iff.1 htoken
    cases hm : token.lexeme with
    | word name =>
      rw [hm] at hlexeme hnear
      exact Or.inr ⟨token, token', name, ⟨token.line, rest⟩, ⟨token'.line, rest'⟩,
        by simp [Cursor.word?, hr, hm], by simp [Cursor.word?, hr', ← hlexeme], htoken, hline,
        hnear fun hopen => by cases hopen⟩
    | number text =>
      rw [hm] at hlexeme
      exact Or.inl ⟨by simp [Cursor.word?, hr, hm], by simp [Cursor.word?, hr', ← hlexeme]⟩
    | punct c =>
      rw [hm] at hlexeme
      exact Or.inl ⟨by simp [Cursor.word?, hr, hm], by simp [Cursor.word?, hr', ← hlexeme]⟩

theorem peek? (h : swap.Twin P cursor cursor') : cursor.peek? = cursor'.peek? := by
  rcases h.rest.cases with ⟨hend, hend'⟩ | ⟨token, token', rest, rest', hr, hr', htoken, -⟩
  · simp [Cursor.peek?, hend, hend']
  · simp [Cursor.peek?, hr, hr', (Token.onLine_eq_iff.1 htoken).1]

end Swap.Twin

theorem agree_malformed {α β : Type} {R : α → β → Prop} (hs : scope.Alike scope')
    (hline : cursor.line = cursor'.line) (declaration : String) (reason : Malformation) :
    Agree R (scope.malformed cursor declaration reason)
      (scope'.malformed cursor' declaration reason) :=
  agree_throw (by rw [hs.file, hline])

/-- What holds of the lexemes up to the group holds also when they are read, except for some marks. -/
def Steady (marks : List Char) (P : List Lexeme → Prop) : Prop :=
  ∀ lexeme front, (∀ c ∈ marks, lexeme ≠ .punct c) → P (lexeme :: front) → P front

theorem Steady.mono {marks more : List Char} (h : Steady marks P) (hsub : marks ⊆ more) :
    Steady more P :=
  fun lexeme front hl => h lexeme front fun c hc => hl c (hsub hc)

theorem Steady.mark {marks : List Char} (h : Steady marks P) {c : Char} (hc : c ∉ marks)
    (front : List Lexeme) : P (.punct c :: front) → P front :=
  h _ front fun _ hmark heq => hc (Lexeme.punct.inj heq ▸ hmark)

/-- Two readers give results that look alike and stop at cursors near to each other. -/
def Tally {α γ : Type} (swap : Swap) (view : α → γ) (Q : List Lexeme → Prop)
    (x y : Reading (α × Cursor)) : Prop :=
  Agree (fun a b => view a.1 = view b.1 ∧ swap.Twin Q a.2 b.2) x y

/-- What is read behind the number in brackets. -/
def lengthEnd (scope : Scope) (declaration field : String) (inside : Cursor) (length : Nat) :
    Reading (Option Nat × Cursor) := do
  let some closed := inside.eat? ']'
    | scope.malformed inside declaration (.compoundLength field)
  if length = 0 then scope.malformed closed declaration (.zeroLength field)
  else if closed.peek? = some (.punct '[') then
    scope.malformed closed declaration (.nestedLength field)
  else return (some length, closed)

/-- The number that is written in brackets, and what is read behind it. -/
def lengthOf (scope : Scope) (declaration field : String) (inside : Cursor) (text : String) :
    Reading (Option Nat × Cursor) :=
  match scope.constants.resolve? text with
  | some length => lengthEnd scope declaration field inside length
  | none => scope.malformed inside declaration (.unknownLength text field)

theorem arrayLength_eq (declaration field : String) :
    arrayLength scope declaration field cursor =
      match cursor.eat? '[' with
      | none => pure (none, cursor)
      | some opened =>
        match opened.next? with
        | none => scope.malformed opened declaration (.unterminatedLength field)
        | some (token, inside) =>
          match token.lexeme with
          | .punct c => scope.malformed inside declaration
              (if c = ']' then .missingLength field else .symbolicLength field)
          | .word text | .number text => lengthOf scope declaration field inside text := by
  unfold arrayLength lengthOf lengthEnd
  cases cursor.eat? '[' with
  | none => rfl
  | some opened =>
    cases hn : opened.next? with
    | none => simp [hn]
    | some found =>
      obtain ⟨token, inside⟩ := found
      simp only [hn]
      cases token.lexeme with
      | punct c =>
        by_cases hc : c = ']'
        · subst hc
          rfl
        · simp only [hc]
          rfl
      | word text =>
        dsimp only
        cases scope.constants.resolve? text with
        | none => rfl
        | some length => rfl
      | number text =>
        dsimp only
        cases scope.constants.resolve? text with
        | none => rfl
        | some length => rfl

theorem lengthOf_tally (hs : scope.Alike scope') (h : swap.Twin P cursor cursor')
    (hP : ∀ front, P (.punct ']' :: front) → P front) (declaration field text : String) :
    Tally swap id P (lengthOf scope declaration field cursor text)
      (lengthOf scope' declaration field cursor' text) := by
  unfold lengthOf lengthEnd
  rw [← hs.number]
  cases scope.constants.resolve? text with
  | none => exact agree_malformed hs h.line _ _
  | some length =>
    dsimp only
    rcases h.eat? (c := ']') (by decide) with ⟨hc, hc'⟩ | ⟨closed, closed', hc, hc', hclosed⟩
    · rw [hc, hc']
      exact agree_malformed hs h.line _ _
    · rw [hc, hc']
      dsimp only
      rw [hclosed.peek?]
      split
      · exact agree_malformed hs hclosed.line _ _
      · split
        · exact agree_malformed hs hclosed.line _ _
        · exact agree_pure ⟨rfl, hclosed.mono hP⟩

theorem arrayLength_tally (hs : scope.Alike scope') (h : swap.Twin P cursor cursor')
    (hP : Steady ['{', '}', ';'] P)
    (declaration field : String) :
    Tally swap id P (arrayLength scope declaration field cursor)
      (arrayLength scope' declaration field cursor') := by
  rw [arrayLength_eq, arrayLength_eq]
  rcases h.eat? (c := '[') (by decide) with ⟨he, he'⟩ | ⟨opened, opened', he, he', hopened⟩
  · rw [he, he']
    exact agree_pure ⟨rfl, h⟩
  · rw [he, he']
    dsimp only
    rcases hopened.next? with ⟨hn, hn'⟩ | ⟨token, token', inside, inside', hn, hn', htoken, hline, hinside⟩
    · rw [hn, hn']
      exact agree_malformed hs hopened.line _ _
    · rw [hn, hn']
      dsimp only
      rw [← (Token.onLine_eq_iff.1 htoken).1]
      have hinside : token.lexeme.isMark = false → swap.Twin P inside inside' := by
        intro hm
        have hplain : ∀ c, token.lexeme ≠ .punct c := by
          rintro c hc
          rw [hc] at hm
          cases hm
        refine (hinside fun hopen => absurd hopen (hplain _)).mono fun front hf => ?_
        exact hP _ _ (fun c _ => hplain c) (hP.mark (by decide) _ hf)
      cases hm : token.lexeme with
      | punct c => exact agree_malformed hs hline _ _
      | word text =>
        exact lengthOf_tally hs (hinside (by rw [hm]; rfl)) (hP.mark (by decide)) _ _ _
      | number text =>
        exact lengthOf_tally hs (hinside (by rw [hm]; rfl)) (hP.mark (by decide)) _ _ _

/-! ## Loops -/

section Loop

variable {σ α γ : Type} {view : α → γ} {step step' : σ → Cursor → Reading (Cursor.Turn σ α × Cursor)}

/-- Two turns of a loop decide alike. Where they go on the cursors are near by `P`, where they end by
`Q`. -/
inductive Turns (swap : Swap) (view : α → γ) (P Q : List Lexeme → Prop) :
    Cursor.Turn σ α × Cursor → Cursor.Turn σ α × Cursor → Prop
  | again {item item' : α} {state : σ} {next next' : Cursor} :
    view item = view item' → swap.Twin P next next' →
      Turns swap view P Q (.again item state, next) (.again item' state, next')
  | last {item item' : α} {next next' : Cursor} : view item = view item' → swap.Twin Q next next' →
      Turns swap view P Q (.last item, next) (.last item', next')
  | done {next next' : Cursor} : swap.Twin Q next next' →
      Turns swap view P Q (.done, next) (.done, next')

/-- Loops of steps that decide alike give items that look alike. -/
theorem loop_tally (hPQ : ∀ front, P front → Q front)
    (hstep : ∀ state cursor cursor', swap.Twin P cursor cursor' →
      Agree (Turns swap view P Q) (step state cursor) (step' state cursor'))
    (state : σ) (h : swap.Twin P cursor cursor') :
    Tally swap (List.map view) Q (Cursor.loop step state cursor)
      (Cursor.loop step' state cursor') := by
  induction hn : cursor.rest.length using Nat.strongRecOn generalizing state cursor cursor' with
  | ind n ih =>
    subst hn
    rw [Cursor.loop.eq_1 step state cursor, Cursor.loop.eq_1 step' state cursor']
    refine (hstep state cursor cursor' h).bind fun turn turn' hturn => ?_
    cases hturn with
    | @again item item' after next next' hitem hnext =>
      dsimp only
      by_cases hlt : next.rest.length < cursor.rest.length
      · rw [if_pos hlt, if_pos ((h.rest.length_lt hnext.rest).1 hlt)]
        refine (ih _ hlt after hnext rfl).bind fun more more' hmore => ?_
        exact agree_pure ⟨by simp [hitem, hmore.1], hmore.2⟩
      · rw [if_neg hlt, if_neg fun hlt' => hlt ((h.rest.length_lt hnext.rest).2 hlt')]
        exact agree_pure ⟨by simp [hitem], hnext.mono hPQ⟩
    | last hitem hnext => exact agree_pure ⟨by simp [hitem], hnext⟩
    | done hnext => exact agree_pure ⟨rfl, hnext⟩

end Loop

/-! ## Members -/

namespace LayoutList

theorem entry_tally (hs : scope.Alike scope') (declaration : String)
    (hP : Steady ['{', '}'] P)
    (h : swap.Twin P cursor cursor') :
    Agree (Turns swap id P P) (entry scope declaration () cursor)
      (entry scope' declaration () cursor') := by
  unfold entry
  rcases h.next? with ⟨hn, hn'⟩ | ⟨token, token', behind, behind', hn, hn', htoken, hline, hbehind⟩
  · rw [hn, hn']
    exact agree_malformed hs h.line _ _
  · rw [hn, hn']
    dsimp only
    rw [← (Token.onLine_eq_iff.1 htoken).1]
    cases hm : token.lexeme with
    | punct c => 
      rw [hm] at hbehind
      by_cases hclose : c = ')'
      · subst hclose
        exact agree_pure (.done ((hbehind (by simp)).mono (hP.mark (by decide))))
      · by_cases hcomma : c = ','
        · subst hcomma
          exact agree_pure (.again rfl ((hbehind (by simp)).mono (hP.mark (by decide))))
        · simp only [Lexeme.punct.injEq, hclose, hcomma, imp_self]
          exact agree_malformed hs hline _ _
    | number text => exact agree_malformed hs hline _ _
    | word name =>
      rw [hm] at hbehind
      have hbehind := (hbehind (by simp)).mono (hP _ · (by simp))
      dsimp only
      rcases hbehind.eat? (c := '=') (by decide) with ⟨he, he'⟩ | ⟨assigned, assigned', he, he', ha⟩
      · rw [he, he']
        exact agree_pure (.again rfl hbehind)
      · rw [he, he']
        dsimp only
        have ha := ha.mono (hP.mark (by decide))
        rcases ha.next? with ⟨hn, hn'⟩ | ⟨value, value', final, final', hn, hn', hvalue, hline, hfinal⟩
        · rw [hn, hn']
          exact agree_malformed hs ha.line _ _
        · rw [hn, hn']
          dsimp only
          have htext : value.text = value'.text := congrArg Lexeme.text (Token.onLine_eq_iff.1 hvalue).1
          rw [← htext, ← hs.number]
          cases hr : scope.constants.resolve? value.text with
          | none => exact agree_malformed hs hline _ _
          | some number =>
            -- No brace stands for a number, so the value is none.
            have hplain : ∀ c ∈ ['{', '}'], value.lexeme ≠ .punct c := by
              intro c hc hv
              rw [Token.text, hv, Lexeme.text, hs.brace c hc] at hr
              cases hr
            exact agree_pure (.again rfl
              ((hfinal fun hopen => absurd hopen (hplain _ (by decide))).mono (hP _ · hplain)))

theorem read_tally (hs : scope.Alike scope') (declaration : String)
    (hP : Steady ['{', '}'] P)
    (h : swap.Twin P cursor cursor') :
    Tally swap id P (read scope declaration cursor) (read scope' declaration cursor') := by
  unfold read
  rcases h.eat? (c := '(') (by decide) with ⟨he, he'⟩ | ⟨opened, opened', he, he', ho⟩
  · rw [he, he']
    exact agree_malformed hs h.line _ _
  · rw [he, he']
    refine (loop_tally (fun _ hf => hf) (fun _ _ _ hc => entry_tally hs declaration hP hc) ()
      (ho.mono (hP.mark (by decide)))).bind ?_
    rintro ⟨entries, closed⟩ ⟨entries', closed'⟩ ⟨hentries, hclosed⟩
    obtain rfl : entries = entries' := by simpa using hentries
    exact agree_pure ⟨rfl, hclosed⟩

end LayoutList

theorem skipWhile_twin {p : Lexeme → Bool} {tokens tokens' : List Token} {line line' : Nat}
    (hopen : p (.punct '{') → ¬ P []) (hP : ∀ lexeme front, p lexeme → P (lexeme :: front) → P front)
    (h : swap.Near P tokens tokens') (hline : line = line') :
    swap.Twin P (Cursor.skipWhile p line tokens) (Cursor.skipWhile p line' tokens') := by
  induction tokens generalizing tokens' line line' with
  | nil =>
    rcases h.cases with ⟨-, rfl⟩ | ⟨_, _, _, _, hr, -⟩
    · exact ⟨hline, h⟩
    · cases hr
  | cons token rest ih =>
    rcases h.cases with ⟨hr, -⟩ | ⟨_, token', _, rest', hr, rfl, htoken, hrest⟩
    · cases hr
    · cases hr
      obtain ⟨hlexeme, hlines, -⟩ := Token.onLine_eq_iff.1 htoken
      rw [Cursor.skipWhile, Cursor.skipWhile, ← hlexeme]
      by_cases hp : p token.lexeme
      · rw [if_pos hp, if_pos hp]
        exact ih ((hrest fun ho => hopen (ho ▸ hp)).mono fun front => hP _ front hp) hlines
      · rw [if_neg hp, if_neg hp]
        exact ⟨hline, h⟩

/-- A qualifier without an effect on the layout. -/
def isIdle : Lexeme → Bool
  | .word text => Cursor.idleQualifiers.contains text
  | _ => false

theorem skipQualifiers_twin (hP : ∀ lexeme front, isIdle lexeme → P (lexeme :: front) → P front)
    (h : swap.Twin P cursor cursor') : swap.Twin P cursor.skipQualifiers cursor'.skipQualifiers :=
  skipWhile_twin (fun ho => by cases ho) hP h.rest h.line

theorem Steady.idle (hP : Steady ['{', '}'] P) :
    ∀ lexeme front, isIdle lexeme → P (lexeme :: front) → P front := by
  intro lexeme front hi
  refine hP lexeme front ?_
  rintro c - rfl
  cases hi

theorem line_behind (h : swap.Twin P cursor cursor') :
    ((cursor.next?.map Prod.snd).getD cursor).line =
      ((cursor'.next?.map Prod.snd).getD cursor').line := by
  rcases h.next? with ⟨hn, hn'⟩ | ⟨_, _, next, next', hn, hn', -, hline, -⟩
  · rw [hn, hn']
    exact h.line
  · rw [hn, hn']
    exact hline

theorem declarator_tally (hs : scope.Alike scope') (hP : Steady ['{', '}'] P)
    (declaration typeName : String) (h : swap.Twin P cursor cursor') :
    Agree (Turns swap FieldDeclaration.onLine P P) (declarator scope declaration typeName () cursor)
      (declarator scope' declaration typeName () cursor') := by
  unfold declarator
  rcases h.word? with ⟨hw, hw'⟩ | ⟨token, token', name, named, named', hw, hw', htoken, hnamed⟩
  · rw [hw, hw']
    exact agree_malformed hs (line_behind h) _ _
  · rw [hw, hw']
    dsimp only
    refine (arrayLength_tally hs (hnamed.mono (hP _ · (by simp))) (hP.mono (by decide)) _ _).bind ?_
    rintro ⟨length, behind⟩ ⟨length', behind'⟩ ⟨hlength, hbehind⟩
    dsimp only [id] at hlength hbehind ⊢
    subst hlength
    have hfield : FieldDeclaration.onLine
          { typeName, name, arrayLength := length, source := scope.locate token } =
        FieldDeclaration.onLine
          { typeName, name, arrayLength := length, source := scope'.locate token' } := by
      simp [FieldDeclaration.onLine, Scope.locate_onLine hs.file htoken]
    rcases hbehind.eat? (c := ',') (by decide) with ⟨he, he'⟩ | ⟨final, final', he, he', hfinal⟩
    · rw [he, he']
      dsimp only
      rcases hbehind.eat? (c := ';') (by decide) with ⟨he, he'⟩ | ⟨final, final', he, he', hfinal⟩
      · rw [he, he']
        exact agree_malformed hs hbehind.line _ _
      · rw [he, he']
        exact agree_pure (.last hfield (hfinal.mono (hP.mark (by decide))))
    · rw [he, he']
      exact agree_pure (.again hfield (hfinal.mono (hP.mark (by decide))))

theorem memberLayout_agree (hs : scope.Alike scope') (hP : Steady ['{', '}'] P)
    (declaration : String) (h : swap.Twin P cursor cursor') :
    Agree (swap.Twin P) (memberLayout scope declaration cursor)
      (memberLayout scope' declaration cursor') := by
  unfold memberLayout
  rcases h.word? with ⟨hw, hw'⟩ | ⟨token, token', name, named, named', hw, hw', htoken, hnamed⟩
  · rw [hw, hw']
    exact agree_pure h
  · rw [hw, hw']
    by_cases hlayout : name = "layout"
    · subst hlayout
      refine (LayoutList.read_tally hs declaration hP (hnamed.mono (hP _ · (by simp)))).bind ?_
      rintro ⟨list, final⟩ ⟨list', final'⟩ ⟨-, hfinal⟩
      refine (agree_note (by rw [hs.file])).bind fun _ _ _ => ?_
      exact agree_pure (skipQualifiers_twin hP.idle hfinal)
    · simp only [Option.some.injEq, Prod.mk.injEq, hlayout, false_and, and_false, imp_self,
        implies_true]
      exact agree_pure h

/-- The members of a group are read up to its closing brace, with the same outcome. -/
theorem memberGroup_tally (hs : scope.Alike scope') (hP : Steady ['{', '}'] P) (hsome : ¬ P [])
    (hend : ∀ front, P (.punct '}' :: front) → Q front) (declaration : String)
    (h : swap.Twin P cursor cursor') :
    Agree (Turns swap (List.map FieldDeclaration.onLine) P Q)
      (memberGroup scope declaration () cursor) (memberGroup scope' declaration () cursor') := by
  unfold memberGroup
  refine (memberLayout_agree hs hP declaration (skipQualifiers_twin hP.idle h)).bind ?_
  intro inner inner' hinner
  rcases hinner.next? with ⟨hn, hn'⟩ | ⟨token, token', behind, behind', hn, hn', htoken, hline, hbehind⟩
  · rw [hn, hn']
    exact agree_malformed hs hinner.line _ _
  · rw [hn, hn']
    dsimp only
    rw [← (Token.onLine_eq_iff.1 htoken).1]
    have hbehind := hbehind fun _ => hsome
    cases hm : token.lexeme with
    | number text => exact agree_malformed hs hline _ _
    | punct c =>
      rw [hm] at hbehind
      by_cases hclose : c = '}'
      · subst hclose
        exact agree_pure (.done (hbehind.mono hend))
      · simp only [Lexeme.punct.injEq, hclose, imp_self]
        exact agree_malformed hs hline _ _
    | word typeName =>
      rw [hm] at hbehind
      by_cases hstruct : typeName = "struct"
      · subst hstruct
        exact agree_malformed hs hline _ _
      · simp only
        refine (loop_tally (fun _ hf => hf)
          (fun _ _ _ hc => declarator_tally hs hP declaration typeName hc) ()
          (hbehind.mono (hP _ · (by simp)))).bind ?_
        rintro ⟨fields, final⟩ ⟨fields', final'⟩ ⟨hfields, hfinal⟩
        exact agree_pure (.again hfields hfinal)

theorem members_tally (hs : scope.Alike scope') (hP : Steady ['{', '}'] P) (hsome : ¬ P [])
    (hend : ∀ front, P (.punct '}' :: front) → Q front) (hPQ : ∀ front, P front → Q front)
    (declaration : String) (h : swap.Twin P cursor cursor') :
    Tally swap (List.map FieldDeclaration.onLine) Q (members scope declaration cursor)
      (members scope' declaration cursor') := by
  unfold members
  refine (loop_tally hPQ (fun _ _ _ hc => memberGroup_tally hs hP hsome hend declaration hc) ()
    h).bind ?_
  rintro ⟨groups, final⟩ ⟨groups', final'⟩ ⟨hgroups, hfinal⟩
  refine agree_pure ⟨?_, hfinal⟩
  dsimp only at hgroups ⊢
  rw [List.map_flatten, List.map_flatten, hgroups]

end UniformLayout.Source
