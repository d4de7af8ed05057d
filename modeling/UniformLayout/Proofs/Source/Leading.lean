import UniformLayout.Proofs.Source.Relocated

/-!
# What stands in front of a statement

A statement outside all groups stands behind other statements that have ended, and behind definitions
that end with a group instead of a semicolon. Whatever follows them, they are read in the same way: the
reader fails among them, or it comes to what follows them with what it has found.

* `Ended`: lexemes that end with a semicolon outside all groups.
* `Bodies`: functions, structs and attributes, none of them followed by a semicolon.
* `Outer`: the two of them, one behind the other.
* `Arrives`: what a loop does with tokens, whatever follows them.

Main statement: `Outer.arrives`.
-/

namespace UniformLayout.Source

open Logged

variable {scope : Scope} {line : Nat} {pending : Pending} {front rest : List Token}

/-! ## Tokens with others behind them -/

/-- The tokens stay, and others come behind them. -/
def followedBy (behind : List Token) : Relocation where
  token := id
  line := id
  place := id
  behind := behind
  lexeme_token _ := rfl
  line_token _ := rfl
  locate_token _ _ := rfl

theorem cursor_followedBy (line : Nat) (front behind : List Token) :
    (followedBy behind).cursor ⟨line, front⟩ = ⟨line, front ++ behind⟩ := by
  simp [followedBy, Relocation.cursor]

/-- The result with more tokens behind it. -/
def appended {α : Type} (behind : List Token) (x : Reading (α × Cursor)) : Reading (α × Cursor) :=
  ⟨x.notices, x.result.map fun found => (found.1, ⟨found.2.line, found.2.rest ++ behind⟩)⟩

theorem reading_followedBy {α : Type} {view : α → α} (hview : view = id) (behind : List Token)
    (x : Reading (α × Cursor)) :
    (followedBy behind).reading ((followedBy behind).result view) x = appended behind x := by
  subst hview
  obtain ⟨notices, e | ⟨a, line, rest⟩⟩ := x
  · simp [Relocation.reading, appended, followedBy, Except.map]
  · simp [Relocation.reading, Relocation.result, Relocation.cursor, appended, followedBy, Except.map]

/-! ## Statements that have ended -/

/-- The marks that no constant is named after. -/
def NoNumber (marks : List Char) (scope : Scope) : Prop :=
  ∀ c ∈ marks, scope.constants.resolve? c.toString = none

instance (marks : List Char) (scope : Scope) : Decidable (NoNumber marks scope) :=
  inferInstanceAs (Decidable (∀ c ∈ marks, scope.constants.resolve? c.toString = none))

theorem NoNumber.mono {marks fewer : List Char} (h : NoNumber marks scope)
    (hsub : ∀ c ∈ fewer, c ∈ marks) : NoNumber fewer scope :=
  fun c hc => h c (hsub c hc)

theorem NoNumber.ne {marks : List Char} (h : NoNumber marks scope) {token : Token}
    (hv : (scope.constants.resolve? token.text).isSome) : ∀ c ∈ marks, token.lexeme ≠ .punct c := by
  intro c hc hl
  rw [Token.text, hl, Lexeme.text, h c hc] at hv
  cases hv

/-- With so many groups open in front of them, the tokens end with a semicolon outside all groups; and
no attribute is left open. -/
structure Ended (groups : Nat) (tokens : List Token) : Prop where
  depth : depth groups (tokens.map Token.lexeme) = 0
  last : (tokens.map Token.lexeme).getLast? = some (.punct ';')
  attributes : ∀ rest, rest <:+ tokens.map Token.lexeme → ¬ inAttribute rest

namespace Ended

variable {groups fewer : Nat} {token : Token}

theorem tail (h : Ended groups (token :: rest)) (hd : Source.depth fewer (rest.map Token.lexeme) = 0)
    (hsome : rest ≠ []) : Ended fewer rest where
  depth := hd
  last := by
    have hlast := h.last
    obtain ⟨second, rest, rfl⟩ := List.exists_cons_of_ne_nil hsome
    rwa [List.map_cons, List.map_cons, List.getLast?_cons_cons] at hlast
  attributes suffix hs := h.attributes suffix (hs.trans (List.suffix_cons _ _))

theorem rest_ne_nil (h : Ended groups (token :: rest)) (hl : token.lexeme ≠ .punct ';') :
    rest ≠ [] := by
  rintro rfl
  exact hl (by simpa using h.last)

theorem ne_nil (h : Ended groups rest) : rest ≠ [] := by
  rintro rfl
  cases h.last

/-- Outside all groups any token may be left out in front. -/
theorem next (h : Ended 0 (token :: rest)) (hsome : rest ≠ []) : Ended 0 rest := by
  have hd := h.depth
  rw [List.map_cons] at hd
  refine h.tail ?_ hsome
  by_cases hopen : token.lexeme = .punct '{'
  · rw [hopen, depth_open] at hd
    exact Nat.eq_zero_of_le_zero (hd ▸ depth_mono (Nat.zero_le _) _)
  · by_cases hclose : token.lexeme = .punct '}'
    · rwa [hclose, depth_close] at hd
    · rwa [depth_plain hopen hclose] at hd

theorem behind (h : Ended 0 (front ++ rest)) (hsome : rest ≠ []) : Ended 0 rest := by
  induction front with
  | nil => exact h
  | cons token front ih =>
    refine ih (h.next fun hnil => hsome ?_)
    exact (List.append_eq_nil_iff.1 hnil).2

end Ended

/-! ## Attributes -/

theorem splitAtBracket_eq_some_iff {tokens inside behind : List Token} {close : Token} :
    splitAtBracket tokens = some (inside, close, behind) ↔ tokens = inside ++ close :: behind ∧
      close.lexeme = .punct ']' ∧ ∀ token ∈ inside, token.lexeme ≠ .punct ']' := by
  induction tokens generalizing inside with
  | nil => simp [splitAtBracket]
  | cons token tokens ih =>
    by_cases hc : token.lexeme = .punct ']'
    · rw [splitAtBracket, if_pos hc]
      cases inside with
      | nil =>
        simp only [Option.some.injEq, Prod.mk.injEq, true_and, List.nil_append, List.cons.injEq,
          List.not_mem_nil, false_imp_iff, implies_true, and_true]
        constructor
        · rintro ⟨rfl, rfl⟩
          exact ⟨⟨rfl, rfl⟩, hc⟩
        · exact And.left
      | cons first inside =>
        simp only [Option.some.injEq, Prod.mk.injEq, List.cons_append, List.cons.injEq,
          List.forall_mem_cons, reduceCtorEq, false_and, false_iff]
        rintro ⟨⟨rfl, -⟩, -, hfirst, -⟩
        exact hfirst hc
    · rw [splitAtBracket, if_neg hc, Option.map_eq_some_iff]
      cases inside with
      | nil =>
        simp only [Prod.mk.injEq, reduceCtorEq, false_and, and_false, exists_false, List.nil_append,
          List.cons.injEq, false_iff]
        rintro ⟨⟨rfl, -⟩, hclose, -⟩
        exact hc hclose
      | cons first inside =>
        simp only [Prod.exists, Prod.mk.injEq, List.cons.injEq, List.cons_append,
          List.forall_mem_cons]
        constructor
        · rintro ⟨inside', close', behind', hs, ⟨rfl, rfl⟩, rfl, rfl⟩
          obtain ⟨rfl, hclose, hinside⟩ := ih.1 hs
          exact ⟨⟨rfl, rfl⟩, hclose, hc, hinside⟩
        · rintro ⟨⟨rfl, rfl⟩, hclose, -, hinside⟩
          exact ⟨inside, close, behind, ih.2 ⟨rfl, hclose, hinside⟩, ⟨rfl, rfl⟩, rfl, rfl⟩

/-- An attribute as it is written behind its opening bracket. -/
structure AttributeTokens (name colon : Token) (inside : List Token) (close : Token) (text : String) :
    Prop where
  name : name.lexeme = .word text
  colon : colon.lexeme = .punct ':'
  close : close.lexeme = .punct ']'
  inside : ∀ token ∈ inside, token.lexeme ≠ .punct ']'

theorem AttributeTokens.attribute? {name colon close : Token} {inside : List Token} {text : String}
    (h : AttributeTokens name colon inside close text) (rest : List Token) :
    attribute? (name :: colon :: (inside ++ close :: rest)) =
      some (⟨text, String.ofList (Text.trim (valueText inside close))⟩, ⟨close.line, rest⟩) := by
  have hsplit : splitAtBracket (inside ++ close :: rest) = some (inside, close, rest) :=
    splitAtBracket_eq_some_iff.2 ⟨rfl, h.close, h.inside⟩
  simp only [Source.attribute?, h.name, h.colon, hsplit]
  rfl

theorem attribute?_of_not_word {name : Token} (h : ∀ text, name.lexeme ≠ .word text)
    (rest : List Token) : attribute? (name :: rest) = none := by
  cases rest with
  | nil => rfl
  | cons colon body =>
    cases hn : name.lexeme with
    | word text => exact absurd hn (h text)
    | number text => simp [attribute?, hn]
    | punct c => simp [attribute?, hn]

theorem attribute?_of_not_colon {colon : Token} (h : colon.lexeme ≠ .punct ':') (name : Token)
    (rest : List Token) : attribute? (name :: colon :: rest) = none := by
  cases hn : name.lexeme <;> simp [attribute?, hn, h]

/-- Behind an opening bracket stands an attribute, or none whatever follows the tokens. -/
theorem attribute?_cases {opening : Token} (hopening : opening.lexeme = .punct '[')
    (h : Ended 0 (opening :: rest)) : (∀ behind, attribute? (rest ++ behind) = none) ∨
      ∃ name colon inside close text after, rest = name :: colon :: (inside ++ close :: after) ∧
        AttributeTokens name colon inside close text := by
  have hended := h.next (h.rest_ne_nil (by simp [hopening]))
  match rest, h, hended with
  | [], _, hended => exact absurd rfl hended.ne_nil
  | [name], _, hended =>
    have hend : name.lexeme = .punct ';' := by simpa using hended.last
    exact Or.inl fun behind => attribute?_of_not_word (by simp [hend]) behind
  | name :: colon :: body, h, hended =>
    by_cases hword : ∃ text, name.lexeme = .word text
    · obtain ⟨text, hword⟩ := hword
      by_cases hcolon : colon.lexeme = .punct ':'
      · have hclosed : .punct ']' ∈ body.map Token.lexeme := by
          have hopen := h.attributes _ (List.suffix_refl _)
          simpa [hopening, hword, hcolon, inAttribute] using hopen
        obtain ⟨inside, close, after, -, hsplit⟩ := splitAtBracket_append hclosed
        obtain ⟨hbody, hclose, hinside⟩ := splitAtBracket_eq_some_iff.1 (hsplit [])
        rw [List.append_nil, List.append_nil] at hbody
        exact Or.inr ⟨name, colon, inside, close, text, after, by rw [hbody],
          hword, hcolon, hclose, hinside⟩
      · exact Or.inl fun behind => attribute?_of_not_colon hcolon _ _
    · exact Or.inl fun behind => attribute?_of_not_word (fun text ht => hword ⟨text, ht⟩) _

/-! ## Tokens that have ended -/

/-- What has ended may be followed by anything. -/
theorem trail_followedBy (hmarks : NoNumber ['{', '}', ';'] scope) (behind : List Token) :
    Trail (followedBy behind) scope scope Ended fun tokens => tokens = [] ∨ Ended 0 tokens where
  room groups h := absurd rfl h.ne_nil
  file := rfl
  number _ _ _ _ := rfl
  plain groups token rest hm h := by
    have hd := h.depth
    rw [List.map_cons, depth_plain (hm _ (by decide)) (hm _ (by decide))] at hd
    exact h.tail hd (h.rest_ne_nil (hm _ (by decide)))
  value groups token rest hv h := by
    have hm := hmarks.ne hv
    have hd := h.depth
    rw [List.map_cons, depth_plain (hm _ (by decide)) (hm _ (by decide))] at hd
    exact h.tail hd (h.rest_ne_nil (hm _ (by decide)))
  opened groups token rest hl h := by
    have hd := h.depth
    rw [List.map_cons, hl, depth_open] at hd
    exact h.tail hd (h.rest_ne_nil (by simp [hl]))
  closed groups token rest hl h := by
    have hd := h.depth
    rw [List.map_cons, hl, depth_close] at hd
    exact h.tail hd (h.rest_ne_nil (by simp [hl]))
  inner groups token rest hl h := by
    have hd := h.depth
    rw [List.map_cons, hl, depth_plain (by simp) (by simp)] at hd
    refine h.tail hd ?_
    rintro rfl
    exact Nat.succ_ne_zero groups hd
  ended token rest hl h := by
    by_cases hnil : rest = []
    · exact Or.inl hnil
    · have hd := h.depth
      rw [List.map_cons, hl, depth_plain (by simp) (by simp)] at hd
      exact Or.inr (h.tail hd hnil)
  less groups tokens h :=
    ⟨Nat.eq_zero_of_le_zero (h.depth ▸ depth_mono (Nat.le_succ groups) _), h.last, h.attributes⟩
  final tokens h := Or.inr h
  bracket token rest hl h := by
    rw [show rest.map (followedBy behind).token = rest from List.map_id _]
    rcases attribute?_cases hl h with hnone | ⟨name, colon, inside, close, text, after, rfl, hfound⟩
    · have hself := hnone []
      rw [List.append_nil] at hself
      rw [hself]
      exact ⟨hnone behind, fun _ _ hf => nomatch hf⟩
    · have hsome : after ≠ [] := by
        rintro rfl
        have hlast := h.last
        rw [← List.cons_append, ← List.cons_append, ← List.cons_append, List.map_append,
          List.map_singleton, List.getLast?_concat, hfound.close] at hlast
        exact absurd hlast (by decide)
      have hended : Ended 0 after := by
        have hwhole : Ended 0 ((token :: name :: colon :: (inside ++ [close])) ++ after) := by
          simpa using h
        exact hwhole.behind hsome
      rw [List.cons_append, List.cons_append, List.append_assoc, List.cons_append]
      rw [show (followedBy behind).behind = behind from rfl, hfound.attribute?, hfound.attribute?]
      refine ⟨by rw [Option.map_some, cursor_followedBy], fun found final hf => ?_⟩
      obtain ⟨-, rfl⟩ := Prod.mk.inj (Option.some.inj hf)
      exact hended

/-! ## Coming to a statement -/

/-- Notices and items in front of what else is read. -/
def prefixed {α : Type} (notices : List Notice) (items : List α) (x : Reading (List α × Cursor)) :
    Reading (List α × Cursor) :=
  ⟨notices ++ x.notices, x.result.map fun found => (items ++ found.1, found.2)⟩

theorem prefixed_nil {α : Type} (x : Reading (List α × Cursor)) : prefixed [] [] x = x := by
  obtain ⟨notices, e | found⟩ := x <;> rfl

theorem prefixed_prefixed {α : Type} (notices more : List Notice) (items others : List α)
    (x : Reading (List α × Cursor)) :
    prefixed notices items (prefixed more others x) =
      prefixed (notices ++ more) (items ++ others) x := by
  obtain ⟨last, e | found⟩ := x <;> simp [prefixed, Except.map]

section Arrival

variable {σ α : Type} {step : σ → Cursor → Reading (Cursor.Turn σ α × Cursor)}
  {suits E : List Token → Prop} {state : σ}

/-- A loop fails in front of what follows the tokens, if that suits it, or comes to it; and what it has
found till then does not depend on what follows. -/
def Arrives (step : σ → Cursor → Reading (Cursor.Turn σ α × Cursor)) (suits : List Token → Prop)
    (state : σ) (line : Nat) (front : List Token) : Prop :=
  (∃ notices e, ∀ rest, suits rest →
      Cursor.loop step state ⟨line, front ++ rest⟩ = ⟨notices, .error e⟩) ∨
    ∃ notices items state' line', ∀ rest, suits rest →
      Cursor.loop step state ⟨line, front ++ rest⟩ =
        prefixed notices items (Cursor.loop step state' ⟨line', rest⟩)

theorem arrives_nil (state : σ) (line : Nat) : Arrives step suits state line [] := by
  refine Or.inr ⟨[], [], state, line, fun rest _ => ?_⟩
  rw [prefixed_nil, List.nil_append]

theorem arrives_fail {notices : List Notice} {e : CompileError}
    (h : ∀ rest, suits rest → step state ⟨line, front ++ rest⟩ = ⟨notices, .error e⟩) :
    Arrives step suits state line front := by
  refine Or.inl ⟨notices, e, fun rest hr => ?_⟩
  rw [Cursor.loop, h rest hr]
  rfl

theorem arrives_step {notices : List Notice} {item : α} {state' : σ} {line' : Nat}
    {after : List Token}
    (h : ∀ rest, suits rest → step state ⟨line, front ++ rest⟩ =
      ⟨notices, .ok (.again item state', ⟨line', after ++ rest⟩)⟩)
    (hlt : after.length < front.length) (ha : Arrives step suits state' line' after) :
    Arrives step suits state line front := by
  have hloop : ∀ rest, suits rest → Cursor.loop step state ⟨line, front ++ rest⟩ =
      prefixed notices [item] (Cursor.loop step state' ⟨line', after ++ rest⟩) :=
    fun rest hr => Cursor.loop_again (h rest hr) (by simpa using hlt)
  rcases ha with ⟨more, e, ha⟩ | ⟨more, items, state'', line'', ha⟩
  · refine Or.inl ⟨notices ++ more, e, fun rest hr => ?_⟩
    rw [hloop rest hr, ha rest hr]
    rfl
  · refine Or.inr ⟨notices ++ more, item :: items, state'', line'', fun rest hr => ?_⟩
    rw [hloop rest hr, ha rest hr, prefixed_prefixed]
    rfl

/-- A step fails among the tokens or reads some of them, whatever follows them. -/
def Advances (step : σ → Cursor → Reading (Cursor.Turn σ α × Cursor)) (E : List Token → Prop)
    (state : σ) (line : Nat) (front : List Token) : Prop :=
  (∃ notices e, ∀ rest, step state ⟨line, front ++ rest⟩ = ⟨notices, .error e⟩) ∨
    ∃ notices item state' line' after,
      (∀ rest, step state ⟨line, front ++ rest⟩ =
        ⟨notices, .ok (.again item state', ⟨line', after ++ rest⟩)⟩) ∧
      (after = [] ∨ E after) ∧ after.length < front.length

theorem advances_of_moves {view : α → α} {Q : List Token → Prop} (hview : view = id)
    (hmoves : ∀ rest, Moves (followedBy rest) ((followedBy rest).result (Cursor.Turn.map view))
      (TurnsTo (fun tokens => tokens = [] ∨ E tokens) Q ⟨line, front⟩) (step state ⟨line, front⟩)
      (step state ((followedBy rest).cursor ⟨line, front⟩)))
    (hagain : (step state ⟨line, front⟩).Ensures fun found =>
      ∃ item state', found.1 = .again item state') : Advances step E state line front := by
  subst hview
  have hread : ∀ rest, step state ⟨line, front ++ rest⟩ =
      appended rest (step state ⟨line, front⟩) := by
    intro rest
    have hmove := (hmoves rest).1
    rwa [cursor_followedBy, reading_followedBy Cursor.Turn.map_id] at hmove
  have hturns := (hmoves []).2
  rcases hs : step state ⟨line, front⟩ with ⟨notices, e | ⟨turn, next⟩⟩
  · refine Or.inl ⟨notices, e, fun rest => ?_⟩
    rw [hread, hs]
    rfl
  · obtain ⟨item, state', rfl⟩ := hagain (turn, next) (by rw [hs])
    obtain ⟨hafter, hlt⟩ := hturns (.again item state', next) (by rw [hs])
    refine Or.inr ⟨notices, item, state', next.line, next.rest, fun rest => ?_, hafter, hlt⟩
    rw [hread, hs]
    rfl

/-- What a loop reads step by step it reads up to what follows it. -/
theorem arrives_of_advances (hstep : ∀ state line front, E front → Advances step E state line front)
    {done tail : List Token} (htail : ∀ state line, Arrives step suits state line tail)
    (h : done = [] ∨ E done) (state : σ) (line : Nat) :
    Arrives step suits state line (done ++ tail) := by
  induction hn : done.length using Nat.strongRecOn generalizing done state line with
  | ind n ih =>
    subst hn
    rcases h with rfl | h
    · exact htail state line
    rcases hstep state line done h with ⟨notices, e, hfail⟩ |
      ⟨notices, item, state', line', after, hread, hafter, hlt⟩
    · exact arrives_fail fun rest _ => by rw [List.append_assoc, hfail]
    · have hread' : ∀ rest, step state ⟨line, done ++ tail ++ rest⟩ =
          ⟨notices, .ok (.again item state', ⟨line', after ++ tail ++ rest⟩)⟩ := by
        intro rest
        rw [List.append_assoc, List.append_assoc, hread]
      exact arrives_step (fun rest _ => hread' rest) (by simpa using hlt)
        (ih _ hlt hafter state' line' rfl)

/-- Two loops whose next step is the same do the same. -/
theorem loop_congr {P Q P' Q' : List Token → Prop} {cursor cursor' : Cursor}
    (h : step state cursor = step state cursor')
    (hturns : (step state cursor).Ensures (TurnsTo P Q cursor))
    (hturns' : (step state cursor').Ensures (TurnsTo P' Q' cursor')) :
    Cursor.loop step state cursor = Cursor.loop step state cursor' := by
  rw [Cursor.loop.eq_1 step state cursor, Cursor.loop.eq_1 step state cursor']
  rw [← h] at hturns' ⊢
  rcases hs : step state cursor with ⟨notices, e | ⟨turn, next⟩⟩
  · rfl
  · rw [bind_ok, bind_ok]
    cases turn with
    | done => rfl
    | last item => rfl
    | again item after =>
      have hlt := (hturns (.again item after, next) (by rw [hs])).2
      have hlt' := (hturns' (.again item after, next) (by rw [hs])).2
      dsimp only
      rw [if_pos hlt, if_pos hlt']

end Arrival

/-- A statement may start with the tokens, and they belong to nothing that is in front of them. -/
def Ready (tokens : List Token) : Prop :=
  ∃ first second rest, tokens = first :: second :: rest ∧ (∃ text, first.lexeme = .word text) ∧
    second.lexeme ≠ .punct ':'

/-- The top level goes on wherever there is a token. -/
theorem statement_again (pending : Pending) (line : Nat) (token : Token) (rest : List Token) :
    (statement scope pending ⟨line, token :: rest⟩).Ensures fun found =>
      ∃ entry after, found.1 = .again entry after := by
  have hdeclared : ∀ x : Reading (Entry × Cursor), (pending.turn <$> x).Ensures fun found =>
      ∃ entry after, found.1 = .again entry after := fun x =>
    Ensures.map (p := fun _ => True) (fun _ _ => trivial) fun found _ => ⟨_, _, rfl⟩
  rcases start_cases token.lexeme with hm | hm | hm | hm | hm | hm
  · rw [statement_struct _ _ _ hm]
    split
    · exact hdeclared _
    · exact ensures_pure ⟨_, _, rfl⟩
  · rw [statement_word _ _ _ hm]
    exact hdeclared _
  · rw [statement_attribute _ _ _ hm]
    split <;> exact ensures_pure ⟨_, _, rfl⟩
  · rw [statement_group _ _ _ hm]
    exact ensures_pure ⟨_, _, rfl⟩
  · rw [statement_end _ _ _ hm]
    exact ensures_pure ⟨_, _, rfl⟩
  · rw [statement_passedOver _ _ _ hm]
    exact ensures_pure ⟨_, _, rfl⟩

/-- A step among tokens that have ended reads some of them. -/
theorem Ended.advances (hmarks : NoNumber ['{', '}', ';'] scope) (pending : Pending) (line : Nat)
    (front : List Token) (h : Ended 0 front) :
    Advances (statement scope) (Ended 0) pending line front := by
  obtain ⟨token, others, rfl⟩ := List.exists_cons_of_ne_nil h.ne_nil
  have hfront : Ended 0 (Cursor.mk line (token :: others)).rest := h
  exact advances_of_moves Entry.mapPlace_id
    (fun rest => statement_moves (trail_followedBy hmarks rest) pending hfront)
    (statement_again pending line token others)

/-! ## Definitions -/

/-- Functions, structs and attributes as the top level meets them: attributes that are closed, groups,
structs, and single lexemes that start nothing. There is no semicolon among them, except in a group or
in an attribute. -/
inductive Bodies : List Token → Prop
  | nil : Bodies []
  | single {token : Token} {rest : List Token} :
    token.lexeme = .punct '[' ∨ PassedOver token.lexeme ∧ token.lexeme ≠ .punct ':' →
      Bodies rest → Bodies (token :: rest)
  | noted {opening name colon close : Token} {inside rest : List Token} {text : String} :
    opening.lexeme = .punct '[' → AttributeTokens name colon inside close text → Bodies rest →
      Bodies (opening :: name :: colon :: (inside ++ close :: rest))
  | group {opening closing : Token} {inner rest : List Token} : opening.lexeme = .punct '{' →
      closing.lexeme = .punct '}' → nesting? 0 (inner.map Token.lexeme) = some 0 → Bodies rest →
        Bodies (opening :: (inner ++ closing :: rest))
  | aggregate {keyword name opening closing : Token} {inner rest : List Token} {text : String} :
    keyword.lexeme = .word "struct" → name.lexeme = .word text → opening.lexeme = .punct '{' →
      closing.lexeme = .punct '}' → nesting? 0 (inner.map Token.lexeme) = some 0 → Bodies rest →
        Bodies (keyword :: name :: opening :: (inner ++ closing :: rest))

/-- What follows definitions starts no attribute with a bracket among them, and gives no struct among
them a semicolon. -/
theorem Bodies.starts {tail : List Token} (h : Bodies tail) (hr : Ready rest) :
    ∃ first second others, tail ++ rest = first :: second :: others ∧ first.lexeme ≠ .punct ';' ∧
      first.lexeme ≠ .punct ':' ∧
        ((∃ text, first.lexeme = .word text) → second.lexeme ≠ .punct ':') := by
  induction h with
  | nil =>
    obtain ⟨first, second, others, rfl, ⟨text, ht⟩, hsecond⟩ := hr
    exact ⟨first, second, others, rfl, by simp [ht], by simp [ht], fun _ => hsecond⟩
  | @single token tail hm _ ih =>
    obtain ⟨first, second, others, hrest, -, hcolon, -⟩ := ih
    refine ⟨token, first, second :: others, by rw [List.cons_append, hrest], ?_, ?_, fun _ => hcolon⟩
    · rcases hm with hm | hm
      · simp [hm]
      · exact hm.1.1 ';' (by decide)
    · rcases hm with hm | hm
      · simp [hm]
      · exact hm.2
  | noted hopening hfound _ _ =>
    exact ⟨_, _, _, rfl, by simp [hopening], by simp [hopening], by simp [hfound.name]⟩
  | @group opening closing inner tail hopening _ _ _ _ =>
    have hword : ¬ ∃ text, opening.lexeme = .word text := by simp [hopening]
    cases inner with
    | nil => exact ⟨_, _, _, rfl, by simp [hopening], by simp [hopening], fun hw => absurd hw hword⟩
    | cons first inner =>
      exact ⟨_, _, _, rfl, by simp [hopening], by simp [hopening], fun hw => absurd hw hword⟩
  | aggregate hkeyword hname _ _ _ _ _ =>
    exact ⟨_, _, _, rfl, by simp [hkeyword], by simp [hkeyword], by simp [hname]⟩

theorem Bodies.attribute?_eq_none {tail : List Token} (h : Bodies tail) (hr : Ready rest) :
    attribute? (tail ++ rest) = none := by
  obtain ⟨first, second, others, hrest, -, -, hsecond⟩ := h.starts hr
  rw [hrest]
  by_cases hword : ∃ text, first.lexeme = .word text
  · exact attribute?_of_not_colon (hsecond hword) _ _
  · exact attribute?_of_not_word (fun text ht => hword ⟨text, ht⟩) _

theorem Bodies.eat?_eq_none {tail : List Token} (h : Bodies tail) (hr : Ready rest) (line : Nat) :
    (Cursor.mk line (tail ++ rest)).eat? ';' = none := by
  obtain ⟨first, second, others, hrest, hend, -, -⟩ := h.starts hr
  rw [hrest, Cursor.eat?]
  exact if_neg hend

/-- The inside of a group with the brace that closes it. -/
def IsBody (tokens : List Token) : Prop :=
  ∃ inner closing, tokens = inner ++ [closing] ∧ closing.lexeme = .punct '}' ∧
    nesting? 0 (inner.map Token.lexeme) = some 0

namespace IsBody

variable {token : Token}

theorem plain (h : IsBody (token :: rest)) (hopen : token.lexeme ≠ .punct '{')
    (hclose : token.lexeme ≠ .punct '}') : IsBody rest := by
  obtain ⟨inner, closing, htokens, hclosing, hbalanced⟩ := h
  cases inner with
  | nil =>
    obtain ⟨rfl, -⟩ := List.cons.inj htokens
    exact absurd hclosing hclose
  | cons first inner =>
    obtain ⟨rfl, rfl⟩ := List.cons.inj htokens
    rw [List.map_cons, nesting?_plain hopen hclose] at hbalanced
    exact ⟨inner, closing, rfl, hclosing, hbalanced⟩

theorem passes {c : Char} (hm : c ∉ ['{', '}']) : Passes c IsBody IsBody := by
  intro token rest hl h
  refine h.plain ?_ ?_ <;>
  · rw [hl]
    rintro heq
    exact hm (by simp [Lexeme.punct.inj heq])

/-- The first brace that closes is the one that closes the group. -/
theorem closes : Passes '}' IsBody (· = []) := by
  rintro token rest hl ⟨inner, closing, htokens, -, hbalanced⟩
  cases inner with
  | nil => exact (List.cons.inj htokens).2
  | cons first inner =>
    obtain ⟨rfl, -⟩ := List.cons.inj htokens
    rw [List.map_cons, hl] at hbalanced
    cases hbalanced

theorem track (hmarks : NoNumber ['{', '}', ';'] scope) (behind : List Token) :
    Track (followedBy behind) scope scope IsBody where
  room h := by
    obtain ⟨inner, closing, htokens, -⟩ := h
    simp at htokens
  file := rfl
  number _ _ _ := rfl
  plain token rest hm h := h.plain (hm _ (by decide)) (hm _ (by decide))
  value token rest hv h := h.plain (hmarks.ne hv _ (by decide)) (hmarks.ne hv _ (by decide))

end IsBody

/-- A struct is read in the same way whatever follows it, if that is no semicolon. -/
theorem struct_cases (hmarks : NoNumber ['{', '}', ';'] scope) (attributes : List Attribute)
    (keyword : Token) (name : String) {body : List Token} (hbody : IsBody body) (line : Nat) :
    (∃ notices e, ∀ behind, struct scope attributes keyword name ⟨line, body ++ behind⟩ =
        ⟨notices, .error e⟩) ∨
      ∃ notices entry line', ∀ behind : List Token, (Cursor.mk line' behind).eat? ';' = none →
        struct scope attributes keyword name ⟨line, body ++ behind⟩ =
          ⟨notices, .ok (entry, ⟨line', behind⟩)⟩ := by
  have hmembers : ∀ behind, members scope name ⟨line, body ++ behind⟩ =
        appended behind (members scope name ⟨line, body⟩) ∧
      (members scope name ⟨line, body⟩).Ensures fun found => found.2.rest = [] := by
    intro behind
    have hstart : IsBody (Cursor.mk line body).rest := hbody
    obtain ⟨hread, hends⟩ := members_moves (IsBody.track hmarks behind)
      ⟨IsBody.passes (by decide), IsBody.passes (by decide), IsBody.passes (by decide)⟩
      IsBody.closes name hstart
    rw [cursor_followedBy, reading_followedBy (by simp [followedBy])] at hread
    exact ⟨hread, hends⟩
  have hends := (hmembers []).2
  rcases hm : members scope name ⟨line, body⟩ with ⟨notices, e | ⟨fields, next⟩⟩
  · refine Or.inl ⟨notices, e, fun behind => ?_⟩
    unfold struct
    rw [(hmembers behind).1, hm]
    rfl
  · have hnext : next.rest = [] := hends (fields, next) (by rw [hm])
    refine Or.inr ⟨notices, .declaration
      { name, kind := .struct, fields, attributes, source := scope.locate keyword }, next.line,
      fun behind hend => ?_⟩
    unfold struct
    rw [(hmembers behind).1, hm]
    simp [appended, Except.map, hnext, hend]

/-- A struct without declarators is read up to what follows it, or refused. -/
theorem arrives_struct (hmarks : NoNumber ['{', '}', ';'] scope) {pending : Pending} {line : Nat}
    {keyword name opening : Token} {body tail : List Token} {text : String}
    (hkeyword : keyword.lexeme = .word "struct") (hname : name.lexeme = .word text)
    (hopening : opening.lexeme = .punct '{') (hbody : IsBody body) (htail : Bodies tail)
    (h : ∀ pending line, Arrives (statement scope) Ready pending line tail) :
    Arrives (statement scope) Ready pending line (keyword :: name :: opening :: (body ++ tail)) := by
  have hread : ∀ rest,
      statement scope pending ⟨line, keyword :: name :: opening :: (body ++ tail) ++ rest⟩ =
        pending.turn <$> struct scope pending.attributes keyword text
          ⟨opening.line, body ++ (tail ++ rest)⟩ := by
    intro rest
    simp only [List.cons_append, List.append_assoc]
    rw [statement_struct _ _ _ hkeyword]
    simp only [structHead?, hname, hopening]
  rcases struct_cases hmarks pending.attributes keyword text hbody opening.line with
    ⟨notices, e, hfail⟩ | ⟨notices, entry, line', hok⟩
  · exact arrives_fail fun rest _ => by rw [hread rest, hfail]; rfl
  · have hstep : ∀ rest, Ready rest →
        statement scope pending ⟨line, keyword :: name :: opening :: (body ++ tail) ++ rest⟩ =
          ⟨notices, .ok (.again entry (pending.after entry), ⟨line', tail ++ rest⟩)⟩ := by
      intro rest hr
      rw [hread rest, hok _ (htail.eat?_eq_none hr line'), map_eq_pure_bind, bind_ok]
      simp [Pending.turn]
    refine arrives_step hstep ?_ (h _ _)
    simp only [List.length_cons, List.length_append]
    omega

/-- Definitions are read up to what follows them. -/
theorem Bodies.arrives (hmarks : NoNumber ['{', '}', ';'] scope) {tail : List Token}
    (h : Bodies tail) (pending : Pending) (line : Nat) : Arrives (statement scope) Ready pending line tail := by
  induction h generalizing pending line with
  | nil => exact arrives_nil pending line
  | @single token tail hm htail ih =>
    have hstep : ∀ rest, Ready rest → statement scope pending ⟨line, token :: tail ++ rest⟩ =
        ⟨[], .ok (.again .nothing pending, ⟨token.line, tail ++ rest⟩)⟩ := by
      intro rest hr
      rcases hm with hm | hm
      · rw [List.cons_append, statement_attribute _ _ _ hm, htail.attribute?_eq_none hr]
        rfl
      · exact statement_passedOver _ _ _ hm.1
    exact arrives_step hstep (Nat.lt_succ_self _) (ih _ _)
  | @noted opening name colon close inside tail text hopening hfound _ ih =>
    have hstep : ∀ rest, Ready rest →
        statement scope pending ⟨line, opening :: name :: colon :: (inside ++ close :: tail) ++ rest⟩ =
          ⟨[], .ok (.again .nothing
            { pending with attributes := pending.attributes ++
              [⟨text, String.ofList (Text.trim (valueText inside close))⟩] },
            ⟨close.line, tail ++ rest⟩)⟩ := by
      intro rest _
      simp only [List.cons_append, List.append_assoc]
      rw [statement_attribute _ _ _ hopening, hfound.attribute?]
      rfl
    refine arrives_step hstep ?_ (ih _ _)
    simp only [List.length_cons, List.length_append]
    omega
  | @group opening closing inner tail hopening hclosing hbalanced _ ih =>
    have hstep : ∀ rest, Ready rest →
        statement scope pending ⟨line, opening :: (inner ++ closing :: tail) ++ rest⟩ =
          ⟨[], .ok (.again .nothing { pending with attributes := [] },
            ⟨closing.line, tail ++ rest⟩)⟩ := by
      intro rest _
      rw [List.cons_append, List.append_assoc, List.cons_append, statement_group _ _ _ hopening]
      have hskip := skipGroup_group ⟨inner, closing, tail ++ rest, hclosing, hbalanced⟩ opening.line
      dsimp only at hskip
      rw [hskip]
      rfl
    refine arrives_step hstep ?_ (ih _ _)
    simp only [List.length_cons, List.length_append]
    omega
  | @aggregate keyword name opening closing inner tail text hkeyword hname hopening hclosing hbalanced
      htail ih =>
    have hbody : IsBody (inner ++ [closing]) := ⟨inner, closing, rfl, hclosing, hbalanced⟩
    rw [List.append_cons]
    exact arrives_struct hmarks hkeyword hname hopening hbody htail ih

/-- A statement behind the tokens stands outside all groups: they are statements that have ended, and
definitions behind them. -/
def Outer (before : List Token) : Prop :=
  ∃ done tail, before = done ++ tail ∧ (done = [] ∨ Ended 0 done) ∧ Bodies tail

theorem outer_nil : Outer [] := ⟨[], [], rfl, Or.inl rfl, .nil⟩

/-- What stands in front of a statement is read in the same way whatever the statement is. -/
theorem Outer.arrives (hmarks : NoNumber ['{', '}', ';'] scope) {before : List Token}
    (h : Outer before) (pending : Pending) (line : Nat) : Arrives (statement scope) Ready pending line before := by
  obtain ⟨done, tail, rfl, hdone, htail⟩ := h
  exact arrives_of_advances (Ended.advances hmarks) (htail.arrives hmarks) hdone pending line

/-! ## Places -/

theorem lexemes_unplaced (tokens : List Token) :
    (tokens.map Token.unplaced).map Token.lexeme = tokens.map Token.lexeme := by
  rw [List.map_map]
  rfl

theorem Ended.unplaced {groups : Nat} (h : Ended groups rest) :
    Ended groups (rest.map Token.unplaced) where
  depth := by rw [lexemes_unplaced, h.depth]
  last := by rw [lexemes_unplaced, h.last]
  attributes suffix hs := h.attributes suffix (by rwa [lexemes_unplaced] at hs)

theorem Bodies.unplaced {tail : List Token} (h : Bodies tail) : Bodies (tail.map Token.unplaced) := by
  induction h with
  | nil => exact .nil
  | single hm _ ih => exact .single hm ih
  | @noted opening name colon close inside tail text hopening hfound _ ih =>
    have hfound' : AttributeTokens name.unplaced colon.unplaced (inside.map Token.unplaced)
        close.unplaced text := by
      refine ⟨hfound.name, hfound.colon, hfound.close, fun token ht => ?_⟩
      obtain ⟨found, hf, rfl⟩ := List.mem_map.1 ht
      exact hfound.inside found hf
    have hnoted : Bodies (opening.unplaced :: name.unplaced :: colon.unplaced ::
        (inside.map Token.unplaced ++ close.unplaced :: tail.map Token.unplaced)) :=
      .noted hopening hfound' ih
    simpa using hnoted
  | @group opening closing inner tail hopening hclosing hbalanced _ ih =>
    have hgroup : Bodies (opening.unplaced ::
        (inner.map Token.unplaced ++ closing.unplaced :: tail.map Token.unplaced)) :=
      .group hopening hclosing (by rwa [lexemes_unplaced]) ih
    simpa using hgroup
  | @aggregate keyword name opening closing inner tail text hkeyword hname hopening hclosing hbalanced
      _ ih =>
    have haggregate : Bodies (keyword.unplaced :: name.unplaced :: opening.unplaced ::
        (inner.map Token.unplaced ++ closing.unplaced :: tail.map Token.unplaced)) :=
      .aggregate hkeyword hname hopening hclosing (by rwa [lexemes_unplaced]) ih
    simpa using haggregate

theorem Outer.unplaced {before : List Token} (h : Outer before) :
    Outer (before.map Token.unplaced) := by
  obtain ⟨done, tail, rfl, hdone, htail⟩ := h
  refine ⟨done.map Token.unplaced, tail.map Token.unplaced, List.map_append, ?_, htail.unplaced⟩
  rcases hdone with rfl | hdone
  · exact Or.inl rfl
  · exact Or.inr hdone.unplaced

end UniformLayout.Source
