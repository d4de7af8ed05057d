import UniformLayout.Proofs.Source.Grammar

/-!
# Readers that succeed

A reader is said to read given lexemes when it succeeds, gives a value with a given property and stops in
front of what follows them. Readers that are put together read what their parts read; a loop reads a
list of parts, by induction on the list.

* `Reads`: a reader succeeds and stops in front of given lexemes.
* `Cursor.lexemes_skipQualifiers`: idle qualifiers are passed over.

Main statements: `Cursor.loop_reads_listed` for parts with commas between them and
`Cursor.loop_reads_groups` for parts that end by themselves.
-/

namespace UniformLayout

/-! ## Results -/

namespace Logged

variable {ε α β : Type} {p : α → Prop} {q : β → Prop}

/-- There is a result, and it has the property. -/
def Yields (x : Logged ε α) (p : α → Prop) : Prop :=
  ∃ a, x.result = .ok a ∧ p a

theorem yields_pure {a : α} (h : p a) : (pure a : Logged ε α).Yields p :=
  ⟨a, rfl, h⟩

theorem Yields.bind {x : Logged ε α} {f : α → Logged ε β} (h : x.Yields p)
    (hf : ∀ a, p a → (f a).Yields q) : (x >>= f).Yields q := by
  obtain ⟨a, ha, hp⟩ := h
  obtain ⟨b, hb, hq⟩ := hf a hp
  exact ⟨b, (result_bind_of_ok ha).trans hb, hq⟩

theorem Yields.mono {r : α → Prop} {x : Logged ε α} (h : x.Yields p) (hpr : ∀ a, p a → r a) :
    x.Yields r := by
  obtain ⟨a, ha, hp⟩ := h
  exact ⟨a, ha, hpr a hp⟩

theorem Yields.map {x : Logged ε α} {f : α → β} (h : x.Yields p) (hf : ∀ a, p a → q (f a)) :
    (f <$> x).Yields q := by
  rw [map_eq_pure_bind]
  exact h.bind fun a ha => yields_pure (hf a ha)

theorem yields_note {n : Notice} {f : Unit → Logged ε β} (h : (f ()).Yields q) :
    (note n >>= f).Yields q := by
  obtain ⟨b, hb, hq⟩ := h
  exact ⟨b, hb, hq⟩

end Logged

namespace Source

open Logged Grammar

/-! ## Cursors -/

/-- The lexemes that are still to be read. -/
def Cursor.lexemes (cursor : Cursor) : List Lexeme := cursor.rest.map Token.lexeme

/-- The reader gives a value with the property and stops in front of the lexemes. -/
def Reads {α : Type} (x : Reading (α × Cursor)) (p : α → Prop) (behind : List Lexeme) : Prop :=
  x.Yields fun result => p result.1 ∧ result.2.lexemes = behind

theorem reads_pure {α : Type} {a : α} {cursor : Cursor} {p : α → Prop} {behind : List Lexeme}
    (h : p a) (hc : cursor.lexemes = behind) : Reads (pure (a, cursor)) p behind :=
  yields_pure ⟨h, hc⟩

theorem Reads.mono {α : Type} {x : Reading (α × Cursor)} {p q : α → Prop} {behind : List Lexeme}
    (h : Reads x p behind) (hpq : ∀ a, p a → q a) : Reads x q behind :=
  Yields.mono h fun result hr => ⟨hpq result.1 hr.1, hr.2⟩

theorem Reads.bind {α β : Type} {x : Reading (α × Cursor)} {f : α × Cursor → Reading (β × Cursor)}
    {p : α → Prop} {q : β → Prop} {between behind : List Lexeme} (h : Reads x p between)
    (hf : ∀ a next, p a → next.lexemes = between → Reads (f (a, next)) q behind) :
    Reads (x >>= f) q behind := by
  refine Yields.bind h ?_
  rintro ⟨a, next⟩ ⟨ha, hnext⟩
  exact hf a next ha hnext

namespace Cursor

variable {cursor : Cursor} {behind : List Lexeme}

theorem next?_of_lexemes {lexeme : Lexeme} (h : cursor.lexemes = lexeme :: behind) :
    ∃ token next, cursor.next? = some (token, next) ∧ token.lexeme = lexeme ∧
      next.lexemes = behind := by
  obtain ⟨token, rest, hr, ht, hb⟩ := List.map_eq_cons_iff.1 h
  exact ⟨token, ⟨token.line, rest⟩, by simp [next?, hr], ht, hb⟩

theorem eat?_of_lexemes {c : Char} (h : cursor.lexemes = .punct c :: behind) :
    ∃ next, cursor.eat? c = some next ∧ next.lexemes = behind := by
  obtain ⟨token, rest, hr, ht, hb⟩ := List.map_eq_cons_iff.1 h
  exact ⟨⟨token.line, rest⟩, by simp [eat?, hr, ht], hb⟩

theorem eat?_eq_none {c : Char} (h : cursor.lexemes.head? ≠ some (.punct c)) :
    cursor.eat? c = none := by
  unfold eat?
  split
  · rfl
  · rename_i token rest hr
    rw [if_neg]
    rintro ht
    apply h
    rw [lexemes, hr, List.map_cons, List.head?_cons, ht]

/-- Behind a part of a list stands a comma or a semicolon. -/
theorem separator_of_lexemes {mark : Char} (hm : mark = ',' ∨ mark = ';')
    (h : cursor.lexemes = .punct mark :: behind) :
    ∃ next, next.lexemes = behind ∧
      (mark = ',' ∧ cursor.eat? ',' = some next ∨
        mark = ';' ∧ cursor.eat? ',' = none ∧ cursor.eat? ';' = some next) := by
  obtain ⟨next, heat, hnext⟩ := eat?_of_lexemes h
  rcases hm with rfl | rfl
  · exact ⟨next, hnext, Or.inl ⟨rfl, heat⟩⟩
  · exact ⟨next, hnext, Or.inr ⟨rfl, eat?_eq_none (by simp [h]), heat⟩⟩

theorem word?_of_lexemes {text : String} (h : cursor.lexemes = .word text :: behind) :
    ∃ token next, cursor.word? = some (token, text, next) ∧ next.lexemes = behind := by
  obtain ⟨token, rest, hr, ht, hb⟩ := List.map_eq_cons_iff.1 h
  exact ⟨token, ⟨token.line, rest⟩, by simp [word?, hr, ht], hb⟩

theorem word?_eq_none {c : Char} (h : cursor.lexemes = .punct c :: behind) : cursor.word? = none := by
  obtain ⟨token, rest, hr, ht, hb⟩ := List.map_eq_cons_iff.1 h
  simp [word?, hr, ht]

theorem lexemes_skipWhile (p : Lexeme → Bool) (line : Nat) (tokens : List Token) :
    (skipWhile p line tokens).lexemes = (tokens.map Token.lexeme).dropWhile p := by
  induction tokens generalizing line with
  | nil => rfl
  | cons token rest ih =>
    rw [skipWhile, List.map_cons, List.dropWhile_cons]
    by_cases hp : p token.lexeme
    · rw [if_pos hp, if_pos hp, ih]
    · rw [if_neg hp, if_neg hp]
      rfl

/-- Idle qualifiers are passed over, up to a lexeme that is none. -/
theorem lexemes_skipQualifiers (qualifiers : List Idle)
    (h : cursor.lexemes = qualifiers.map (fun qualifier => .word qualifier) ++ behind)
    (hb : ∀ text, behind.head? = some (.word text) → text ∉ idleQualifiers) :
    cursor.skipQualifiers.lexemes = behind := by
  rw [skipQualifiers, lexemes_skipWhile]
  change cursor.lexemes.dropWhile _ = behind
  rw [h, List.dropWhile_append_of_pos]
  · cases behind with
    | nil => rfl
    | cons lexeme behind =>
      cases lexeme with
      | word text =>
        have hidle := hb text rfl
        simp [hidle]
      | number text => rfl
      | punct c => rfl
  · rw [List.forall_mem_map]
    exact fun qualifier _ => List.contains_iff_mem.2 qualifier.property

/-! ## Loops -/

section Loop

variable {σ α β γ : Type} {step : σ → Cursor → Reading (Turn σ α × Cursor)} {state : σ}
  {after : List Lexeme}

theorem length_lexemes (cursor : Cursor) : cursor.lexemes.length = cursor.rest.length :=
  List.length_map _

theorem loop_reads_done (h : Reads (step state cursor) (· = .done) behind) :
    Reads (loop step state cursor) (· = []) behind := by
  rw [loop]
  refine h.bind ?_
  rintro turn next rfl hnext
  exact reads_pure rfl hnext

theorem loop_reads_last {p : List α → Prop}
    (h : Reads (step state cursor) (fun turn => ∃ item, turn = .last item ∧ p [item]) behind) :
    Reads (loop step state cursor) p behind := by
  rw [loop]
  refine h.bind ?_
  rintro turn next ⟨item, rfl, hp⟩ hnext
  exact reads_pure hp hnext

/-- A step that goes on has read something, and the loop does the rest. -/
theorem loop_reads_again {p : α → σ → Prop} {q : List α → Prop}
    (h : Reads (step state cursor) (fun turn => ∃ item next, turn = .again item next ∧ p item next)
      after)
    (hlt : after.length < cursor.lexemes.length)
    (hrest : ∀ item next final, p item next → final.lexemes = after →
      Reads (loop step next final) (fun items => q (item :: items)) behind) :
    Reads (loop step state cursor) q behind := by
  rw [loop]
  refine h.bind ?_
  rintro turn final ⟨item, next, rfl, hp⟩ hfinal
  have hshorter : final.rest.length < cursor.rest.length := by
    rw [← length_lexemes, ← length_lexemes, hfinal]
    exact hlt
  dsimp only
  rw [if_pos hshorter]
  exact (hrest item next final hp hfinal).bind fun items last hq hlast => reads_pure hq hlast

/-- A loop over parts with commas between them and a semicolon behind them. `view` is what one looks at
of an item, and `meaning` what a part means. -/
theorem loop_reads_listed {step : Unit → Cursor → Reading (Turn Unit α × Cursor)} {view : α → γ}
    {meaning : β → γ} {written : β → List Lexeme}
    (hstep : ∀ part cursor after mark, mark = ',' ∨ mark = ';' →
      cursor.lexemes = written part ++ .punct mark :: after →
      Reads (step () cursor) (fun turn => ∃ item, view item = meaning part ∧
        turn = if mark = ',' then .again item () else .last item) after)
    (first : β) (others : List β) {cursor : Cursor}
    (h : cursor.lexemes = listed ((first :: others).map written) ++ .punct ';' :: behind) :
    Reads (loop step () cursor) (fun items => items.map view = (first :: others).map meaning)
      behind := by
  induction others generalizing first cursor with
  | nil =>
    have hlast := hstep first cursor behind ';' (Or.inr rfl) (by simpa [listed_cons] using h)
    apply loop_reads_last
    refine hlast.mono ?_
    rintro turn ⟨item, hitem, rfl⟩
    exact ⟨item, rfl, by simp [hitem]⟩
  | cons second others ih =>
    have hc : cursor.lexemes =
        written first ++ .punct ',' :: (listed ((second :: others).map written) ++
          .punct ';' :: behind) := by
      rw [h]
      simp [listed_cons]
    have hagain := hstep first cursor _ ',' (Or.inl rfl) hc
    refine loop_reads_again (p := fun item _ => view item = meaning first)
      (Reads.mono hagain ?_) ?_ ?_
    · rintro turn ⟨item, hitem, rfl⟩
      exact ⟨item, (), rfl, hitem⟩
    · rw [hc]
      simp
      omega
    · intro item _ final hitem hfinal
      refine (ih second hfinal).mono fun items hitems => ?_
      simp [hitem, hitems]

/-- A loop over parts that end by themselves, up to an ending. The states keep a property. -/
theorem loop_reads_groups {P : σ → Prop} {view : α → γ} {meaning : β → γ}
    {written : β → List Lexeme} {ending : List Lexeme}
    (hstep : ∀ part state cursor after, P state → cursor.lexemes = written part ++ after →
      Reads (step state cursor) (fun turn => ∃ item next, turn = .again item next ∧
        view item = meaning part ∧ P next) after)
    (hsome : ∀ part, written part ≠ [])
    (hend : ∀ state cursor, P state → cursor.lexemes = ending →
      Reads (step state cursor) (· = .done) behind)
    (parts : List β) (hstate : P state) {cursor : Cursor}
    (h : cursor.lexemes = parts.flatMap written ++ ending) :
    Reads (loop step state cursor) (fun items => items.map view = parts.map meaning) behind := by
  induction parts generalizing state cursor with
  | nil =>
    refine (loop_reads_done (hend state cursor hstate h)).mono ?_
    rintro items rfl
    rfl
  | cons part parts ih =>
    have hc : cursor.lexemes = written part ++ (parts.flatMap written ++ ending) := by
      rw [h, List.flatMap_cons, List.append_assoc]
    refine loop_reads_again (hstep part state cursor _ hstate hc) ?_ ?_
    · have := List.length_pos_of_ne_nil (hsome part)
      rw [hc]
      simp only [List.length_append]
      omega
    · rintro item next final ⟨hitem, hnext⟩ hfinal
      refine (ih hnext hfinal).mono fun items hitems => ?_
      simp [hitem, hitems]

end Loop

end Cursor

end Source

end UniformLayout
