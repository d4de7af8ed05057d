import UniformLayout.Proofs.Source.Definitions
import UniformLayout.Proofs.Source.Statements

/-!
# Where numbers stand

The contents of a source are what its statements give, with each array length and each value of a
`layout(...)` list taken from the token at its place. A reading that succeeds has asked for nothing else,
so more constants leave it as it is.

* `Persists`: what holds of a reading's result, and stays with more constants.
* `HasNumbers`: which numbers the tokens are taken for.

Main statements: `loop_persists`, `statement_persists` and `read_persists`.
-/

namespace UniformLayout

namespace Source

open Logged

/-! ## Readings with more constants -/

/-- If the first reading gives something, it has the property, and the second reading is the same. -/
def Persists {α : Type} (p : α → Prop) (x y : Reading α) : Prop := x.Ensures fun a => p a ∧ y = x

section Rules

variable {α β : Type} {p : α → Prop} {q : β → Prop} {x y : Reading α}

theorem persists_pure {a : α} (h : p a) : Persists p (pure a) (pure a) :=
  ensures_pure ⟨h, rfl⟩

theorem persists_note {n : Notice} : Persists (fun _ => True) (Logged.note n) (Logged.note n) :=
  fun _ _ => ⟨trivial, rfl⟩

theorem persists_malformed {scope : Scope} {cursor : Cursor} {declaration : String}
    {reason : Malformation} : Persists p (scope.malformed cursor declaration reason) y :=
  ensures_throw

theorem Persists.bind {f g : α → Reading β} (h : Persists p x y)
    (hf : ∀ a, p a → Persists q (f a) (g a)) : Persists q (x >>= f) (y >>= g) := by
  intro b hb
  obtain ⟨a, ha, hfb⟩ := result_bind_eq_ok_iff.1 hb
  obtain ⟨hp, rfl⟩ := h a ha
  obtain ⟨hq, hsame⟩ := hf a hp b hfb
  obtain ⟨notices, result⟩ := y
  obtain rfl : result = .ok a := ha
  rw [bind_ok, bind_ok, hsame]
  exact ⟨hq, rfl⟩

theorem Persists.map {f : α → β} (h : Persists p x y) (hf : ∀ a, p a → q (f a)) :
    Persists q (f <$> x) (f <$> y) := by
  rw [map_eq_pure_bind, map_eq_pure_bind]
  exact h.bind fun a ha => persists_pure (hf a ha)

/-- What is done under a condition and gives nothing may be done or not. -/
theorem persists_ite_bind {c : Prop} [Decidable c] {n : Notice} {f g : Unit → Reading β}
    (h : ∀ u, Persists q (f u) (g u)) :
    Persists q (if c then Logged.note n >>= f else pure () >>= f)
      (if c then Logged.note n >>= g else pure () >>= g) := by
  by_cases hc : c
  · rw [if_pos hc, if_pos hc]
    exact persists_note.bind fun u _ => h u
  · rw [if_neg hc, if_neg hc]
    exact h ()

/-- What a turn of a loop gives, with what the rest of the loop gives behind it. -/
def Extends {σ : Type} (R : List Token → List α → List Token → Prop) (tokens : List Token)
    (found : Cursor.Turn σ α × Cursor) : Prop :=
  match found.1 with
  | .done => R tokens [] found.2.rest
  | .last item => R tokens [item] found.2.rest
  | .again item _ => (∃ first rest, tokens = first :: rest ∧ found.2.rest <:+ rest) ∧
      ∀ items behind, R found.2.rest items behind → R tokens (item :: items) behind

/-- A loop persists if its steps do, and gives its items in order. -/
theorem loop_persists {σ : Type} {step step' : σ → Cursor → Reading (Cursor.Turn σ α × Cursor)}
    {base : List Token} {R : List Token → List α → List Token → Prop}
    (hstep : ∀ state cursor, cursor.rest <:+ base →
      Persists (Extends R cursor.rest) (step state cursor) (step' state cursor))
    (state : σ) {cursor : Cursor} (hc : cursor.rest <:+ base) :
    Persists (fun found => R cursor.rest found.1 found.2.rest)
      (Cursor.loop step state cursor) (Cursor.loop step' state cursor) := by
  induction hn : cursor.rest.length using Nat.strongRecOn generalizing state cursor with
  | ind n ih =>
    subst hn
    rw [Cursor.loop.eq_1 step, Cursor.loop.eq_1 step']
    refine (hstep state cursor hc).bind ?_
    rintro ⟨turn, next⟩ hturn
    cases turn with
    | done => exact persists_pure hturn
    | last item => exact persists_pure hturn
    | again item after =>
      obtain ⟨⟨first, rest, hr, hnext⟩, hextends⟩ := hturn
      dsimp only at hnext hextends ⊢
      have hlt : next.rest.length < cursor.rest.length := by
        rw [hr]
        exact Nat.lt_succ_of_le hnext.length_le
      rw [if_pos hlt, if_pos hlt]
      have hbase : next.rest <:+ base := (hnext.trans (List.suffix_cons _ _)).trans (hr ▸ hc)
      refine (ih _ hlt after hbase rfl).bind ?_
      rintro ⟨items, final⟩ hitems
      exact persists_pure (hextends items final.rest hitems)

end Rules

/-! ## Array lengths -/

/-- The scope with other constants. -/
def Scope.given (scope : Scope) (more : Constants) : Scope := { scope with constants := more }

/-- The numbers of the tokens have the property, and they are the same with more constants. -/
def HasNumbers (scope : Scope) (more : Constants) (num : Token → Nat → Prop) (base : List Token) :
    Prop :=
  ∀ token ∈ base, ∀ n, scope.constants.resolve? token.text = some n →
    num token n ∧ more.resolve? token.text = some n

variable {scope : Scope} {more : Constants} {num : Token → Nat → Prop} {base : List Token}
  {cursor : Cursor}

theorem eat?_suffix {next : Cursor} {c : Char} (h : cursor.eat? c = some next) :
    next.rest <:+ cursor.rest := by
  obtain ⟨token, hr, -⟩ := Cursor.eat?_eq_some_iff.1 h
  exact hr ▸ List.suffix_cons _ _

theorem word?_suffix {next : Cursor} {token : Token} {name : String}
    (h : cursor.word? = some (token, name, next)) : next.rest <:+ cursor.rest :=
  (Cursor.word?_eq_some_iff.1 h).1 ▸ List.suffix_cons _ _

theorem head_of_eat?_eq_none {c : Char} (h : cursor.eat? c = none) :
    ∀ token ∈ cursor.rest.head?, token.lexeme ≠ .punct c := by
  intro token ht hl
  obtain ⟨rest, hr⟩ := List.head?_eq_some_iff.1 ht
  simp [Cursor.eat?, hr, hl] at h

theorem head_of_word?_eq_none (h : cursor.word? = none) :
    ∀ token ∈ cursor.rest.head?, ∀ name, token.lexeme ≠ .word name := by
  intro token ht name hl
  obtain ⟨rest, hr⟩ := List.head?_eq_some_iff.1 ht
  simp [Cursor.word?, hr, hl] at h

theorem arrayLength_persists (h : HasNumbers scope more num base) (hc : cursor.rest <:+ base)
    (declaration field : String) :
    Persists (fun found => LengthAt num cursor.rest found.1 found.2.rest)
      (arrayLength scope declaration field cursor)
      (arrayLength (scope.given more) declaration field cursor) := by
  rw [arrayLength_eq, arrayLength_eq]
  cases he : cursor.eat? '[' with
  | none => exact persists_pure (.none (head_of_eat?_eq_none he))
  | some opened =>
    obtain ⟨opening, ho, hopening, -⟩ := Cursor.eat?_eq_some_iff.1 he
    dsimp only
    cases hn : opened.next? with
    | none => exact persists_malformed
    | some found =>
      obtain ⟨token, inside⟩ := found
      have hi := (Cursor.next?_eq_some_iff.1 hn).1
      have hlength : ∀ text, token.text = text →
          Persists (fun found => LengthAt num cursor.rest found.1 found.2.rest)
            (lengthOf scope declaration field inside text)
            (lengthOf (scope.given more) declaration field inside text) := by
        rintro text rfl
        unfold lengthOf
        cases hv : scope.constants.resolve? token.text with
        | none => exact persists_malformed
        | some n =>
          obtain ⟨hnum, hmore⟩ := h token (hc.subset (by simp [ho, hi])) n hv
          rw [show (scope.given more).constants = more from rfl, hmore]
          dsimp only [lengthEnd]
          cases he : inside.eat? ']' with
          | none => exact persists_malformed
          | some closed =>
            obtain ⟨closing, hr, hclosing, -⟩ := Cursor.eat?_eq_some_iff.1 he
            dsimp only
            split
            · exact persists_malformed
            · split
              · exact persists_malformed
              · refine persists_pure ?_
                rw [ho, hi, hr]
                exact .some hopening hnum hclosing
      dsimp only
      cases hl : token.lexeme with
      | punct c => exact persists_malformed
      | word text => exact hlength text (by rw [Token.text, hl, Lexeme.text])
      | number text => exact hlength text (by rw [Token.text, hl, Lexeme.text])

/-! ## Layout lists -/

namespace LayoutList

theorem add_binding (list : LayoutList) (word : String) (value : Option Nat) :
    (list.add (word, value)).binding =
      if word = "binding" ∧ value.isSome then value else list.binding := by
  cases value with
  | some n =>
    simp only [add, Option.isSome_some, and_true]
    split
    · rfl
    · split <;> rfl
  | none =>
    simp only [add, Option.isSome_none, Bool.false_eq_true, and_false, if_false]
    cases Packing.ofName? word <;> rfl

theorem add_location (list : LayoutList) (word : String) (value : Option Nat) :
    (list.add (word, value)).location =
      if word = "location" ∧ value.isSome then value else list.location := by
  cases value with
  | some n =>
    simp only [add, Option.isSome_some, and_true]
    split
    · rename_i hw
      rw [hw, if_neg (by decide)]
    · split <;> rfl
  | none =>
    simp only [add, Option.isSome_none, Bool.false_eq_true, and_false, if_false]
    cases Packing.ofName? word <;> rfl

/-- What a list gives for a word is what the last entry with a value gives it. -/
theorem view_gather (view : LayoutList → Option Nat) {word : String} (hnone : view {} = none)
    (hadd : ∀ (list : LayoutList) other value, view (list.add (other, value)) =
      if other = word ∧ value.isSome then value else view list)
    (entries : List Entry) : view (gather entries) = lastValue word entries := by
  induction entries using List.reverseRecOn with
  | nil => exact hnone
  | append_singleton entries entry ih =>
    obtain ⟨other, value⟩ := entry
    have hgather : gather (entries ++ [(other, value)]) = (gather entries).add (other, value) := by
      rw [gather, List.foldl_append]
      rfl
    rw [hgather, hadd, ih, lastValue, lastValue, List.filterMap_append]
    by_cases hword : other = word
    · cases value <;> simp [hword]
    · simp [hword]

theorem entry_persists (h : HasNumbers scope more num base) (hc : cursor.rest <:+ base)
    (declaration : String) : Persists
      (Extends (fun tokens items behind => EntriesAt num tokens (items.filterMap id) behind)
        cursor.rest)
      (entry scope declaration () cursor) (entry (scope.given more) declaration () cursor) := by
  unfold entry
  cases hn : cursor.next? with
  | none => exact persists_malformed
  | some found =>
    obtain ⟨token, behind⟩ := found
    have hr := (Cursor.next?_eq_some_iff.1 hn).1
    dsimp only
    cases hl : token.lexeme with
    | number text => exact persists_malformed
    | punct c =>
      by_cases hend : c = ')'
      · subst hend
        refine persists_pure ?_
        rw [hr]
        exact .close hl
      · by_cases hsep : c = ','
        · subst hsep
          refine persists_pure ⟨⟨token, behind.rest, hr, List.suffix_refl _⟩, fun items _ hitems => ?_⟩
          rw [hr]
          exact .comma hl hitems
        · simp only [Lexeme.punct.injEq, hend, hsep, imp_self]
          exact persists_malformed
    | word name =>
      dsimp only
      cases he : behind.eat? '=' with
      | none =>
        refine persists_pure ⟨⟨token, behind.rest, hr, List.suffix_refl _⟩, fun items _ hitems => ?_⟩
        rw [hr]
        exact .word hl (head_of_eat?_eq_none he) hitems
      | some assigned =>
        obtain ⟨equals, ha, hequals, -⟩ := Cursor.eat?_eq_some_iff.1 he
        dsimp only
        cases hv : assigned.next? with
        | none => exact persists_malformed
        | some found =>
          obtain ⟨value, final⟩ := found
          have hf := (Cursor.next?_eq_some_iff.1 hv).1
          have htokens : cursor.rest = token :: equals :: value :: final.rest := by rw [hr, ha, hf]
          dsimp only
          cases hnumber : scope.constants.resolve? value.text with
          | none => exact persists_malformed
          | some n =>
            obtain ⟨hnum, hmore⟩ := h value (hc.subset (by simp [htokens])) n hnumber
            rw [show (scope.given more).constants = more from rfl, hmore]
            refine persists_pure ⟨⟨token, _, htokens, ⟨[equals, value], rfl⟩⟩, fun items _ hitems => ?_⟩
            rw [htokens]
            exact .value hl hequals hnum hitems

theorem read_persists (h : HasNumbers scope more num base) (hc : cursor.rest <:+ base)
    (declaration : String) : Persists
      (fun found => ListAt num cursor.rest ⟨found.1.binding, found.1.location⟩ found.2.rest)
      (read scope declaration cursor) (read (scope.given more) declaration cursor) := by
  unfold read
  cases he : cursor.eat? '(' with
  | none => exact persists_malformed
  | some opened =>
    obtain ⟨opening, ho, hopening, -⟩ := Cursor.eat?_eq_some_iff.1 he
    refine (loop_persists (fun _ _ hc => entry_persists h hc declaration) ()
      ((eat?_suffix he).trans hc)).bind ?_
    rintro ⟨items, closed⟩ hitems
    refine persists_pure ?_
    dsimp only
    rw [ho, view_gather binding rfl add_binding,
      view_gather location rfl add_location]
    exact .mk hopening hitems

end LayoutList

/-! ## Members -/

theorem skipWhile_rest (p : Lexeme → Bool) (line : Nat) (tokens : List Token) :
    (Cursor.skipWhile p line tokens).rest = tokens.dropWhile fun token => p token.lexeme := by
  induction tokens generalizing line with
  | nil => rfl
  | cons token tokens ih =>
    rw [Cursor.skipWhile, List.dropWhile_cons]
    split
    · exact ih _
    · rfl

theorem skipQualifiers_rest (cursor : Cursor) : cursor.skipQualifiers.rest = pastIdle cursor.rest :=
  skipWhile_rest _ _ _

theorem skipInitialiser_rest (cursor : Cursor) :
    (skipInitialiser cursor).rest = pastInitialiser cursor.rest := by
  obtain ⟨line, _ | ⟨token, rest⟩⟩ := cursor
  · rfl
  · unfold skipInitialiser pastInitialiser Cursor.eat?
    dsimp only
    by_cases he : token.lexeme = .punct '='
    · rw [if_pos he, if_pos he]
      exact skipWhile_rest _ _ _
    · rw [if_neg he, if_neg he]

/-- What comes behind a token of a list comes behind the first token of the list. -/
theorem shorter_of_suffix {tokens rest behind : List Token} {token : Token}
    (h : token :: rest <:+ tokens) (hb : behind <:+ rest) :
    ∃ first others, tokens = first :: others ∧ behind <:+ others := by
  obtain ⟨front, rfl⟩ := h
  cases front with
  | nil => exact ⟨token, rest, rfl, hb⟩
  | cons first front =>
    exact ⟨first, front ++ token :: rest, rfl, hb.trans ⟨front ++ [token], by simp⟩⟩

theorem declarator_persists (h : HasNumbers scope more num base) (hc : cursor.rest <:+ base)
    (declaration typeName : String) : Persists
      (Extends (DeclaratorsAt num scope.file typeName {} id) cursor.rest)
      (declarator scope declaration typeName () cursor)
      (declarator (scope.given more) declaration typeName () cursor) := by
  unfold declarator
  cases hw : cursor.word? with
  | none => exact persists_malformed
  | some found =>
    obtain ⟨token, name, named⟩ := found
    obtain ⟨hr, hname, -⟩ := Cursor.word?_eq_some_iff.1 hw
    dsimp only
    refine (arrayLength_persists h ((word?_suffix hw).trans hc) declaration name).bind ?_
    rintro ⟨length, behind⟩ hlength
    have hdeclared : ∀ {mark : Char} {final : Cursor}, behind.eat? mark = some final →
        DeclaratorAt num scope.file typeName {} id mark cursor.rest
          { typeName, name, arrayLength := length, source := scope.locate token } final.rest := by
      intro mark final hmark
      obtain ⟨ending, he, hending, -⟩ := Cursor.eat?_eq_some_iff.1 hmark
      rw [hr]
      exact .mk hname hlength he hending
    dsimp only
    cases hcomma : behind.eat? ',' with
    | some final =>
      refine persists_pure ⟨⟨token, named.rest, hr, ?_⟩, fun _ _ => .more (hdeclared hcomma)⟩
      exact (eat?_suffix hcomma).trans hlength.suffix
    | none =>
      dsimp only
      cases hend : behind.eat? ';' with
      | some final => exact persists_pure (.last (hdeclared hend))
      | none => exact persists_malformed

theorem memberLayout_persists (h : HasNumbers scope more num base) (hc : cursor.rest <:+ base)
    (declaration : String) : Persists (fun next => MemberHeadAt num cursor.rest next.rest)
      (memberLayout scope declaration cursor.skipQualifiers)
      (memberLayout (scope.given more) declaration cursor.skipQualifiers) := by
  have hidle := skipQualifiers_rest cursor
  unfold memberLayout
  split
  · rename_i token behind hw
    obtain ⟨hr, hword, -⟩ := Cursor.word?_eq_some_iff.1 hw
    have hbehind := (word?_suffix hw).trans (hidle ▸ pastIdle_suffix cursor.rest)
    refine (LayoutList.read_persists h (hbehind.trans hc) declaration).bind ?_
    rintro ⟨list, final⟩ hlist
    refine persists_note.bind fun _ _ => persists_pure ?_
    rw [skipQualifiers_rest]
    exact .listed (hidle.symm.trans hr) hword hlist
  · rename_i hother
    refine persists_pure ?_
    rw [hidle]
    refine .plain fun token ht hl => ?_
    obtain ⟨rest, hr⟩ := List.head?_eq_some_iff.1 ht
    exact hother token ⟨token.line, rest⟩ (by simp [Cursor.word?, hidle, hr, hl])

theorem memberGroup_persists (h : HasNumbers scope more num base) (hc : cursor.rest <:+ base)
    (declaration : String) : Persists
      (Extends (fun tokens groups behind => MembersAt num scope.file tokens groups.flatten behind)
        cursor.rest)
      (memberGroup scope declaration () cursor)
      (memberGroup (scope.given more) declaration () cursor) := by
  unfold memberGroup
  refine (memberLayout_persists h hc declaration).bind fun inner hinner => ?_
  cases hn : inner.next? with
  | none => exact persists_malformed
  | some found =>
    obtain ⟨token, behind⟩ := found
    have hr := (Cursor.next?_eq_some_iff.1 hn).1
    rw [hr] at hinner
    dsimp only
    split
    · rename_i hl
      exact persists_pure (.close hinner hl)
    · exact persists_malformed
    · rename_i typeName _ hl
      have hbehind := (List.suffix_cons _ _).trans hinner.suffix
      refine (loop_persists (fun _ _ hc => declarator_persists h hc declaration typeName) ()
        (hbehind.trans hc)).bind ?_
      rintro ⟨fields, final⟩ hfields
      refine persists_pure ⟨shorter_of_suffix hinner.suffix (hfields.suffix List.suffix_refl), ?_⟩
      exact fun groups _ hgroups => .group hinner hl hfields hgroups
    · exact persists_malformed

theorem members_persists (h : HasNumbers scope more num base) (hc : cursor.rest <:+ base)
    (declaration : String) :
    Persists (fun found => MembersAt num scope.file cursor.rest found.1 found.2.rest)
      (members scope declaration cursor) (members (scope.given more) declaration cursor) :=
  (loop_persists (fun _ _ hc => memberGroup_persists h hc declaration) () hc).bind
    fun _ hgroups => persists_pure hgroups

/-! ## Statements -/

section Statements

variable {start : Token} {rest body : List Token} {layout : LayoutList}

theorem blockEnd_persists (h : HasNumbers scope more num base) (hc : cursor.rest <:+ base)
    (hhead : HeadAt num start rest ⟨layout.binding, layout.location⟩ body) {inner middle : List Token}
    {blockName instanceName : Option String} (hname : BlockNameAt body blockName inner)
    {fields : List FieldDeclaration} (hmembers : MembersAt num scope.file inner fields middle)
    (hend : ∀ {length ending behind}, LengthAt num cursor.rest length (ending :: behind) →
      ending.lexeme = .punct ';' → BlockEndAt num middle instanceName behind)
    (packing : Packing) (attributes : List Attribute) :
    Persists (fun found => StatementAt num scope.file (start :: rest) found.1 found.2.rest)
      (blockEnd scope packing start layout attributes blockName fields instanceName cursor)
      (blockEnd (scope.given more) packing start layout attributes blockName fields instanceName
        cursor) := by
  unfold blockEnd
  refine (arrayLength_persists h hc _ _).bind ?_
  rintro ⟨length, behind⟩ hlength
  dsimp only
  cases he : behind.eat? ';' with
  | none => exact persists_malformed
  | some final =>
    obtain ⟨ending, hr, hending, -⟩ := Cursor.eat?_eq_some_iff.1 he
    have hgives : ∀ {entry}, BlockGives (scope.locate start) layout.binding fields
        (blockName.or instanceName) entry → StatementAt num scope.file (start :: rest) entry final.rest :=
      fun hgives => .block hhead hname hmembers (hend (hr ▸ hlength) hending) hgives
    cases hn : blockName.or instanceName with
    | none =>
      rw [hn] at hgives
      exact persists_note.bind fun _ _ => persists_pure (hgives .anonymous)
    | some name =>
      rw [hn] at hgives
      exact persists_ite_bind fun _ => persists_ite_bind fun _ =>
        persists_pure (hgives (.declaration rfl rfl rfl rfl))

theorem block_persists (h : HasNumbers scope more num base) (hrest : rest <:+ base)
    (hhead : HeadAt num start rest ⟨layout.binding, layout.location⟩ body)
    {blockName : Option String} (hname : BlockNameAt body blockName cursor.rest)
    (packing : Packing) (attributes : List Attribute) :
    Persists (fun found => StatementAt num scope.file (start :: rest) found.1 found.2.rest)
      (block scope packing start layout attributes blockName cursor)
      (block (scope.given more) packing start layout attributes blockName cursor) := by
  have hbase : cursor.rest <:+ base := hname.suffix.trans (hhead.suffix.trans hrest)
  rw [block_eq, block_eq]
  refine (members_persists h hbase _).bind ?_
  rintro ⟨fields, behind⟩ hmembers
  have hbehind : behind.rest <:+ base := hmembers.suffix.trans hbase
  dsimp only
  cases hw : behind.word? with
  | none =>
    exact blockEnd_persists h hbehind hhead hname hmembers (.none (head_of_word?_eq_none hw))
      packing attributes
  | some found =>
    obtain ⟨hr, hnamed, -⟩ := Cursor.word?_eq_some_iff.1 hw
    refine blockEnd_persists h ((word?_suffix hw).trans hbehind) hhead hname hmembers ?_
      packing attributes
    intro length ending final hlength hending
    rw [hr]
    exact .some hnamed hlength hending

theorem uniformDeclarator_persists (h : HasNumbers scope more num base) (hc : cursor.rest <:+ base)
    (typeName : String) (layout : LayoutList) (attributes : List Attribute) : Persists
      (Extends (fun tokens list behind => DeclaratorsAt num scope.file typeName
        ⟨layout.binding, layout.location⟩ pastInitialiser tokens
          (list.map UniformDeclaration.toField) behind) cursor.rest)
      (uniformDeclarator scope typeName layout attributes () cursor)
      (uniformDeclarator (scope.given more) typeName layout attributes () cursor) := by
  unfold uniformDeclarator
  cases hw : cursor.word? with
  | none => exact persists_malformed
  | some found =>
    obtain ⟨token, name, named⟩ := found
    obtain ⟨hr, hname, -⟩ := Cursor.word?_eq_some_iff.1 hw
    dsimp only
    refine (arrayLength_persists h ((word?_suffix hw).trans hc) name name).bind ?_
    rintro ⟨length, behind⟩ hlength
    have hdeclared : ∀ {mark : Char} {final : Cursor},
        (skipInitialiser behind).eat? mark = some final →
          DeclaratorAt num scope.file typeName ⟨layout.binding, layout.location⟩ pastInitialiser mark
            cursor.rest ⟨typeName, name, length, ⟨layout.binding, layout.location⟩, scope.locate token⟩
              final.rest := by
      intro mark final hmark
      obtain ⟨ending, he, hending, -⟩ := Cursor.eat?_eq_some_iff.1 hmark
      rw [hr]
      exact .mk hname hlength ((skipInitialiser_rest behind).symm.trans he) hending
    dsimp only
    cases hcomma : (skipInitialiser behind).eat? ',' with
    | some final =>
      refine persists_pure ⟨⟨token, named.rest, hr, ?_⟩, fun _ _ => .more (hdeclared hcomma)⟩
      have hskipped := skipInitialiser_rest behind ▸ pastInitialiser_suffix behind.rest
      exact (eat?_suffix hcomma).trans (hskipped.trans hlength.suffix)
    | none =>
      dsimp only
      cases hend : (skipInitialiser behind).eat? ';' with
      | some final => exact persists_pure (.last (hdeclared hend))
      | none => exact persists_malformed

theorem uniformBody_persists (h : HasNumbers scope more num base) (hrest : rest <:+ base)
    (hhead : HeadAt num start rest ⟨layout.binding, layout.location⟩ cursor.rest)
    (packing : Packing) (attributes : List Attribute) :
    Persists (fun found => StatementAt num scope.file (start :: rest) found.1 found.2.rest)
      (uniformBody scope packing start layout attributes cursor)
      (uniformBody (scope.given more) packing start layout attributes cursor) := by
  obtain ⟨line, tokens⟩ := cursor
  unfold uniformBody
  dsimp only
  cases tokens with
  | nil => exact persists_malformed
  | cons first others =>
    dsimp only
    split
    · rename_i hl
      exact persists_pure (.packing hhead hl)
    · rename_i hl
      exact block_persists h hrest hhead (.none hl) packing attributes
    · rename_i name second tail hl
      split
      · rename_i hopening
        exact block_persists h hrest hhead (.some hl hopening) packing attributes
      · have hnames := (List.suffix_cons _ _).trans (hhead.suffix.trans hrest)
        refine (loop_persists
          (fun _ _ hc => uniformDeclarator_persists h hc name layout attributes) () hnames).bind ?_
        rintro ⟨uniforms, final⟩ huniforms
        exact persists_pure (.uniforms hhead hl huniforms)
      · exact persists_malformed
    · exact persists_malformed

theorem statementBody_persists (h : HasNumbers scope more num base) (hrest : rest <:+ base)
    (hstart : start.lexeme = .word "layout")
    (hlist : ListAt num rest ⟨layout.binding, layout.location⟩ cursor.rest)
    (packing : Packing) (attributes : List Attribute) :
    Persists (fun found => StatementAt num scope.file (start :: rest) found.1 found.2.rest)
      (statementBody scope packing attributes start layout cursor)
      (statementBody (scope.given more) packing attributes start layout cursor) := by
  unfold statementBody
  split
  · rename_i token behind hw
    obtain ⟨hr, hkeyword, -⟩ := Cursor.word?_eq_some_iff.1 hw
    refine uniformBody_persists h hrest ?_ packing attributes
    rw [skipQualifiers_rest]
    exact .listed hstart (hr ▸ hlist) hkeyword
  · rename_i hother
    refine persists_pure (.other hstart hlist fun token ht hl => ?_)
    obtain ⟨tail, hr⟩ := List.head?_eq_some_iff.1 ht
    exact hother token ⟨token.line, tail⟩ (by simp [Cursor.word?, hr, hl])

theorem uniformStatement_persists (h : HasNumbers scope more num base) (hrest : rest <:+ base)
    (hword : start.lexeme = .word "layout" ∨ start.lexeme = .word "uniform") (packing : Packing)
    (attributes : List Attribute) :
    Persists (fun found => StatementAt num scope.file (start :: rest) found.1 found.2.rest)
      (uniformStatement scope packing attributes start rest)
      (uniformStatement (scope.given more) packing attributes start rest) := by
  rcases hword with hw | hw
  · rw [uniformStatement_layout _ _ _ hw, uniformStatement_layout _ _ _ hw]
    refine (LayoutList.read_persists h
      (show (⟨start.line, rest⟩ : Cursor).rest <:+ base from hrest) "layout").bind ?_
    rintro ⟨layout, cursor⟩ hlist
    exact statementBody_persists h hrest hw hlist packing attributes
  · rw [uniformStatement_uniform _ _ _ hw, uniformStatement_uniform _ _ _ hw]
    refine uniformBody_persists h hrest ?_ packing attributes
    rw [skipQualifiers_rest]
    exact .plain hw

theorem struct_persists (h : HasNumbers scope more num base) (hrest : rest <:+ base)
    (hstart : start.lexeme = .word "struct") {name : String}
    (hhead : structHead? rest = some (name, cursor)) (attributes : List Attribute) :
    Persists (fun found => StatementAt num scope.file (start :: rest) found.1 found.2.rest)
      (struct scope attributes start name cursor)
      (struct (scope.given more) attributes start name cursor) := by
  unfold struct
  refine (members_persists h ((structHead?_suffix hhead).trans hrest) name).bind ?_
  rintro ⟨fields, behind⟩ hmembers
  have hend : ((behind.eat? ';').getD behind).rest = pastEnd behind.rest := by
    obtain ⟨line, _ | ⟨token, tail⟩⟩ := behind
    · rfl
    · unfold Cursor.eat? pastEnd
      dsimp only
      split <;> rfl
  refine persists_pure ?_
  rw [hend]
  exact .struct hstart hhead rfl rfl hmembers

end Statements

/-- A statement persists, and gives what stands in the tokens. -/
theorem statement_persists (h : HasNumbers scope more num base) (pending : Pending)
    (hc : cursor.rest <:+ base) : Persists
      (Extends (fun tokens entries _ => StatementsAt num scope.file tokens entries) cursor.rest)
      (statement scope pending cursor) (statement (scope.given more) pending cursor) := by
  obtain ⟨line, tokens⟩ := cursor
  cases tokens with
  | nil =>
    unfold statement
    exact persists_pure .nil
  | cons token rest =>
    have hrest : rest <:+ base := (List.suffix_cons _ _).trans hc
    have hpass : ∀ {pending : Pending} {next : Cursor},
        StatementAt num scope.file (token :: rest) .nothing next.rest →
          Persists (Extends (fun tokens entries _ => StatementsAt num scope.file tokens entries)
            (token :: rest)) (pure (.again .nothing pending, next))
              (pure (.again .nothing pending, next)) :=
      fun hnothing => persists_pure ⟨hnothing.shorter, fun _ _ => .cons hnothing⟩
    have hdeclared : ∀ {x y : Reading (Entry × Cursor)}, Persists (fun found =>
        StatementAt num scope.file (token :: rest) found.1 found.2.rest) x y →
          Persists (Extends (fun tokens entries _ => StatementsAt num scope.file tokens entries)
            (token :: rest)) (pending.turn <$> x) (pending.turn <$> y) :=
      fun hxy => hxy.map fun found hfound => ⟨hfound.shorter, fun _ _ => .cons hfound⟩
    rcases start_cases token.lexeme with hm | hm | hm | hm | hm | hm
    · rw [statement_struct _ _ _ hm, statement_struct _ _ _ hm]
      cases hs : structHead? rest with
      | none => exact hpass (.passedOver (Or.inl ⟨hm, hs⟩))
      | some found => exact hdeclared (struct_persists h hrest hm hs _)
    · rw [statement_word _ _ _ hm, statement_word _ _ _ hm]
      exact hdeclared (uniformStatement_persists h hrest hm _ _)
    · have hgiven : StatementAt num scope.file (token :: rest) .nothing
          ((attribute? rest).elim rest (·.2.rest)) := .tagged hm
      rw [statement_attribute _ _ _ hm, statement_attribute _ _ _ hm]
      cases ha : attribute? rest with
      | none =>
        rw [ha] at hgiven
        exact hpass hgiven
      | some found =>
        rw [ha] at hgiven
        exact hpass hgiven
    · rw [statement_group _ _ _ hm, statement_group _ _ _ hm]
      exact hpass (.group hm)
    · rw [statement_end _ _ _ hm, statement_end _ _ _ hm]
      exact hpass (.passedOver (Or.inr (Or.inl hm)))
    · rw [statement_passedOver _ _ _ hm, statement_passedOver _ _ _ hm]
      exact hpass (.passedOver (Or.inr (Or.inr hm)))

/-! ## Sources -/

/-- What is read from a source whose constants are given. -/
def readGiven (constants : Constants) (key text : String) : Reading SourceContents :=
  gathered key (Cursor.loop (statement ⟨key, constants⟩) {} ⟨0, tokensIn text⟩)

theorem readGiven_constantsOf (key text : String) :
    readGiven (constantsOf text.toList) key text = SourceContents.read key text :=
  (read_eq key text).symm

/-- A source that is read gives what its statements do, with the numbers that stand in its tokens; and
more constants do not change what is read. -/
theorem read_persists (key : String) {text : String} {more : Constants} {num : Token → Nat → Prop}
    (h : HasNumbers ⟨key, constantsOf text.toList⟩ more num (tokensIn text)) :
    Persists (StandIn num (tokensIn text)) (SourceContents.read key text)
      (readGiven more key text) := by
  rw [← readGiven_constantsOf]
  have hloop := loop_persists (fun pending _ hc => statement_persists h pending hc) {}
    (show (⟨0, tokensIn text⟩ : Cursor).rest <:+ tokensIn text from List.suffix_refl _)
  intro contents hcontents
  cases hresult : (Cursor.loop (statement ⟨key, constantsOf text.toList⟩) {}
      ⟨0, tokensIn text⟩).result with
  | error e =>
    simp only [readGiven, gathered, hresult, Except.map] at hcontents
    cases hcontents
  | ok found =>
    obtain ⟨hentries, hsame⟩ := hloop found hresult
    simp only [readGiven, gathered, hresult, Except.map] at hcontents
    obtain rfl := Except.ok.inj hcontents
    exact ⟨⟨found.1, hentries, rfl⟩, congrArg (gathered key) hsame⟩

end Source

end UniformLayout
