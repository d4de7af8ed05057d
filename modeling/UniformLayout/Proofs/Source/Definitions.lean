import UniformLayout.Proofs.Source.Constants
import UniformLayout.Proofs.Source.Literals
import UniformLayout.Proofs.Source.Relocated
import Mathlib.Logic.Relation

/-!
# What a name stands for

A name is defined by a directive, of which the last one counts, or by a statement. What stands in the
definition is a literal, another name, or more than that; and only a literal at the end of a chain of
names gives a number.

* `Definition`: what a definition puts in the place of a name.
* `StandsFor`: the chain of definitions from a name to a literal.
* `Plain`: a name is not set by a directive that has more than one word, or a sign.

Main statement: `standsFor_of_resolve`.
-/

namespace UniformLayout

namespace Source

open Text (isSpace isBlank)

/-! ## Directives -/

/-- The name without parameters that a directive defines, and the text behind it. -/
def replacement? : List Char → Option (String × List Char)
  | '#' :: body =>
    (Text.cutStart? "define".toList (body.dropWhile isSpace)).bind fun rest =>
      let named := rest.dropWhile isSpace
      let name := String.ofList (named.takeWhile inWord)
      let behind := named.dropWhile inWord
      if rest.head?.any isSpace ∧ IsIdentifier name ∧ behind.head?.any isSpace ∧
          behind.any (!isSpace ·) then
        some (name, behind)
      else none
  | _ => none

theorem not_isBlank_of_inWord {c : Char} (h : inWord c) : isBlank c = false := by
  have hbound : c.toNat < 128 := by
    by_contra hlarge
    have hc : 128 ≤ c.val.toNat := Nat.le_of_not_lt hlarge
    unfold inWord Char.isAlphanum Char.isAlpha Char.isUpper Char.isLower Char.isDigit at h
    simp only [Bool.or_eq_true, Bool.and_eq_true, decide_eq_true_eq, beq_iff_eq, ge_iff_le,
      UInt32.le_iff_toNat_le] at h
    rcases h with ((⟨-, h⟩ | ⟨-, h⟩) | ⟨-, h⟩) | rfl
    · exact absurd (hc.trans h) (by decide)
    · exact absurd (hc.trans h) (by decide)
    · exact absurd (hc.trans h) (by decide)
    · exact absurd hc (by decide)
  exact of_ascii (p := fun c => inWord c → isBlank c = false) (by decide +kernel) hbound h

theorem words_spaces {text : List Char} :
    Text.words text = Text.words (text.dropWhile isSpace) := by
  conv_lhs => rw [← List.takeWhile_append_dropWhile (p := isSpace) (l := text)]
  exact Text.words_append_of_isBlank
    (fun c hc => Text.isBlank_of_isSpace (List.mem_takeWhile_imp hc)) _

/-- The words of a directive that defines a name. -/
theorem words_replacement? {line behind : List Char} {name : String}
    (h : replacement? line = some (name, behind)) : IsIdentifier name ∧
      Text.words (line.dropWhile (· == '#')) =
        "define".toList :: name.toList :: Text.words behind := by
  unfold replacement? at h
  split at h
  · rename_i body
    obtain ⟨rest, hrest, h⟩ := Option.bind_eq_some_iff.1 h
    dsimp only at h
    rw [Option.ite_none_right_eq_some, Option.some.injEq, Prod.mk.injEq] at h
    obtain ⟨⟨hgap, hname, hbehind, -⟩, rfl, rfl⟩ := h
    have hbody : body.dropWhile isSpace = "define".toList ++ rest := Text.cutStart?_eq_some_iff.1 hrest
    have hblank : ∀ {text : List Char}, text.head?.any isSpace → ∀ c ∈ text.head?, isBlank c :=
      fun hany c hc => by
        rw [Option.mem_def.1 hc] at hany
        exact Text.isBlank_of_isSpace hany
    have hhash : ('#' :: body).dropWhile (· == '#') = body := by
      cases body with
      | nil => rfl
      | cons c body =>
        have hc : c ≠ '#' := by
          rintro rfl
          rw [List.dropWhile_cons_of_neg (by decide)] at hbody
          exact absurd (List.cons.inj hbody).1 (by decide)
        simp [hc]
    have hnamed : Text.words (rest.dropWhile isSpace) =
        (rest.dropWhile isSpace).takeWhile inWord ::
          Text.words ((rest.dropWhile isSpace).dropWhile inWord) := by
      conv_lhs => rw [← List.takeWhile_append_dropWhile (p := inWord) (l := rest.dropWhile isSpace)]
      refine Text.words_word ?_ (fun c hc => not_isBlank_of_inWord (List.mem_takeWhile_imp hc))
        (hblank hbehind)
      intro hnil
      obtain ⟨c, more, hcons, -⟩ := hname
      rw [hnil] at hcons
      cases hcons
    refine ⟨hname, ?_⟩
    rw [hhash, words_spaces, hbody,
      Text.words_word (by decide) (by decide) (hblank hgap), words_spaces, hnamed]
    simp only [String.toList_ofList]
  · cases h

/-- The replacement that the last directive for the name gives it. -/
def lastReplacement? (text name : String) : Option (List Char) :=
  ((directiveLines text).filterMap replacement?).reverse.lookup name

/-- The name and the initialiser of a statement that defines a constant. -/
def initialiser? : List Token → Option (String × List Lexeme)
  | keyword :: type :: name :: equals :: rest =>
    match name.lexeme with
    | .word text =>
      if keyword.text = "const" ∧ (type.text = "int" ∨ type.text = "uint") ∧
          equals.lexeme = .punct '=' then
        some (text, (rest.map Token.lexeme).takeWhile (· ≠ .punct ';'))
      else none
    | _ => none
  | _ => none

def lexemesOf (text : List Char) : List Lexeme :=
  (tokensOf (itemsFrom 1 1 false [] text)).map Token.lexeme

/-- What a definition puts in the place of the name: the last directive for it, or a statement if there
is no directive. -/
inductive Definition (text name : String) : List Lexeme → Prop
  | directive {replacement : List Char} : lastReplacement? text name = some replacement →
      Definition text name (lexemesOf replacement)
  | statement {tokens : List Token} {value : List Lexeme} : lastReplacement? text name = none →
      tokens <:+ tokensIn text → initialiser? tokens = some (name, value) →
        Definition text name value

/-- The name stands for a number by so many definitions: each of them is another name, and the last one
is a literal. -/
inductive StandsFor (text : String) : Nat → String → Nat → Prop
  | literal {name digits : String} {value : Nat} : Definition text name [.number digits] →
      IsLiteral digits value → StandsFor text 1 name value
  | link {steps value : Nat} {name next : String} : Definition text name [.word next] →
      StandsFor text steps next value → StandsFor text (steps + 1) name value

/-! ## Names that are set by one word -/

/-- The directive gives its name one word, which has no sign. -/
def isPlain (line : List Char) : Bool :=
  (replacement? line).any fun found =>
    found.2.all (fun c => !isBlank c || isSpace c) &&
      match Text.words found.2 with
      | [word] => !isSigned word
      | _ => false

/-- The directive is for the name, or is taken for one. -/
def sets (name : String) (line : List Char) : Bool :=
  (replacement? line).any (·.1 == name) || (Constants.ofDirective? line).any (·.1 == name)

theorem sets_of_directive? {name : String} (line : List Char)
    (h : (Constants.ofDirective? line).any (·.1 == name)) : sets name line := by
  simp [sets, h]

theorem sets_of_replacement? {name : String} (line : List Char)
    (h : (replacement? line).any (·.1 == name)) : sets name line := by
  simp [sets, h]

/-- The last directive for the name gives it one word, if there is a directive for it. -/
def Plain (text name : String) : Prop :=
  ∀ line, (directiveLines text).reverse.find? (sets name) = some line → isPlain line

/-- One name is followed to the next one. -/
def FollowsTo (text name next : String) : Prop :=
  (constantsOf text.toList).lookup name = some next

/-- All names that the name is followed to are plain. -/
def PlainFrom (text name : String) : Prop :=
  ∀ other, Relation.ReflTransGen (FollowsTo text) name other → Plain text other

theorem PlainFrom.plain {text name : String} (h : PlainFrom text name) : Plain text name :=
  h name .refl

theorem PlainFrom.next {text name next : String} (h : PlainFrom text name)
    (hnext : FollowsTo text name next) : PlainFrom text next :=
  fun other ho => h other (.head hnext ho)

/-- The first line that may set the name decides, if it does set it. -/
theorem lookup_filterMap {lines : List (List Char)} {β : Type} {f : List Char → Option (String × β)}
    {p : List Char → Bool} {name : String} (hp : ∀ line, (f line).any (·.1 == name) → p line) :
    (lines.find? p = none → (lines.filterMap f).lookup name = none) ∧
      ∀ line value, lines.find? p = some line → f line = some (name, value) →
        (lines.filterMap f).lookup name = some value := by
  induction lines with
  | nil => simp
  | cons first lines ih =>
    rw [List.find?_cons, List.filterMap_cons]
    cases hfirst : p first with
    | true =>
      refine ⟨by simp, fun line value hline hvalue => ?_⟩
      obtain rfl := Option.some.inj hline
      rw [hvalue]
      exact List.lookup_cons_self
    | false =>
      have hskip : ∀ entry, f first = some entry → (name == entry.1) = false := by
        intro entry he
        refine beq_eq_false_iff_ne.2 ?_
        rintro rfl
        rw [hp first (by simp [he])] at hfirst
        cases hfirst
      cases hf : f first with
      | none => exact ih
      | some entry =>
        dsimp only
        rw [List.lookup_cons, hskip entry hf]
        exact ih

/-- The replacement of a plain directive is one word among spaces, and that is what is taken for it. -/
theorem replacement?_of_isPlain {line : List Char} (h : isPlain line) :
    ∃ name behind word, replacement? line = some (name, behind) ∧
      Constants.ofDirective? line = some (name, String.ofList word) ∧ IsIdentifier name ∧
        isSigned word = false ∧ ∃ blanks rest, behind = blanks ++ (word ++ rest) ∧
          ∀ c ∈ blanks ++ rest, isSpace c := by
  unfold isPlain at h
  cases hr : replacement? line with
  | none =>
    rw [hr] at h
    cases h
  | some found =>
    obtain ⟨name, behind⟩ := found
    obtain ⟨hname, hwords⟩ := words_replacement? hr
    simp only [hr, Option.any_some, Bool.and_eq_true, List.all_eq_true, Bool.or_eq_true,
      Bool.not_eq_true'] at h
    obtain ⟨hspaces, hword⟩ := h
    rcases Text.words_cases behind with ⟨hnone, -⟩ | ⟨blanks, word, rest, hbehind, hfirst, hblanks, -⟩
    · rw [hnone] at hword
      cases hword
    · rcases Text.words_cases rest with ⟨hnone, hrest⟩ | ⟨_, next, _, -, hnext, -⟩
      · rw [hfirst, hnone] at hword
        refine ⟨name, behind, word, rfl, ?_, hname, by simpa using hword, blanks, rest, hbehind, ?_⟩
        · rw [Constants.ofDirective?, hwords, hfirst]
          simp
        · intro c hc
          have hblank : isBlank c := (List.mem_append.1 hc).elim (hblanks c) (hrest c)
          refine (hspaces c ?_).resolve_left (by simp [hblank])
          rw [hbehind]
          rcases List.mem_append.1 hc with hc | hc <;> simp [hc]
      · rw [hfirst, hnext] at hword
        cases hword

theorem lexemesOf_word {found : Lexeme} (h : found.Proper) {blanks rest : List Char}
    (hspaces : ∀ c ∈ blanks ++ rest, isSpace c) :
    lexemesOf (blanks ++ (found.text.toList ++ rest)) = [found] := by
  have hrest : LexesTo rest [] := by
    have hnil : LexesTo (rest ++ []) [] :=
      lexesTo_nil.spaces fun c hc => hspaces c (List.mem_append_right _ hc)
    rwa [List.append_nil] at hnil
  have hfound : LexesTo (found.text.toList ++ rest) [found] := by
    refine hrest.cons h fun c hc => ?_
    obtain ⟨hword, hnumber⟩ :=
      isSpace_plain (hspaces c (List.mem_append_right _ (List.mem_of_mem_head? hc)))
    exact Lexeme.not_continues hword hnumber
  exact hfound.spaces (fun c hc => hspaces c (List.mem_append_left _ hc)) 1 1 false []

/-! ## Definitions of plain names -/

theorem exists_of_mem_ofStatements {tokens : List Token} {entry : String × String}
    (h : entry ∈ Constants.ofStatements tokens) :
    ∃ found, found <:+ tokens ∧ Constants.ofStatement? found = some entry := by
  induction tokens with
  | nil => cases h
  | cons token tokens ih =>
    rw [Constants.ofStatements, List.mem_append, Option.mem_toList] at h
    rcases h with h | h
    · exact ⟨token :: tokens, List.suffix_refl _, h⟩
    · obtain ⟨found, hfound, h⟩ := ih h
      exact ⟨found, hfound.trans (List.suffix_cons _ _), h⟩

/-- A definition that is taken from a statement is a word or a number. -/
theorem definition_of_statement {text name value : String}
    (hnone : lastReplacement? text name = none)
    (h : (name, value) ∈ Constants.ofStatements (tokensIn text)) :
    IsIdentifier name ∧ ∃ found : Lexeme, (found = .word value ∨ found = .number value) ∧
      found.Proper ∧ Definition text name [found] := by
  obtain ⟨tokens, hsuffix, hs⟩ := exists_of_mem_ofStatements h
  obtain ⟨keyword, type, named, equals, given, ending, rest, rfl, hkeyword, htype, hname, hequals,
    hvalue, hending⟩ := Constants.ofStatement?_eq_some_iff.1 hs
  have hinside : ∀ token ∈ [named, given], token ∈ tokensIn text := by
    intro token ht
    refine hsuffix.subset ?_
    simp only [List.mem_cons, List.not_mem_nil, or_false] at ht
    rcases ht with rfl | rfl <;> simp
  have hnamed : ∀ token ∈ tokensIn text, token.Named := named_tokensOf_items _
  have hproper : given.lexeme.Proper := by
    rcases hvalue with hv | hv
    · rw [hv]
      exact hnamed given (hinside given (by simp)) value hv
    · rw [hv]
      exact proper_of_number (hinside given (by simp)) hv
  refine ⟨hnamed named (hinside named (by simp)) name hname, given.lexeme, hvalue, hproper, ?_⟩
  refine .statement hnone hsuffix ?_
  have hgiven : given.lexeme ≠ .punct ';' := by
    rcases hvalue with hv | hv <;> simp [hv]
  simp [initialiser?, hname, hkeyword, htype, hequals, hending, hgiven]

/-- A plain directive that decides for a name gives it a word, without a sign. Whatever lexeme the word
is stands in the definition. -/
theorem definition_of_directive {text name : String} {line : List Char}
    (hf : (directiveLines text).reverse.find? (sets name) = some line) (hplain : isPlain line) :
    IsIdentifier name ∧ ∃ word, Constants.ofDirective? line = some (name, String.ofList word) ∧
      isSigned word = false ∧ ∀ found : Lexeme, found.Proper → found.text = String.ofList word →
        Definition text name [found] := by
  obtain ⟨other, behind, word, hreplacement, hdirective, hname, hsign, blanks, rest, hbehind,
    hspaces⟩ := replacement?_of_isPlain hplain
  obtain rfl : other = name := by
    have hsets := List.find?_some hf
    simpa [sets, hreplacement, hdirective] using hsets
  have hlast : lastReplacement? text other = some behind := by
    rw [lastReplacement?, ← List.filterMap_reverse]
    exact (lookup_filterMap sets_of_replacement?).2 line behind hf hreplacement
  refine ⟨hname, word, hdirective, hsign, fun found hfound htext => ?_⟩
  have hlexemes := lexemesOf_word hfound hspaces
  rw [htext, String.toList_ofList, ← hbehind] at hlexemes
  exact hlexemes ▸ .directive hlast

/-- What a plain name is taken for stands in its definition: a literal, if it is read as a number, and
a name, if it is one. -/
theorem definition_of_followsTo {text name value : String} (hplain : Plain text name)
    (h : FollowsTo text name value) : IsIdentifier name ∧
      (∀ number, Text.integerLiteral? value = some number →
        Definition text name [.number value] ∧ IsLiteral value number) ∧
        (IsIdentifier value → Definition text name [.word value]) := by
  have hlookup : (((directiveLines text).reverse.filterMap Constants.ofDirective?) ++
      Constants.ofStatements (tokensIn text)).lookup name = some value := by
    rw [List.filterMap_reverse]
    exact h
  rw [List.lookup_append] at hlookup
  cases hf : (directiveLines text).reverse.find? (sets name) with
  | none =>
    rw [(lookup_filterMap sets_of_directive?).1 hf, Option.none_or] at hlookup
    obtain ⟨front, back, heq, -⟩ := List.lookup_eq_some_iff.1 hlookup
    have hmem : (name, value) ∈ Constants.ofStatements (tokensIn text) := by
      rw [heq]
      simp
    have hnone : lastReplacement? text name = none := by
      rw [lastReplacement?, ← List.filterMap_reverse]
      exact (lookup_filterMap sets_of_replacement?).1 hf
    obtain ⟨hname, found, hfound, hproper, hdefinition⟩ := definition_of_statement hnone hmem
    refine ⟨hname, fun number hnumber => ?_, fun hvalue => ?_⟩
    · rcases hfound with rfl | rfl
      · rw [integerLiteral?_of_isIdentifier hproper] at hnumber
        cases hnumber
      · exact ⟨hdefinition, isLiteral_of_integerLiteral? hnumber (isSigned_of_proper hproper)⟩
    · rcases hfound with rfl | rfl
      · exact hdefinition
      · obtain ⟨c, rest, htext, hc, -⟩ := hproper
        obtain ⟨d, rest', htext', hd, -⟩ := hvalue
        obtain ⟨rfl, -⟩ := List.cons.inj (htext.symm.trans htext')
        exact absurd hd (not_startsWord_of_isDigit hc)
  | some line =>
    obtain ⟨hname, word, hdirective, hsign, hdefinition⟩ := definition_of_directive hf (hplain line hf)
    rw [(lookup_filterMap sets_of_directive?).2 line _ hf hdirective, Option.some_or] at hlookup
    obtain rfl := Option.some.inj hlookup
    refine ⟨hname, fun number hnumber => ?_, fun hvalue => hdefinition _ hvalue rfl⟩
    have hnosign : isSigned (String.ofList word).toList = false := by rwa [String.toList_ofList]
    exact ⟨hdefinition _ (proper_of_integerLiteral? hnumber hnosign) rfl,
      isLiteral_of_integerLiteral? hnumber hnosign⟩

/-! ## Numbers of names -/

/-- The number of a name is the value of the literal at the end of its chain of definitions. -/
theorem standsFor_of_resolve {text name : String} {value depth : Nat} (hplain : PlainFrom text name)
    (hname : IsIdentifier name)
    (h : (constantsOf text.toList).resolveWithin? depth name = some value) :
    ∃ steps < depth, StandsFor text steps name value := by
  induction depth generalizing name with
  | zero => cases h
  | succ depth ih =>
    rw [Constants.resolveWithin?, integerLiteral?_of_isIdentifier hname] at h
    obtain ⟨next, hnext, h⟩ := Option.bind_eq_some_iff.1 h
    obtain ⟨-, hliteral, hlink⟩ := definition_of_followsTo hplain.plain hnext
    cases depth with
    | zero => cases h
    | succ depth =>
      cases hn : Text.integerLiteral? next with
      | some number =>
        rw [Constants.resolveWithin?, hn] at h
        obtain rfl := Option.some.inj h
        obtain ⟨hdefinition, hvalue⟩ := hliteral number hn
        exact ⟨1, Nat.succ_lt_succ (Nat.succ_pos _), .literal hdefinition hvalue⟩
      | none =>
        have hid : IsIdentifier next := by
          rw [Constants.resolveWithin?, hn] at h
          obtain ⟨last, hlast, -⟩ := Option.bind_eq_some_iff.1 h
          exact (definition_of_followsTo (hplain.next hnext).plain hlast).1
        obtain ⟨steps, hsteps, hstands⟩ := ih (hplain.next hnext) hid h
        exact ⟨steps + 1, Nat.succ_lt_succ hsteps, .link (hlink hid) hstands⟩

/-- A token that is no name is taken for a number only if it is a literal, and then for its value. -/
theorem isLiteral_of_resolve {text : String} {token : Token} {value : Nat}
    (ht : token ∈ tokensIn text) (hname : ∀ name, token.lexeme ≠ .word name)
    (hplain : Plain text token.text)
    (h : (constantsOf text.toList).resolve? token.text = some value) : IsLiteral token.text value := by
  -- No directive and no statement defines what is no name.
  have hlookup : ¬ IsIdentifier token.text →
      (constantsOf text.toList).lookup token.text = none := fun hno =>
    Option.eq_none_iff_forall_ne_some.2 fun next hnext => hno (definition_of_followsTo hplain hnext).1
  rw [Constants.resolve?, Constants.maxDepth, Constants.resolveWithin?] at h
  cases hl : token.lexeme with
  | word name => exact absurd hl (hname name)
  | number digits =>
    have hproper := proper_of_number ht hl
    have htext : token.text = digits := by rw [Token.text, hl, Lexeme.text]
    rw [htext] at h hlookup ⊢
    cases hv : Text.integerLiteral? digits with
    | some number =>
      rw [hv] at h
      obtain rfl := Option.some.inj h
      exact isLiteral_of_integerLiteral? hv (isSigned_of_proper hproper)
    | none =>
      have hno : ¬ IsIdentifier digits := by
        rintro ⟨d, rest', htext', hd, -⟩
        obtain ⟨c, rest, htext, hc, -⟩ := hproper
        obtain ⟨rfl, -⟩ := List.cons.inj (htext.symm.trans htext')
        exact not_startsWord_of_isDigit hc hd
      rw [hv, hlookup hno] at h
      cases h
  | punct c =>
    obtain ⟨_, _, hlexeme⟩ := exists_lexeme ht
    obtain ⟨hword, hdigit⟩ := plain_lexeme (hlexeme.trans hl)
    have htext : token.text = c.toString := by rw [Token.text, hl, Lexeme.text]
    have hno : ¬ IsIdentifier token.text := by
      rintro ⟨d, rest, hd, hstart, -⟩
      rw [htext, show c.toString.toList = [c] by simp] at hd
      obtain ⟨rfl, -⟩ := List.cons.inj hd
      exact hword hstart
    rw [hlookup hno, htext, integerLiteral?_of_mark hdigit] at h
    cases h

end Source

end UniformLayout
