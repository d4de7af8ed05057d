import UniformLayout.Proofs.Compilation.Refusals
import UniformLayout.Proofs.Source.Numbers

/-!
# Numbers that are written as names

A name that is given for a number in a source is followed to its definition. The number that is taken
for it is the one that the name stands for; a name that stands for no number makes the source
malformed, wherever its number matters.

* `Means`: what a number in the contents of a source has to do with the token at its place.
* `Asks`: what is read depends on the number of a name.

Main statement: `numbers_of_names`.
-/

namespace UniformLayout

namespace Source

open Logged

/-! ## Names without a number -/

namespace Constants

variable {constants : Constants} {text : String} {n : Nat}

/-- A number that is found stays the same if more links may be followed. -/
theorem resolveWithin?_mono {depth depth' : Nat} (hd : depth ≤ depth')
    (h : constants.resolveWithin? depth text = some n) :
    constants.resolveWithin? depth' text = some n := by
  induction depth generalizing text depth' with
  | zero => cases h
  | succ depth ih =>
    obtain ⟨depth', rfl⟩ := Nat.exists_eq_add_one.2 (Nat.lt_of_lt_of_le (Nat.succ_pos _) hd)
    rw [resolveWithin?] at h ⊢
    cases hv : Text.integerLiteral? text with
    | some value => rwa [hv] at h
    | none =>
      rw [hv] at h
      obtain ⟨next, hnext, h⟩ := Option.bind_eq_some_iff.1 h
      exact Option.bind_eq_some_iff.2 ⟨next, hnext, ih (Nat.le_of_succ_le_succ hd) h⟩

/-- A definition for a name that has no number is not in the way of any number. -/
theorem resolve?_cons {name : String} (hname : constants.resolve? name = none) (value : String)
    (h : constants.resolve? text = some n) : resolve? ((name, value) :: constants) text = some n := by
  have hwithin : ∀ depth ≤ maxDepth, ∀ text, constants.resolveWithin? depth text = some n →
      resolveWithin? ((name, value) :: constants) depth text = some n := by
    intro depth
    induction depth with
    | zero => exact fun _ _ h => h
    | succ depth ih =>
      intro hd text h
      -- The chain cannot pass the name, which would have the number then.
      have hne : (text == name) = false := by
        refine beq_eq_false_iff_ne.2 ?_
        rintro rfl
        exact absurd ((resolveWithin?_mono hd h).symm.trans hname) (Option.some_ne_none n)
      rw [resolveWithin?] at h ⊢
      cases hv : Text.integerLiteral? text with
      | some value => rwa [hv] at h
      | none =>
        rw [hv] at h
        obtain ⟨next, hnext, h⟩ := Option.bind_eq_some_iff.1 h
        refine Option.bind_eq_some_iff.2 ⟨next, ?_, ih (Nat.le_of_succ_le hd) next h⟩
        rw [List.lookup_cons, hne]
        exact hnext
  exact hwithin maxDepth le_rfl text h

end Constants

/-! ## What names stand for -/

variable {text name : String}

/-- What the token is taken for is the number that a name stands for, or the value of a literal; if no
directive gives the name, or what it is followed to, more than one word or a sign. -/
structure Means (text : String) (token : Token) (n : Nat) : Prop where
  name : ∀ name, token.lexeme = .word name → PlainFrom text name →
    ∃ steps < Constants.maxDepth, StandsFor text steps name n
  literal : (∀ name, token.lexeme ≠ .word name) → Plain text token.text → IsLiteral token.text n

/-- What is read is not the same for all numbers that the name might stand for. -/
def Asks (key text name : String) : Prop :=
  ∃ value, readGiven ((name, value) :: constantsOf text.toList) key text ≠
    SourceContents.read key text

instance (text name : String) : Decidable (Plain text name) :=
  decidable_of_iff (((directiveLines text).reverse.find? (sets name)).all isPlain) (by
    unfold Plain
    cases (directiveLines text).reverse.find? (sets name) <;> simp)

/-- A name is plain from its definition on if it is plain, and so is the name it is followed to. -/
theorem plainFrom_of_next (h : Plain text name)
    (hnext : ∀ next, FollowsTo text name next → PlainFrom text next) : PlainFrom text name := by
  intro other ho
  rcases ho.cases_head with rfl | ⟨next, hn, ho⟩
  · exact h
  · exact hnext next hn other ho

/-- What is not defined by one token stands for nothing. -/
theorem length_of_standsFor {steps n : Nat} (h : StandsFor text steps name n) :
    ∃ lexemes, Definition text name lexemes ∧ lexemes.length = 1 := by
  cases h with
  | literal hdefinition _ => exact ⟨_, hdefinition, rfl⟩
  | link hdefinition _ => exact ⟨_, hdefinition, rfl⟩

/-- A directive for a name is its only definition. -/
theorem lexemes_of_directive {replacement : List Char} {lexemes : List Lexeme}
    (hlast : lastReplacement? text name = some replacement) (h : Definition text name lexemes) :
    lexemes = lexemesOf replacement := by
  cases h with
  | directive h => rw [Option.some.inj (hlast.symm.trans h)]
  | statement hnone _ _ => exact absurd (hlast.symm.trans hnone) (Option.some_ne_none _)

theorem identifier_of_mem {token : Token} (ht : token ∈ tokensIn text)
    (hname : token.lexeme = .word name) : IsIdentifier name :=
  named_tokensOf_items _ token ht name hname

/-- The numbers of a source are what its names stand for and the values of its literals. -/
theorem means_of_resolve (key text : String) :
    HasNumbers ⟨key, constantsOf text.toList⟩ (constantsOf text.toList) (Means text)
      (tokensIn text) := by
  refine fun token ht n hn => ⟨⟨fun name hname hplain => ?_,
    fun hname hplain => isLiteral_of_resolve ht hname hplain hn⟩, hn⟩
  have htext : token.text = name := by rw [Token.text, hname, Lexeme.text]
  rw [htext] at hn
  exact standsFor_of_resolve hplain (identifier_of_mem ht hname) hn

/-- A name that has no number may be defined in another way, if the source can be read. -/
theorem read_of_resolve_none (key : String) {contents : SourceContents}
    (hname : (constantsOf text.toList).resolve? name = none)
    (h : (SourceContents.read key text).result = .ok contents) (value : String) :
    readGiven ((name, value) :: constantsOf text.toList) key text = SourceContents.read key text := by
  have hnumbers : HasNumbers ⟨key, constantsOf text.toList⟩ ((name, value) :: constantsOf text.toList)
      (fun _ _ => True) (tokensIn text) :=
    fun _ _ _ hn => ⟨trivial, Constants.resolve?_cons hname value hn⟩
  exact (read_persists key hnumbers contents h).2

/-- The contents of a source are what its statements give, and each number in them is the value of the
literal at its place, or the number that the name there stands for. A name that stands for no number, such
as one that is defined by more than one token, is never taken for one: the source is malformed if it asks
for the number of such a name. -/
theorem numbers_of_names (key text : String) :
    ((SourceContents.read key text).Ensures (StandIn (Means text) (tokensIn text))) ∧
      (∀ name, IsIdentifier name → PlainFrom text name →
        (∀ steps < Constants.maxDepth, ∀ n, ¬ StandsFor text steps name n) → Asks key text name →
          ∃ e, (SourceContents.read key text).result = .error e ∧ e.IsMalformation key) ∧
      ∀ name, (∀ lexemes, Definition text name lexemes → lexemes.length ≠ 1) →
        ∀ steps n, ¬ StandsFor text steps name n := by
  refine ⟨fun contents h => (read_persists key (means_of_resolve key text) contents h).1,
    fun name hname hplain hnone hasks => ?_, fun name hlength steps n hstands => ?_⟩
  · have hresolve : (constantsOf text.toList).resolve? name = none := by
      refine Option.eq_none_iff_forall_ne_some.2 fun n hn => ?_
      obtain ⟨steps, hsteps, hstands⟩ := standsFor_of_resolve hplain hname hn
      exact hnone steps hsteps n hstands
    obtain ⟨value, hvalue⟩ := hasks
    cases hread : (SourceContents.read key text).result with
    | ok contents => exact absurd (read_of_resolve_none key hresolve hread value) hvalue
    | error e => exact ⟨e, rfl, failsWith_read key text e hread⟩
  · obtain ⟨lexemes, hdefinition, hone⟩ := length_of_standsFor hstands
    exact hlength lexemes hdefinition hone

/-- The length of an array is the number at the end of a chain of two definitions; and a definition by a
product is refused. -/
theorem numbers_of_slots :
    PlainFrom "#define N SLOTS\nconst int SLOTS = 4;\nuniform vec4 glow[N];" "N" ∧
      (∃ steps < Constants.maxDepth,
        StandsFor "#define N SLOTS\nconst int SLOTS = 4;\nuniform vec4 glow[N];" steps "N" 4) ∧
      PlainFrom "const int N = 2 * 3;\nuniform vec4 glow[N];" "N" ∧
      ∃ e, (SourceContents.read "a.glsl" "const int N = 2 * 3;\nuniform vec4 glow[N];").result =
        .error e ∧ e.IsMalformation "a.glsl" := by
  have hchain : PlainFrom "#define N SLOTS\nconst int SLOTS = 4;\nuniform vec4 glow[N];" "N" := by
    refine plainFrom_of_next (by decide +kernel) fun next hnext => ?_
    obtain rfl : "SLOTS" = next := Option.some.inj ((by decide +kernel : _ = _).symm.trans hnext)
    refine plainFrom_of_next (by decide +kernel) fun next hnext => ?_
    obtain rfl : "4" = next := Option.some.inj ((by decide +kernel : _ = _).symm.trans hnext)
    refine plainFrom_of_next (by decide +kernel) fun next hnext => ?_
    exact absurd ((by decide +kernel : _ = none).symm.trans hnext) (by simp)
  have hproduct : PlainFrom "const int N = 2 * 3;\nuniform vec4 glow[N];" "N" := by
    refine plainFrom_of_next (by decide +kernel) fun next hnext => ?_
    exact absurd ((by decide +kernel : _ = none).symm.trans hnext) (by simp)
  refine ⟨hchain, ?_, hproduct, ?_⟩
  · have hread := (numbers_of_names "a.glsl"
      "#define N SLOTS\nconst int SLOTS = 4;\nuniform vec4 glow[N];").1
    cases hresult : (SourceContents.read "a.glsl"
        "#define N SLOTS\nconst int SLOTS = 4;\nuniform vec4 glow[N];").result with
    | error e =>
      have hok : (SourceContents.read "a.glsl"
          "#define N SLOTS\nconst int SLOTS = 4;\nuniform vec4 glow[N];").result.isOk := by
        decide +kernel
      rw [hresult] at hok
      cases hok
    | ok contents =>
      have huniforms : contents.uniforms.map (fun uniform => (uniform.name, uniform.arrayLength)) =
          [("glow", some 4)] := by
        have hdeclared : (SourceContents.read "a.glsl"
            "#define N SLOTS\nconst int SLOTS = 4;\nuniform vec4 glow[N];").result.map
              (fun contents => contents.uniforms.map
                fun uniform => (uniform.name, uniform.arrayLength)) = .ok [("glow", some 4)] := by
          decide +kernel
        rw [hresult] at hdeclared
        exact Except.ok.inj hdeclared
      obtain ⟨uniform, hu, hglow⟩ : ∃ uniform ∈ contents.uniforms,
          (uniform.name, uniform.arrayLength) = ("glow", some 4) :=
        List.mem_map.1 (huniforms ▸ List.mem_singleton_self _)
      obtain ⟨hname, hlength⟩ := Prod.mk.inj hglow
      obtain ⟨start, rest, type, body, named, behind, after, hstart, hhead, hsuffix, hnamed, hat⟩ :=
        (hread contents hresult).uniform_at hu
      have hbody := (List.suffix_cons _ _).trans
        (hhead.suffix.trans ((List.suffix_cons _ _).trans hstart))
      have hplace : ∀ tail ∈ (tokensIn
          "#define N SLOTS\nconst int SLOTS = 4;\nuniform vec4 glow[N];").tails,
          (tail[0]?).map Token.lexeme = some (.word "glow") →
            (tail[2]?).map Token.lexeme = some (.word "N") := by
        decide +kernel
      have htail := hplace _ ((List.mem_tails _ _).2 (hsuffix.trans hbody)) (by
        rw [← hname]
        exact congrArg some hnamed)
      rw [hlength] at hat
      cases hat with
      | some _ hmeans _ => exact hmeans.name "N" (Option.some.inj htail) hchain
  · refine (numbers_of_names "a.glsl" "const int N = 2 * 3;\nuniform vec4 glow[N];").2.1 "N"
      (by decide +kernel) hproduct ?_ ⟨"6", ?_⟩
    · refine fun steps _ => (numbers_of_names "a.glsl"
        "const int N = 2 * 3;\nuniform vec4 glow[N];").2.2 "N" (fun lexemes hdefinition => ?_) steps
      have hstatements : ∀ tail ∈ (tokensIn "const int N = 2 * 3;\nuniform vec4 glow[N];").tails,
          (initialiser? tail).all fun found => found.2.length != 1 := by
        decide +kernel
      cases hdefinition with
      | directive hlast => exact absurd ((by decide +kernel : _ = none).symm.trans hlast) (by simp)
      | statement _ hsuffix hfound =>
        simpa [hfound] using hstatements _ ((List.mem_tails _ _).2 hsuffix)
    · refine fun hsame => absurd (congrArg (fun reading => reading.result.isOk) hsame) ?_
      decide +kernel

/-- The first word of a product is taken for its value. -/
theorem product_taken_for_factor :
    (SourceContents.read "a.glsl" "#define N 2 * 3\nstruct Fog { float near[N]; };").result.map
        (fun contents => contents.declarations.map fun decl =>
          decl.fields.map fun field => (field.name, field.arrayLength)) =
        .ok [[("near", some 2)]] ∧
      Definition "#define N 2 * 3\nstruct Fog { float near[N]; };" "N"
        [.number "2", .punct '*', .number "3"] ∧
      ∀ steps n, ¬ StandsFor "#define N 2 * 3\nstruct Fog { float near[N]; };" steps "N" n := by
  have hlast : lastReplacement? "#define N 2 * 3\nstruct Fog { float near[N]; };" "N" =
      some " 2 * 3".toList := by
    decide +kernel
  have hlexemes : lexemesOf " 2 * 3".toList = [.number "2", .punct '*', .number "3"] := by
    decide +kernel
  refine ⟨by decide +kernel, hlexemes ▸ .directive hlast, fun steps n hstands => ?_⟩
  obtain ⟨lexemes, hdefinition, hone⟩ := length_of_standsFor hstands
  rw [lexemes_of_directive hlast hdefinition, hlexemes] at hone
  exact absurd hone (by decide)

end Source

end UniformLayout
