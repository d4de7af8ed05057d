import UniformLayout.Proofs.Source.Group

/-!
# Statements that define constants

A constant is defined by six tokens that follow each other. Where a token between two stretches of a
source cannot be one of such six together with what is around it, the constants are those of the one
stretch and those of the other.

* `Parts`: a token that no definition reaches over.

Main statements: `ofStatements_append_parts` and `ofStatements_append_sign`.
-/

namespace UniformLayout.Source.Constants

variable {tokens rest : List Token} {mark : Token} {name text : String}

/-- The six tokens of a definition. -/
theorem ofStatement?_eq_some_iff : ofStatement? tokens = some (name, text) ↔
    ∃ keyword type named equals value ending rest,
      tokens = keyword :: type :: named :: equals :: value :: ending :: rest ∧
        keyword.text = "const" ∧ (type.text = "int" ∨ type.text = "uint") ∧
          named.lexeme = .word name ∧ equals.lexeme = .punct '=' ∧
            (value.lexeme = .word text ∨ value.lexeme = .number text) ∧
              ending.lexeme = .punct ';' := by
  constructor
  · intro h
    unfold ofStatement? at h
    split at h
    · rename_i keyword type named equals value ending rest
      refine ⟨keyword, type, named, equals, value, ending, rest, rfl, ?_⟩
      split at h
      · rename_i hname hvalue
        simp only [Option.ite_none_right_eq_some, Option.some.injEq, Prod.mk.injEq] at h
        obtain ⟨⟨hkeyword, htype, hequals, hending⟩, rfl, rfl⟩ := h
        exact ⟨hkeyword, htype, hname, hequals, Or.inl hvalue, hending⟩
      · rename_i hname hvalue
        simp only [Option.ite_none_right_eq_some, Option.some.injEq, Prod.mk.injEq] at h
        obtain ⟨⟨hkeyword, htype, hequals, hending⟩, rfl, rfl⟩ := h
        exact ⟨hkeyword, htype, hname, hequals, Or.inr hvalue, hending⟩
      · cases h
    · cases h
  · rintro ⟨keyword, type, named, equals, value, ending, rest, rfl, hkeyword, htype, hname, hequals,
      hvalue | hvalue, hending⟩ <;>
      simp [ofStatement?, hname, hvalue, hkeyword, htype, hequals, hending]

/-- The text of a mark is the mark. -/
theorem text_ne_of_punct {c : Char} (h : mark.lexeme = .punct c) (hlength : text.length ≠ 1) :
    mark.text ≠ text := by
  rintro rfl
  refine hlength ?_
  rw [Token.text, h, Lexeme.text, Char.toString, String.length_singleton]

/-- No definition reaches over the token: it is none of the words and signs of one, and if it could be
a name or a value, neither an equals sign nor a semicolon follows it. -/
structure Parts (mark : Token) (rest : List Token) : Prop where
  type : mark.text ≠ "int" ∧ mark.text ≠ "uint"
  sign : ∀ c ∈ ['=', ';'], mark.lexeme ≠ .punct c
  next : (∃ c, mark.lexeme = .punct c) ∨
    ∀ c ∈ ['=', ';'], (rest.map Token.lexeme).head? ≠ some (.punct c)

/-- A mark of its own that ends no definition. -/
theorem parts_of_punct {c : Char} (h : mark.lexeme = .punct c) (hc : c ∉ ['=', ';'])
    (rest : List Token) : Parts mark rest where
  type := ⟨text_ne_of_punct h (by decide), text_ne_of_punct h (by decide)⟩
  sign d hd heq := by
    rw [h] at heq
    exact hc (Lexeme.punct.inj heq ▸ hd)
  next := Or.inl ⟨c, h⟩

theorem ofStatement?_append_parts (h : Parts mark rest) (token : Token) (tokens : List Token) :
    ofStatement? (token :: tokens ++ mark :: rest) = ofStatement? (token :: tokens) := by
  -- The mark would be one of the six tokens, but it is none of them.
  have hnone : tokens.length < 5 → ∀ found,
      ofStatement? (token :: tokens ++ mark :: rest) ≠ some found := by
    rintro hlt ⟨name, text⟩ hs
    obtain ⟨keyword, type, named, equals, value, ending, more, heq, -, htype, hname, hequals, hvalue,
      hending⟩ := ofStatement?_eq_some_iff.1 hs
    obtain ⟨-, heq⟩ := List.cons.inj heq
    match tokens, heq with
    | [], heq =>
      obtain ⟨rfl, -⟩ := List.cons.inj heq
      exact htype.elim h.type.1 h.type.2
    | [_], heq =>
      obtain ⟨-, rfl, rfl⟩ := by simpa using heq
      rcases h.next with ⟨c, hc⟩ | hnext
      · rw [hc] at hname
        cases hname
      · exact hnext '=' (by decide) (by simp [hequals])
    | [_, _], heq =>
      obtain ⟨-, -, rfl, -⟩ := by simpa using heq
      exact h.sign _ (by decide) hequals
    | [_, _, _], heq =>
      obtain ⟨-, -, -, rfl, rfl⟩ := by simpa using heq
      rcases h.next with ⟨c, hc⟩ | hnext
      · rw [hc] at hvalue
        rcases hvalue with hv | hv <;> cases hv
      · exact hnext ';' (by decide) (by simp [hending])
    | [_, _, _, _], heq =>
      obtain ⟨-, -, -, -, rfl, -⟩ := by simpa using heq
      exact h.sign _ (by decide) hending
  by_cases hlt : tokens.length < 5
  · have hshort : ofStatement? (token :: tokens) = none := by
      refine Option.eq_none_iff_forall_ne_some.2 ?_
      rintro ⟨name, text⟩ hs
      obtain ⟨_, _, _, _, _, _, _, heq, -⟩ := ofStatement?_eq_some_iff.1 hs
      have hlength := congrArg List.length heq
      simp only [List.length_cons] at hlength
      omega
    rw [hshort, Option.eq_none_iff_forall_ne_some.2 (hnone hlt)]
  · match tokens, hlt with
    | _ :: _ :: _ :: _ :: _ :: _, _ => rfl
    | [], hlt | [_], hlt | [_, _], hlt | [_, _, _], hlt | [_, _, _, _], hlt => simp at hlt

/-- The constants in front of such a token and those from it on. -/
theorem ofStatements_append_parts (h : Parts mark rest) (tokens : List Token) :
    ofStatements (tokens ++ mark :: rest) = ofStatements tokens ++ ofStatements (mark :: rest) := by
  induction tokens with
  | nil => rfl
  | cons token tokens ih =>
    rw [List.cons_append, ofStatements.eq_2 token (tokens ++ mark :: rest), ih, ← List.cons_append,
      ofStatement?_append_parts h, ofStatements.eq_2 token tokens, List.append_assoc]

/-- Where the first word of a definition does not stand, none starts. -/
theorem ofStatements_append_of_ne_const (h : ∀ token ∈ tokens, token.text ≠ "const")
    (rest : List Token) : ofStatements (tokens ++ rest) = ofStatements rest := by
  induction tokens with
  | nil => rfl
  | cons token tokens ih =>
    obtain ⟨htoken, htokens⟩ := List.forall_mem_cons.1 h
    rw [List.cons_append, ofStatements, ofStatement?_of_ne_const htoken, ih htokens]
    rfl

/-- No definition reaches over a sign, if it cannot start in front of the one or two tokens that the
sign follows. -/
theorem ofStatements_append_sign {between : List Token} {c : Char}
    (h : Parts mark (between ++ rest)) (hconst : mark.text ≠ "const") (hshort : between.length ≤ 2)
    (hsign : (rest.map Token.lexeme).head? = some (.punct c)) (tokens : List Token) :
    ofStatements (tokens ++ mark :: (between ++ rest)) = ofStatements tokens ++ ofStatements rest := by
  obtain ⟨sign, others, rfl⟩ : ∃ sign others, rest = sign :: others :=
    List.exists_cons_of_ne_nil fun hnil => by simp [hnil] at hsign
  replace hsign : sign.lexeme = .punct c := by simpa using hsign
  have htype : sign.text ≠ "int" ∧ sign.text ≠ "uint" :=
    ⟨text_ne_of_punct hsign (by decide), text_ne_of_punct hsign (by decide)⟩
  -- The sign would be the type or the name of the definition.
  have hone : ∀ last, ofStatement? (last :: sign :: others) = none := by
    intro last
    refine Option.eq_none_iff_forall_ne_some.2 ?_
    rintro ⟨name, text⟩ hs
    obtain ⟨_, _, _, _, _, _, _, heq, -, htypes, -⟩ := ofStatement?_eq_some_iff.1 hs
    obtain ⟨-, rfl, -⟩ := by simpa using heq
    exact htypes.elim htype.1 htype.2
  have htwo : ∀ first last, ofStatement? (first :: last :: sign :: others) = none := by
    intro first last
    refine Option.eq_none_iff_forall_ne_some.2 ?_
    rintro ⟨name, text⟩ hs
    obtain ⟨_, _, _, _, _, _, _, heq, -, -, hname, -⟩ := ofStatement?_eq_some_iff.1 hs
    obtain ⟨-, -, rfl, -⟩ := by simpa using heq
    rw [hsign] at hname
    cases hname
  rw [ofStatements_append_parts h, ofStatements.eq_2 mark, ofStatement?_of_ne_const hconst]
  rcases between with _ | ⟨first, _ | ⟨last, _ | ⟨other, more⟩⟩⟩
  · rfl
  · simp [ofStatements.eq_2 first, hone]
  · simp [ofStatements.eq_2 first, ofStatements.eq_2 last, hone, htwo]
  · simp at hshort

end UniformLayout.Source.Constants
