import UniformLayout.Source.Contents
import Mathlib.Tactic.Tauto

/-!
# Statements by their start

What a statement at the top level starts with says how it is read. There is one equation for each kind of
start, and each lexeme is of one kind.

* `statementBody`: what is read behind the `layout(...)` list of a statement.
* `structHead?`: the start of a struct.
* `statement_struct`, `statement_word`, `statement_attribute` and their like: how a statement is read,
  by its start.

Main statement: `start_cases`.
-/

namespace UniformLayout.Source

variable {scope : Scope} {token : Token} (pending : Pending) (line : Nat) (rest : List Token)

/-! ## Uniforms -/

/-- What is read behind the `layout(...)` list of a statement, if there is one. -/
def statementBody (scope : Scope) (packing : Packing) (attributes : List Attribute) (start : Token)
    (layout : LayoutList) (cursor : Cursor) : Reading (Entry × Cursor) :=
  match cursor.word? with
  | some (_, "uniform", behind) =>
    uniformBody scope packing start layout attributes behind.skipQualifiers
  | _ => pure (.nothing, Cursor.skipStatement 0 cursor.line cursor.rest)

theorem statementBody_uniform (packing : Packing) (attributes : List Attribute) (start : Token)
    (layout : LayoutList) (h : token.lexeme = .word "uniform") :
    statementBody scope packing attributes start layout ⟨line, token :: rest⟩ =
      uniformBody scope packing start layout attributes
        (Cursor.skipQualifiers ⟨token.line, rest⟩) := by
  simp [statementBody, Cursor.word?, h]

theorem statementBody_other (packing : Packing) (attributes : List Attribute) (start : Token)
    (layout : LayoutList) (h : token.lexeme ≠ .word "uniform") :
    statementBody scope packing attributes start layout ⟨line, token :: rest⟩ =
      pure (.nothing, Cursor.skipStatement 0 line (token :: rest)) := by
  cases hl : token.lexeme with
  | word text =>
    have htext : text ≠ "uniform" := fun ht => h (by rw [hl, ht])
    simp [statementBody, Cursor.word?, hl, htext]
  | number text => simp [statementBody, Cursor.word?, hl]
  | punct c => simp [statementBody, Cursor.word?, hl]

theorem uniformStatement_layout (packing : Packing) (attributes : List Attribute)
    (h : token.lexeme = .word "layout") :
    uniformStatement scope packing attributes token rest =
      LayoutList.read scope "layout" ⟨token.line, rest⟩ >>= fun found =>
        statementBody scope packing attributes token found.1 found.2 := by
  have htext : token.text = "layout" := by rw [Token.text, h, Lexeme.text]
  unfold uniformStatement
  rw [if_pos htext]
  rfl

theorem uniformStatement_uniform (packing : Packing) (attributes : List Attribute)
    (h : token.lexeme = .word "uniform") :
    uniformStatement scope packing attributes token rest =
      uniformBody scope packing token {} attributes (Cursor.skipQualifiers ⟨token.line, rest⟩) := by
  have htext : token.text ≠ "layout" := by
    rw [Token.text, h, Lexeme.text]
    decide
  unfold uniformStatement
  rw [if_neg htext]
  exact statementBody_uniform token.line rest packing attributes token {} h

/-! ## Statements -/

/-- The name of a struct and what is behind its opening brace, if a struct starts here. -/
def structHead? : List Token → Option (String × Cursor)
  | name :: brace :: body =>
    match name.lexeme, brace.lexeme with
    | .word name, .punct '{' => some (name, ⟨brace.line, body⟩)
    | _, _ => none
  | _ => none

theorem structHead?_suffix {rest : List Token} {name : String} {body : Cursor}
    (h : structHead? rest = some (name, body)) : body.rest <:+ rest := by
  unfold structHead? at h
  split at h
  · split at h
    · cases h
      exact (List.suffix_cons _ _).trans (List.suffix_cons _ _)
    · cases h
  · cases h

/-- How the top level goes on behind a statement. -/
def Pending.turn (pending : Pending) (found : Entry × Cursor) : Cursor.Turn Pending Entry × Cursor :=
  (.again found.1 (pending.after found.1), found.2)

theorem statement_struct (h : token.lexeme = .word "struct") :
    statement scope pending ⟨line, token :: rest⟩ =
      match structHead? rest with
      | some (name, body) => pending.turn <$> struct scope pending.attributes token name body
      | none => pure (.again .nothing pending, ⟨token.line, rest⟩) := by
  simp only [statement, h]
  cases rest with
  | nil => rfl
  | cons name rest =>
    cases rest with
    | nil => rfl
    | cons brace body =>
      cases hname : name.lexeme with
      | number text => simp [structHead?, hname]
      | punct c => simp [structHead?, hname]
      | word text =>
        by_cases hbrace : brace.lexeme = .punct '{'
        · simp only [structHead?, hname, hbrace]
          rfl
        · simp [structHead?, hname, hbrace]

theorem statement_word (h : token.lexeme = .word "layout" ∨ token.lexeme = .word "uniform") :
    statement scope pending ⟨line, token :: rest⟩ =
      pending.turn <$> uniformStatement scope pending.packing pending.attributes token rest := by
  rcases h with h | h <;> simp only [statement, h] <;> rfl

theorem statement_attribute (h : token.lexeme = .punct '[') :
    statement scope pending ⟨line, token :: rest⟩ =
      match attribute? rest with
      | some (found, final) =>
        pure (.again .nothing { pending with attributes := pending.attributes ++ [found] }, final)
      | none => pure (.again .nothing pending, ⟨token.line, rest⟩) := by
  cases ha : attribute? rest <;> simp only [statement, h, ha]

theorem statement_group (h : token.lexeme = .punct '{') :
    statement scope pending ⟨line, token :: rest⟩ =
      pure (.again .nothing { pending with attributes := [] },
        Cursor.skipGroup 1 token.line rest) := by
  simp only [statement, h]

theorem statement_end (h : token.lexeme = .punct ';') :
    statement scope pending ⟨line, token :: rest⟩ =
      pure (.again .nothing { pending with attributes := [] }, ⟨token.line, rest⟩) := by
  simp only [statement, h]

/-- The lexeme starts nothing at the top level. -/
def PassedOver (lexeme : Lexeme) : Prop :=
  (∀ c ∈ ['[', '{', ';'], lexeme ≠ .punct c) ∧
    ∀ text ∈ ["struct", "layout", "uniform"], lexeme ≠ .word text

instance : DecidablePred PassedOver := fun _ =>
  @instDecidableAnd _ _ (List.decidableBAll _ _) (List.decidableBAll _ _)

theorem statement_passedOver (h : PassedOver token.lexeme) :
    statement scope pending ⟨line, token :: rest⟩ =
      pure (.again .nothing pending, ⟨token.line, rest⟩) := by
  obtain ⟨hmark, hword⟩ := h
  cases hl : token.lexeme with
  | number text => simp only [statement, hl]
  | punct c =>
    rw [hl] at hmark
    have hbracket : c ≠ '[' := fun hc => hmark '[' (by decide) (by rw [hc])
    have hopen : c ≠ '{' := fun hc => hmark '{' (by decide) (by rw [hc])
    have hend : c ≠ ';' := fun hc => hmark ';' (by decide) (by rw [hc])
    simp only [statement, hl, Lexeme.punct.injEq, hbracket, hopen, hend, imp_self]
  | word text =>
    rw [hl] at hword
    have hstruct : text ≠ "struct" := fun ht => hword "struct" (by decide) (by rw [ht])
    have hlayout : text ≠ "layout" := fun ht => hword "layout" (by decide) (by rw [ht])
    have huniform : text ≠ "uniform" := fun ht => hword "uniform" (by decide) (by rw [ht])
    simp only [statement, hl, Lexeme.word.injEq, hstruct, hlayout, huniform, imp_self]

/-- Each lexeme is a kind of start. -/
theorem start_cases (lexeme : Lexeme) : lexeme = .word "struct" ∨
    (lexeme = .word "layout" ∨ lexeme = .word "uniform") ∨ lexeme = .punct '[' ∨
      lexeme = .punct '{' ∨ lexeme = .punct ';' ∨ PassedOver lexeme := by
  by_cases h : PassedOver lexeme
  · simp [h]
  · simp only [PassedOver, List.mem_cons, List.not_mem_nil, or_false, forall_eq_or_imp, forall_eq]
      at h
    tauto

end UniformLayout.Source
