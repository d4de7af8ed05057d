import UniformLayout.Source.Contents

/-!
# Results on their lines

Two sources may declare the same things on the same lines and differ in the columns only. `onLine`
forgets the column wherever a location stands in a result, and two computations agree when they report
the same on the same lines and either fail alike or give results that are related.

* `Logged.Agree`: the relation of two computations, with a lemma for each way to put them together.

Main statement: `ofEntries_onLine`.
-/

namespace UniformLayout

/-! ## Forgetting columns -/

/-- The location without its column. -/
def SourceLocation.onLine (at_ : SourceLocation) : SourceLocation := { at_ with column := 0 }

def FieldDeclaration.onLine (field : FieldDeclaration) : FieldDeclaration :=
  { field with source := field.source.onLine }

def TypeDeclaration.onLine (decl : TypeDeclaration) : TypeDeclaration :=
  { decl with fields := decl.fields.map FieldDeclaration.onLine, source := decl.source.onLine }

def UniformDeclaration.onLine (uniform : UniformDeclaration) : UniformDeclaration :=
  { uniform with source := uniform.source.onLine }

def SourceWarning.onLine : SourceWarning → SourceWarning
  | .anonymousBlock source => .anonymousBlock source.onLine
  | .unsupportedPacking block packing source => .unsupportedPacking block packing source.onLine
  | .instanceArrayIgnored block source => .instanceArrayIgnored block source.onLine

def Notice.onLine : Notice → Notice
  | .source warning => .source warning.onLine
  | .identicalCopyIgnored key name copy => .identicalCopyIgnored key name copy.onLine
  | notice => notice

namespace Source

def Token.onLine (token : Token) : Token := { token with column := 0 }

def Item.onLine : Item → Item
  | .token found => .token found.onLine
  | .directive text => .directive text

def AnonymousBlock.onLine (block : AnonymousBlock) : AnonymousBlock :=
  { source := block.source.onLine, fields := block.fields.map FieldDeclaration.onLine }

def Entry.onLine : Entry → Entry
  | .declaration decl => .declaration decl.onLine
  | .uniforms list => .uniforms (list.map UniformDeclaration.onLine)
  | .anonymous block => .anonymous block.onLine
  | .packing default => .packing default
  | .nothing => .nothing

end Source

def SourceContents.onLine (contents : SourceContents) : SourceContents where
  key := contents.key
  declarations := contents.declarations.map TypeDeclaration.onLine
  uniforms := contents.uniforms.map UniformDeclaration.onLine
  anonymousBlocks := contents.anonymousBlocks.map Source.AnonymousBlock.onLine
  warnings := contents.warnings.map SourceWarning.onLine

namespace Source

theorem Token.onLine_eq_iff {token token' : Token} : token.onLine = token'.onLine ↔
    token.lexeme = token'.lexeme ∧ token.line = token'.line ∧ token.lead = token'.lead := by
  simp [onLine]

theorem tokensOf_onLine (found : List Item) :
    tokensOf (found.map Item.onLine) = (tokensOf found).map Token.onLine := by
  induction found with
  | nil => rfl
  | cons item found ih =>
    cases item with
    | token token => exact congrArg (token.onLine :: ·) ih
    | directive text => exact ih

theorem Scope.locate_onLine {scope scope' : Scope} {token token' : Token}
    (hf : scope.file = scope'.file) (h : token.onLine = token'.onLine) :
    (scope.locate token).onLine = (scope'.locate token').onLine := by
  simp [Scope.locate, SourceLocation.onLine, hf, (Token.onLine_eq_iff.1 h).2.1]

/-- What a statement leaves behind it does not depend on columns. -/
theorem Pending.after_onLine (pending : Pending) (entry : Entry) :
    pending.after entry.onLine = pending.after entry := by
  cases entry <;> rfl

theorem warningsOf_onLine (notices : List Notice) :
    warningsOf (notices.map Notice.onLine) = (warningsOf notices).map SourceWarning.onLine := by
  induction notices with
  | nil => rfl
  | cons notice notices ih =>
    cases notice with
    | source warning => exact congrArg (warning.onLine :: ·) ih
    | _ => exact ih

end Source

open Source in
/-- Entries without columns add up to contents without columns. -/
theorem SourceContents.ofEntries_onLine (key : String) (entries : List Entry)
    (warnings : List SourceWarning) :
    (ofEntries key entries warnings).onLine =
      ofEntries key (entries.map Entry.onLine) (warnings.map SourceWarning.onLine) := by
  induction entries with
  | nil => rfl
  | cons entry entries ih =>
    simp only [onLine, ofEntries, mk.injEq, true_and, and_true] at ih ⊢
    obtain ⟨hdecls, huniforms, hblocks⟩ := ih
    cases entry <;>
      simp [Entry.onLine, List.flatMap_cons, hdecls, huniforms, hblocks]

/-! ## Computations that agree -/

namespace Logged

variable {ε α β γ δ : Type} {R : α → β → Prop} {S : γ → δ → Prop}

/-- The computations report the same on the same lines; and they fail with one error, or they have
related results. -/
def Agree (R : α → β → Prop) (x : Logged ε α) (y : Logged ε β) : Prop :=
  x.notices.map Notice.onLine = y.notices.map Notice.onLine ∧
    ((∃ e, x.result = .error e ∧ y.result = .error e) ∨
      ∃ a b, x.result = .ok a ∧ y.result = .ok b ∧ R a b)

theorem agree_pure {a : α} {b : β} (h : R a b) :
    Agree R (pure a : Logged ε α) (pure b : Logged ε β) :=
  ⟨rfl, Or.inr ⟨a, b, rfl, rfl, h⟩⟩

theorem agree_throw {e e' : ε} (h : e = e') :
    Agree R (throw e : Logged ε α) (throw e' : Logged ε β) := by
  subst h
  exact ⟨rfl, Or.inl ⟨e, rfl, rfl⟩⟩

theorem agree_note {n n' : Notice} (h : n.onLine = n'.onLine) :
    Agree (fun _ _ => True) (note n : Logged ε Unit) (note n' : Logged ε Unit) :=
  ⟨by simp [note, h], Or.inr ⟨(), (), rfl, rfl, trivial⟩⟩

theorem Agree.bind {x : Logged ε α} {y : Logged ε β} {f : α → Logged ε γ} {g : β → Logged ε δ}
    (h : Agree R x y) (hf : ∀ a b, R a b → Agree S (f a) (g b)) : Agree S (x >>= f) (y >>= g) := by
  obtain ⟨xs, result⟩ := x
  obtain ⟨ys, result'⟩ := y
  obtain ⟨hnotices, ⟨e, rfl, rfl⟩ | ⟨a, b, rfl, rfl, hab⟩⟩ := h
  · exact ⟨hnotices, Or.inl ⟨e, rfl, rfl⟩⟩
  · obtain ⟨hmore, hresult⟩ := hf a b hab
    refine ⟨?_, hresult⟩
    simp only [bind_ok, List.map_append]
    rw [hmore]
    exact congrArg (· ++ _) hnotices

/-- Where a choice is made first, what comes behind it may be looked at once. -/
theorem Agree.ite_bind {c : Prop} [Decidable c] {x x' : Logged ε α} {y y' : Logged ε β}
    {f : α → Logged ε γ} {g : β → Logged ε δ}
    (h : Agree R (if c then x else x') (if c then y else y'))
    (hf : ∀ a b, R a b → Agree S (f a) (g b)) :
    Agree S (if c then x >>= f else x' >>= f) (if c then y >>= g else y' >>= g) := by
  by_cases hc : c
  · rw [if_pos hc, if_pos hc] at *
    exact h.bind hf
  · rw [if_neg hc, if_neg hc] at *
    exact h.bind hf

theorem Agree.map {x : Logged ε α} {y : Logged ε β} {f : α → γ} {g : β → δ} (h : Agree R x y)
    (hf : ∀ a b, R a b → S (f a) (g b)) : Agree S (f <$> x) (g <$> y) := by
  rw [map_eq_pure_bind, map_eq_pure_bind]
  exact h.bind fun a b hab => agree_pure (hf a b hab)

end Logged

end UniformLayout
