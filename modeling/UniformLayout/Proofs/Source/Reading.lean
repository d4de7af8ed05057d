import UniformLayout.Compilation.Unit
import UniformLayout.Proofs.Identity.Expansion
import UniformLayout.Proofs.Source.Starts
import Mathlib.Data.List.TakeWhile

/-!
# What readers give

The words of a source are identifiers, and readers take names from its words. So the fields of all
declarations that are read have identifiers for their names and types; and the reader itself makes no
declaration of the kind that gathers free uniforms.

* `Logged.Ensures`: what holds of the result of a reader, if there is one; `Cursor.loop_ensures` carries
  it through a loop.
* `statement_ensures`: what one statement of a source contributes.

Main statement: `read_ensures`.
-/

namespace UniformLayout

/-! ## Results -/

namespace Logged

variable {ε α β : Type} {p : α → Prop} {q : β → Prop}

/-- The result has the property, if there is one. -/
def Ensures (x : Logged ε α) (p : α → Prop) : Prop :=
  ∀ a, x.result = .ok a → p a

theorem ensures_pure {a : α} (h : p a) : (pure a : Logged ε α).Ensures p := by
  intro b hb
  obtain rfl := Except.ok.inj hb
  exact h

theorem ensures_throw {e : ε} : (throw e : Logged ε α).Ensures p := by
  intro a ha
  cases ha

theorem Ensures.bind {x : Logged ε α} {f : α → Logged ε β} (h : x.Ensures p)
    (hf : ∀ a, p a → (f a).Ensures q) : (x >>= f).Ensures q := by
  intro b hb
  obtain ⟨a, ha, hb⟩ := result_bind_eq_ok_iff.1 hb
  exact hf a (h a ha) b hb

/-- A step whose result does not matter. -/
theorem ensures_bind_of_forall {x : Logged ε α} {f : α → Logged ε β} (hf : ∀ a, (f a).Ensures q) :
    (x >>= f).Ensures q :=
  Ensures.bind (p := fun _ => True) (fun _ _ => trivial) fun a _ => hf a

theorem Ensures.map {x : Logged ε α} {f : α → β} (h : x.Ensures p) (hf : ∀ a, p a → q (f a)) :
    (f <$> x).Ensures q := by
  rw [map_eq_pure_bind]
  exact h.bind fun a ha => ensures_pure (hf a ha)

end Logged

namespace Source

open Logged

/-! ## Tokens -/

/-- A word is an identifier. -/
def Token.Named (token : Token) : Prop :=
  ∀ text, token.lexeme = .word text → IsIdentifier text

/-- The words that are still to be read are identifiers. -/
def Cursor.Named (cursor : Cursor) : Prop := ∀ token ∈ cursor.rest, token.Named

theorem named_lexeme {c : Char} {rest : List Char} {text : String}
    (h : (lexeme c rest).1 = .word text) : IsIdentifier text := by
  unfold lexeme at h
  split at h
  · rename_i hc
    obtain rfl := Lexeme.word.inj h
    refine ⟨c, rest.takeWhile inWord, by simp, hc, ?_⟩
    intro d hd
    exact List.mem_takeWhile_imp hd
  · split at h
    · cases h
    · cases h

/-- The tokens of a text are named. -/
theorem named_itemsFrom (line column : Nat) (fresh : Bool) (lead text : List Char) :
    ∀ token, Item.token token ∈ itemsFrom line column fresh lead text → token.Named := by
  fun_induction itemsFrom line column fresh lead text with
  | case1 => simp
  | case2 _ _ _ _ _ ih => exact ih
  | case3 _ _ _ _ _ _ _ _ ih => exact ih
  | case4 _ _ _ _ _ _ _ _ _ _ _ ih =>
    intro token hm
    rcases List.mem_cons.1 hm with he | hm
    · cases he
    · exact ih token hm
  | case5 _ _ _ _ _ _ _ _ _ _ _ ih =>
    intro token hm
    rcases List.mem_cons.1 hm with he | hm
    · obtain rfl := Item.token.inj he
      exact fun text ht => named_lexeme ht
    · exact ih token hm

theorem named_tokensOf_items (text : List Char) : ∀ token ∈ tokensOf (items text), token.Named := by
  intro token hm
  obtain ⟨item, hi, ht⟩ := List.mem_filterMap.1 hm
  cases item with
  | token found =>
    obtain rfl := Option.some.inj ht
    exact named_itemsFrom _ _ _ _ _ _ hi
  | directive _ => cases ht

/-! ## Moving a cursor -/

namespace Cursor

variable {cursor after : Cursor}

theorem Named.of_suffix (h : cursor.Named) (hs : after.rest <:+ cursor.rest) : after.Named :=
  fun token hm => h token (hs.subset hm)

theorem Named.next (h : cursor.Named) {token : Token} (hn : cursor.next? = some (token, after)) :
    token.Named ∧ after.Named := by
  unfold next? at hn
  split at hn
  · cases hn
  · rename_i first rest hr
    cases hn
    unfold Named at h
    rw [hr] at h
    exact List.forall_mem_cons.1 h

theorem Named.eat (h : cursor.Named) {c : Char} (he : cursor.eat? c = some after) :
    after.Named := by
  unfold eat? at he
  split at he
  · cases he
  · rename_i first rest hr
    split at he
    · cases he
      unfold Named at h
      rw [hr] at h
      exact (List.forall_mem_cons.1 h).2
    · cases he

theorem Named.word (h : cursor.Named) {token : Token} {name : String}
    (hw : cursor.word? = some (token, name, after)) : IsIdentifier name ∧ after.Named := by
  unfold word? at hw
  split at hw
  · cases hw
  · rename_i first rest hr
    unfold Named at h
    rw [hr] at h
    obtain ⟨hfirst, hrest⟩ := List.forall_mem_cons.1 h
    split at hw
    · rename_i text ht
      cases hw
      exact ⟨hfirst _ ht, hrest⟩
    · cases hw

theorem skipWhile_suffix (p : Lexeme → Bool) (line : Nat) (tokens : List Token) :
    (skipWhile p line tokens).rest <:+ tokens := by
  induction tokens generalizing line with
  | nil => exact List.suffix_refl _
  | cons token rest ih =>
    unfold skipWhile
    split
    · exact (ih _).trans (List.suffix_cons _ _)
    · exact List.suffix_refl _

theorem skipGroup_suffix (depth line : Nat) (tokens : List Token) :
    (skipGroup depth line tokens).rest <:+ tokens := by
  induction tokens generalizing depth line with
  | nil => exact List.suffix_refl _
  | cons token rest ih =>
    unfold skipGroup
    split
    · exact (ih _ _).trans (List.suffix_cons _ _)
    · split
      · exact List.suffix_cons _ _
      · exact (ih _ _).trans (List.suffix_cons _ _)
    · exact (ih _ _).trans (List.suffix_cons _ _)

theorem skipStatement_suffix (depth line : Nat) (tokens : List Token) :
    (skipStatement depth line tokens).rest <:+ tokens := by
  induction tokens generalizing depth line with
  | nil => exact List.suffix_refl _
  | cons token rest ih =>
    unfold skipStatement
    split
    · split
      · exact List.suffix_cons _ _
      · exact (ih _ _).trans (List.suffix_cons _ _)
    · exact (ih _ _).trans (List.suffix_cons _ _)
    · exact (ih _ _).trans (List.suffix_cons _ _)
    · exact (ih _ _).trans (List.suffix_cons _ _)

theorem Named.skipQualifiers (h : cursor.Named) : cursor.skipQualifiers.Named :=
  h.of_suffix (skipWhile_suffix _ _ _)

/-- What a turn of a loop adds. -/
def Turn.item? {σ α : Type} : Turn σ α → Option α
  | .again item _ => some item
  | .last item => some item
  | .done => none

/-- What every step ensures of its item holds of all items of the loop. -/
theorem loop_ensures {σ α : Type} {p : α → Prop}
    {step : σ → Cursor → Reading (Turn σ α × Cursor)}
    (hstep : ∀ state cursor, cursor.Named → (step state cursor).Ensures fun result =>
      (∀ item ∈ result.1.item?, p item) ∧ result.2.Named)
    {state : σ} {cursor : Cursor} (h : cursor.Named) :
    (loop step state cursor).Ensures fun result => (∀ item ∈ result.1, p item) ∧ result.2.Named := by
  induction hn : cursor.rest.length using Nat.strongRecOn generalizing state cursor with
  | ind n ih =>
    subst hn
    rw [loop]
    refine (hstep state cursor h).bind ?_
    rintro ⟨turn, next⟩ ⟨hitem, hnext⟩
    cases turn with
    | done => exact ensures_pure ⟨by simp, hnext⟩
    | last item => exact ensures_pure ⟨by simpa using hitem item rfl, hnext⟩
    | again item after =>
      dsimp only
      split
      · rename_i hlt
        refine (ih _ hlt hnext rfl).bind ?_
        rintro ⟨items, final⟩ ⟨hitems, hfinal⟩
        exact ensures_pure ⟨List.forall_mem_cons.2 ⟨hitem item rfl, hitems⟩, hfinal⟩
      · exact ensures_pure ⟨by simpa using hitem item rfl, hnext⟩

end Cursor

theorem ensures_malformed {α : Type} {p : α → Prop} {scope : Scope} {cursor : Cursor}
    {declaration : String} {reason : Malformation} :
    (scope.malformed cursor declaration reason : Reading α).Ensures p :=
  ensures_throw

/-! ## Members -/

theorem arrayLength_ensures {scope : Scope} {declaration field : String} {cursor : Cursor}
    (h : cursor.Named) :
    (arrayLength scope declaration field cursor).Ensures fun result => result.2.Named := by
  unfold arrayLength
  split
  · rename_i opened ho
    split
    · rename_i token inside hi
      have hinside := ((h.eat ho).next hi).2
      dsimp only
      generalize hrest : (fun length : Nat => _) = rest
      have hlater : ∀ length, (rest length).Ensures fun result => result.2.Named := by
        subst hrest
        intro length
        dsimp only
        split
        · rename_i closed hc
          split
          · exact ensures_malformed
          · split
            · exact ensures_malformed
            · exact ensures_pure (hinside.eat hc)
        · exact ensures_malformed
      split
      · exact ensures_bind_of_forall hlater
      · exact ensures_bind_of_forall hlater
      all_goals
        split
        · exact ensures_bind_of_forall hlater
        · exact ensures_bind_of_forall hlater
    · exact ensures_malformed
  · exact ensures_pure h

namespace LayoutList

theorem entry_ensures {scope : Scope} {declaration : String} {cursor : Cursor} (h : cursor.Named) :
    (entry scope declaration () cursor).Ensures fun result =>
      (∀ item ∈ result.1.item?, True) ∧ result.2.Named := by
  unfold entry
  split
  · rename_i token behind hb
    obtain ⟨-, hbehind⟩ := h.next hb
    split
    · exact ensures_pure ⟨fun _ _ => trivial, hbehind⟩
    · exact ensures_pure ⟨fun _ _ => trivial, hbehind⟩
    · split
      · rename_i assigned ha
        split
        · rename_i value final hf
          have hfinal := ((hbehind.eat ha).next hf).2
          split
          · exact ensures_pure ⟨fun _ _ => trivial, hfinal⟩
          · exact ensures_malformed
        · exact ensures_malformed
      · exact ensures_pure ⟨fun _ _ => trivial, hbehind⟩
    · exact ensures_malformed
  · exact ensures_malformed

theorem read_ensures {scope : Scope} {declaration : String} {cursor : Cursor} (h : cursor.Named) :
    (read scope declaration cursor).Ensures fun result => result.2.Named := by
  unfold read
  split
  · rename_i opened ho
    refine (Cursor.loop_ensures (fun _ _ hc => entry_ensures hc) (h.eat ho)).bind ?_
    rintro ⟨entries, closed⟩ ⟨-, hclosed⟩
    exact ensures_pure hclosed
  · exact ensures_malformed

end LayoutList

/-- The field has identifiers for its name and its type. -/
def Spelled (field : FieldDeclaration) : Prop :=
  IsIdentifier field.name ∧ IsIdentifier field.typeName

/-- A member is spelled, and has neither binding nor location. -/
structure IsMember (field : FieldDeclaration) : Prop where
  spelled : Spelled field
  qualifiers : field.qualifiers = {}

theorem declarator_ensures {scope : Scope} {declaration typeName : String} {cursor : Cursor}
    (ht : IsIdentifier typeName) (h : cursor.Named) :
    (declarator scope declaration typeName () cursor).Ensures fun result =>
      (∀ field ∈ result.1.item?, IsMember field) ∧ result.2.Named := by
  unfold declarator
  split
  · rename_i token name named hw
    obtain ⟨hname, hnamed⟩ := h.word hw
    refine (arrayLength_ensures hnamed).bind ?_
    rintro ⟨length, behind⟩ hbehind
    have hmember : ∀ field : FieldDeclaration, field.name = name → field.typeName = typeName →
        field.qualifiers = {} → IsMember field := by
      rintro field rfl rfl hqualifiers
      exact ⟨⟨hname, ht⟩, hqualifiers⟩
    dsimp only
    split
    · rename_i final hf
      refine ensures_pure ⟨fun field hm => ?_, hbehind.eat hf⟩
      obtain rfl := Option.some.inj hm
      exact hmember _ rfl rfl rfl
    · split
      · rename_i final hf
        refine ensures_pure ⟨fun field hm => ?_, hbehind.eat hf⟩
        obtain rfl := Option.some.inj hm
        exact hmember _ rfl rfl rfl
      · exact ensures_malformed
  · exact ensures_malformed

theorem memberLayout_ensures {scope : Scope} {declaration : String} {cursor : Cursor}
    (h : cursor.Named) :
    (memberLayout scope declaration cursor).Ensures Cursor.Named := by
  unfold memberLayout
  split
  · rename_i token behind hw
    refine (LayoutList.read_ensures (h.word hw).2).bind ?_
    rintro ⟨list, final⟩ hfinal
    exact ensures_bind_of_forall fun _ => ensures_pure hfinal.skipQualifiers
  · exact ensures_pure h

theorem memberGroup_ensures {scope : Scope} {declaration : String} {cursor : Cursor}
    (h : cursor.Named) :
    (memberGroup scope declaration () cursor).Ensures fun result =>
      (∀ fields ∈ result.1.item?, ∀ field ∈ fields, IsMember field) ∧ result.2.Named := by
  unfold memberGroup
  refine (memberLayout_ensures h.skipQualifiers).bind fun inner hinner => ?_
  split
  · rename_i token behind hn
    obtain ⟨htoken, hbehind⟩ := hinner.next hn
    split
    · exact ensures_pure ⟨by simp [Cursor.Turn.item?], hbehind⟩
    · exact ensures_malformed
    · rename_i typeName _ hl
      refine (Cursor.loop_ensures (fun _ _ hc => declarator_ensures (htoken _ hl) hc) hbehind).bind ?_
      rintro ⟨fields, final⟩ ⟨hfields, hfinal⟩
      refine ensures_pure ⟨fun list hm => ?_, hfinal⟩
      obtain rfl := Option.some.inj hm
      exact hfields
    · exact ensures_malformed
  · exact ensures_malformed

theorem members_ensures {scope : Scope} {declaration : String} {cursor : Cursor}
    (h : cursor.Named) :
    (members scope declaration cursor).Ensures fun result =>
      (∀ field ∈ result.1, IsMember field) ∧ result.2.Named := by
  unfold members
  refine (Cursor.loop_ensures (fun _ _ hc => memberGroup_ensures hc) h).bind ?_
  rintro ⟨groups, final⟩ ⟨hgroups, hfinal⟩
  refine ensures_pure ⟨fun field hm => ?_, hfinal⟩
  obtain ⟨group, hg, hm⟩ := List.mem_flatten.1 hm
  exact hgroups group hg field hm

/-! ## Statements -/

/-- A declaration as sources write it: its fields are members, and it gathers no free uniforms. -/
structure Written (decl : TypeDeclaration) : Prop where
  kind : decl.kind ≠ .uniformSet
  fields : ∀ field ∈ decl.fields, IsMember field

/-- The entry holds declarations and uniforms as sources write them. -/
def Entry.Written : Entry → Prop
  | .declaration decl => Source.Written decl
  | .uniforms list => ∀ uniform ∈ list, Spelled uniform.toField
  | _ => True

theorem block_ensures {scope : Scope} {packing : Packing} {start : Token} {layout : LayoutList}
    {attributes : List Attribute} {blockName : Option String} {cursor : Cursor}
    (h : cursor.Named) :
    (block scope packing start layout attributes blockName cursor).Ensures fun result =>
      result.1.Written ∧ result.2.Named := by
  unfold block
  refine (members_ensures h).bind ?_
  rintro ⟨fields, behind⟩ ⟨hfields, hbehind⟩
  dsimp only
  have hwritten : ∀ decl : TypeDeclaration, decl.kind ≠ .uniformSet → decl.fields = fields →
      Entry.Written (.declaration decl) := by
    rintro decl hkind rfl
    exact ⟨hkind, hfields⟩
  -- Whether there is an instance name or not, the rest is read in the same way.
  rcases hw : behind.word? with _ | ⟨token, name, named⟩
  all_goals
    dsimp only
    refine (arrayLength_ensures (by first | exact (hbehind.word hw).2 | exact hbehind)).bind ?_
    rintro ⟨length, last⟩ hlast
    dsimp only
    split
    · rename_i final hf
      have hfinal := hlast.eat hf
      split
      · exact ensures_bind_of_forall fun _ => ensures_pure ⟨trivial, hfinal⟩
      · split
        · refine ensures_bind_of_forall fun _ => ?_
          split
          · exact ensures_bind_of_forall fun _ =>
              ensures_pure ⟨hwritten _ (by simp) rfl, hfinal⟩
          · exact ensures_pure ⟨hwritten _ (by simp) rfl, hfinal⟩
        · split
          · exact ensures_bind_of_forall fun _ =>
              ensures_pure ⟨hwritten _ (by simp) rfl, hfinal⟩
          · exact ensures_pure ⟨hwritten _ (by simp) rfl, hfinal⟩
    · exact ensures_malformed

theorem named_skipInitialiser {cursor : Cursor} (h : cursor.Named) :
    (skipInitialiser cursor).Named := by
  unfold skipInitialiser
  split
  · rename_i behind hb
    exact (h.eat hb).of_suffix (Cursor.skipWhile_suffix _ _ _)
  · exact h

theorem uniformDeclarator_ensures {scope : Scope} {typeName : String} {layout : LayoutList}
    {attributes : List Attribute} {cursor : Cursor} (ht : IsIdentifier typeName)
    (h : cursor.Named) :
    (uniformDeclarator scope typeName layout attributes () cursor).Ensures fun result =>
      (∀ uniform ∈ result.1.item?, Spelled uniform.toField) ∧ result.2.Named := by
  unfold uniformDeclarator
  split
  · rename_i token name named hw
    obtain ⟨hname, hnamed⟩ := h.word hw
    refine (arrayLength_ensures hnamed).bind ?_
    rintro ⟨length, behind⟩ hbehind
    have hlast := named_skipInitialiser hbehind
    have hspelled : ∀ uniform : UniformDeclaration, uniform.name = name →
        uniform.typeName = typeName → Spelled uniform.toField := by
      rintro uniform rfl rfl
      exact ⟨hname, ht⟩
    dsimp only
    split
    · rename_i final hf
      refine ensures_pure ⟨fun uniform hm => ?_, hlast.eat hf⟩
      obtain rfl := Option.some.inj hm
      exact hspelled _ rfl rfl
    · split
      · rename_i final hf
        refine ensures_pure ⟨fun uniform hm => ?_, hlast.eat hf⟩
        obtain rfl := Option.some.inj hm
        exact hspelled _ rfl rfl
      · exact ensures_malformed
  · exact ensures_malformed

theorem uniformBody_ensures {scope : Scope} {packing : Packing} {start : Token}
    {layout : LayoutList} {attributes : List Attribute} {cursor : Cursor} (h : cursor.Named) :
    (uniformBody scope packing start layout attributes cursor).Ensures fun result =>
      result.1.Written ∧ result.2.Named := by
  obtain ⟨line, tokens⟩ := cursor
  unfold uniformBody
  dsimp only
  cases tokens with
  | nil => exact ensures_malformed
  | cons first rest =>
    obtain ⟨hfirst, hrest⟩ := List.forall_mem_cons.1 h
    have hbehind : Cursor.Named ⟨first.line, rest⟩ := hrest
    dsimp only
    split
    · cases layout.packing with
      | none => exact ensures_pure ⟨trivial, hbehind⟩
      | some packing => exact ensures_pure ⟨trivial, hbehind⟩
    · exact block_ensures hbehind
    · rename_i name second tail hl
      have htail : Cursor.Named ⟨second.line, tail⟩ := (List.forall_mem_cons.1 hrest).2
      split
      · exact block_ensures htail
      · refine (Cursor.loop_ensures (fun _ _ hc => uniformDeclarator_ensures (hfirst name hl) hc)
          hbehind).bind ?_
        rintro ⟨uniforms, final⟩ ⟨huniforms, hfinal⟩
        exact ensures_pure ⟨huniforms, hfinal⟩
      · exact ensures_malformed
    · exact ensures_malformed

theorem uniformStatement_ensures {scope : Scope} {packing : Packing} {attributes : List Attribute}
    {start : Token} {rest : List Token} (hs : start.Named) (h : ∀ token ∈ rest, token.Named) :
    (uniformStatement scope packing attributes start rest).Ensures fun result =>
      result.1.Written ∧ result.2.Named := by
  unfold uniformStatement
  dsimp only
  generalize hbody : (fun read : LayoutList × Cursor => _) = body
  have hlater : ∀ read : LayoutList × Cursor, read.2.Named → (body read).Ensures fun result =>
      result.1.Written ∧ result.2.Named := by
    subst hbody
    rintro ⟨layout, cursor⟩ hcursor
    dsimp only
    split
    · rename_i behind hw
      exact uniformBody_ensures (hcursor.word hw).2.skipQualifiers
    · exact ensures_pure ⟨trivial, hcursor.of_suffix (Cursor.skipStatement_suffix _ _ _)⟩
  split
  · have hnext : Cursor.Named ⟨start.line, rest⟩ := h
    exact (LayoutList.read_ensures hnext).bind hlater
  · exact (ensures_pure (List.forall_mem_cons.2 ⟨hs, h⟩)).bind hlater

/-! ## Sources -/

theorem splitAtBracket_suffix {tokens inside behind : List Token} {close : Token}
    (h : splitAtBracket tokens = some (inside, close, behind)) : behind <:+ tokens := by
  induction tokens generalizing inside with
  | nil => cases h
  | cons token rest ih =>
    unfold splitAtBracket at h
    split at h
    · cases h
      exact List.suffix_cons _ _
    · obtain ⟨⟨before, last, after⟩, hs, he⟩ := Option.map_eq_some_iff.1 h
      cases he
      exact (ih hs).trans (List.suffix_cons _ _)

theorem attribute?_suffix {rest : List Token} {found : Attribute} {cursor : Cursor}
    (h : attribute? rest = some (found, cursor)) : cursor.rest <:+ rest := by
  unfold attribute? at h
  split at h
  · split at h
    · obtain ⟨⟨before, last, after⟩, hs, he⟩ := Option.map_eq_some_iff.1 h
      cases he
      exact ((splitAtBracket_suffix hs).trans (List.suffix_cons _ _)).trans (List.suffix_cons _ _)
    · cases h
  · cases h

theorem struct_ensures {scope : Scope} {attributes : List Attribute} {keyword : Token}
    {name : String} {cursor : Cursor} (h : cursor.Named) :
    (struct scope attributes keyword name cursor).Ensures fun result =>
      result.1.Written ∧ result.2.Named := by
  unfold struct
  refine (members_ensures h).bind ?_
  rintro ⟨fields, behind⟩ ⟨hfields, hbehind⟩
  refine ensures_pure ⟨⟨by simp, hfields⟩, ?_⟩
  dsimp only
  cases he : behind.eat? ';' with
  | none => exact hbehind
  | some after => exact hbehind.eat he

/-- What a statement contributes is written. -/
theorem statement_ensures {scope : Scope} (pending : Pending) {cursor : Cursor}
    (h : cursor.Named) :
    (statement scope pending cursor).Ensures fun result =>
      (∀ entry ∈ result.1.item?, entry.Written) ∧ result.2.Named := by
  obtain ⟨line, tokens⟩ := cursor
  cases tokens with
  | nil =>
    unfold statement
    exact ensures_pure ⟨by simp [Cursor.Turn.item?], h⟩
  | cons token rest =>
    obtain ⟨htoken, hrest⟩ := List.forall_mem_cons.1 h
    have hbehind : Cursor.Named ⟨token.line, rest⟩ := hrest
    have hpass : ∀ (pending : Pending) (next : Cursor), next.Named →
        (pure (.again .nothing pending, next) : Reading (Cursor.Turn Pending Entry × Cursor)).Ensures
          fun result => (∀ entry ∈ result.1.item?, entry.Written) ∧ result.2.Named := by
      intro pending next hn
      refine ensures_pure ⟨fun entry hm => ?_, hn⟩
      obtain rfl := Option.some.inj hm
      trivial
    have hdeclared : ∀ {read : Reading (Entry × Cursor)},
        (read.Ensures fun result => result.1.Written ∧ result.2.Named) →
        (pending.turn <$> read).Ensures
          fun result => (∀ entry ∈ result.1.item?, entry.Written) ∧ result.2.Named := by
      intro read hr
      refine hr.map ?_
      rintro ⟨entry, next⟩ ⟨hentry, hn⟩
      refine ⟨fun other hm => ?_, hn⟩
      obtain rfl := Option.some.inj hm
      exact hentry
    rcases start_cases token.lexeme with hm | hm | hm | hm | hm | hm
    · rw [statement_struct _ _ _ hm]
      cases hs : structHead? rest with
      | none => exact hpass _ _ hbehind
      | some found =>
        exact hdeclared (struct_ensures (hbehind.of_suffix (structHead?_suffix hs)))
    · rw [statement_word _ _ _ hm]
      exact hdeclared (uniformStatement_ensures htoken hrest)
    · rw [statement_attribute _ _ _ hm]
      cases ha : attribute? rest with
      | none => exact hpass _ _ hbehind
      | some found => exact hpass _ _ (hbehind.of_suffix (attribute?_suffix ha))
    · rw [statement_group _ _ _ hm]
      exact hpass _ _ (hbehind.of_suffix (Cursor.skipGroup_suffix _ _ _))
    · rw [statement_end _ _ _ hm]
      exact hpass _ _ hbehind
    · rw [statement_passedOver _ _ _ hm]
      exact hpass _ _ hbehind

end Source

open Source Logged

/-! ## Units -/

/-- What is read from a source is written, and the source keeps its key. -/
theorem read_ensures (key text : String) :
    (SourceContents.read key text).Ensures fun contents =>
      contents.key = key ∧ (∀ decl ∈ contents.declarations, Written decl) ∧
        ∀ uniform ∈ contents.uniforms, Spelled uniform.toField := by
  have hentries : (SourceContents.entries key text).Ensures fun entries =>
      ∀ entry ∈ entries, entry.Written := by
    unfold SourceContents.entries
    have hstart : Cursor.Named ⟨0, tokensOf (items (stripComments text.toList))⟩ :=
      named_tokensOf_items _
    refine (Cursor.loop_ensures (fun pending _ hc => statement_ensures pending hc) hstart).bind ?_
    rintro ⟨entries, final⟩ ⟨hentries, -⟩
    exact ensures_pure hentries
  intro contents hc
  unfold SourceContents.read at hc
  dsimp only at hc
  cases he : (SourceContents.entries key text).result with
  | error e =>
    rw [he] at hc
    cases hc
  | ok entries =>
  rw [he] at hc
  obtain rfl := Except.ok.inj hc
  have hwritten := hentries entries he
  refine ⟨rfl, fun decl hm => ?_, fun uniform hm => ?_⟩
  · obtain ⟨entry, hentry, hd⟩ := List.mem_filterMap.1 hm
    cases entry with
    | declaration found =>
      obtain rfl := Option.some.inj hd
      exact hwritten _ hentry
    | uniforms _ => cases hd
    | anonymous _ => cases hd
    | packing _ => cases hd
    | nothing => cases hd
  · obtain ⟨entry, hentry, hu⟩ := List.mem_flatMap.1 hm
    cases entry with
    | uniforms list => exact hwritten _ hentry uniform hu
    | declaration _ => cases hu
    | anonymous _ => cases hu
    | packing _ => cases hu
    | nothing => cases hu

theorem readStructs_ensures (key text : String) :
    (SourceContents.readStructs key text).Ensures fun structs => ∀ decl ∈ structs, Written decl := by
  unfold SourceContents.readStructs
  refine (read_ensures key text).bind ?_
  rintro contents ⟨-, hwritten, -⟩
  have hstructs : ∀ decl ∈ (contents.declarations.partition (·.kind == .struct)).1,
      Written decl := by
    intro decl hm
    rw [List.partition_eq_filter_filter] at hm
    exact hwritten decl (List.mem_filter.1 hm).1
  dsimp only
  split
  · exact ensures_bind_of_forall fun _ => ensures_pure hstructs
  · exact ensures_pure hstructs

/-- The declarations of a unit that was read. Only the aggregate of free uniforms is of that kind. -/
theorem declarations_of_read {unit : SourceUnit} {contents : SourceContents}
    {shared : List TypeDeclaration} (h : unit.read.result = .ok (contents, shared)) :
    contents.key = unit.key ∧ (∀ decl ∈ shared ++ contents.declarations, Written decl) ∧
      IdentifierFields (SourceUnit.declarations contents shared) := by
  have hshared : (unit.shared.mapM fun source =>
      SourceContents.readStructs source.key source.text).Ensures fun lists =>
        ∀ decl ∈ lists.flatten, Written decl := by
    induction unit.shared with
    | nil => exact ensures_pure (by simp)
    | cons source rest ih =>
      rw [List.mapM_cons]
      refine (readStructs_ensures source.key source.text).bind fun structs hstructs => ?_
      refine ih.bind fun others hothers => ensures_pure fun decl hm => ?_
      rw [List.flatten_cons] at hm
      rcases List.mem_append.1 hm with hm | hm
      · exact hstructs decl hm
      · exact hothers decl hm
  have hread : unit.read.Ensures fun result => result.1.key = unit.key ∧
      (∀ decl ∈ result.2 ++ result.1.declarations, Written decl) ∧
        ∀ uniform ∈ result.1.uniforms, Spelled uniform.toField := by
    unfold SourceUnit.read
    refine (read_ensures unit.key unit.text).bind fun contents hcontents => ?_
    refine hshared.bind fun lists hlists => ensures_pure ⟨hcontents.1, fun decl hm => ?_, hcontents.2.2⟩
    rcases List.mem_append.1 hm with hm | hm
    · exact hlists decl hm
    · exact hcontents.2.1 decl hm
  obtain ⟨hkey, hwritten, huniforms⟩ := hread _ h
  refine ⟨hkey, hwritten, fun decl hm field hf => ?_⟩
  rcases List.mem_append.1 hm with hm | hm
  · exact ((hwritten decl hm).fields field hf).spelled
  · rw [uniformSet?_fields (Option.mem_toList.1 hm)] at hf
    obtain ⟨uniform, hu, rfl⟩ := List.mem_map.1 hf
    exact huniforms uniform hu

end UniformLayout
