import UniformLayout.Proofs.Resolution.Renaming

/-!
# Expanded structures

The expanded structure of a declaration has the aggregates that the fields use in place of their
names, so that no declared name is left in it. A unit that has been resolved has no cycles; its
declarations can be expanded down to base types.

* `Hashed.expanded_eq`: the expanded structure without a depth.
* `Hashed.contentHash_eq_iff`: content hashes are equal exactly when the expanded structures are, as
  far as the digest tells the fingerprints apart (`NoCollision`).

Main statement: `hash_eq_iff_expanded_eq`.
-/

namespace UniformLayout

/-- The kind of an aggregate and a block's packing, without the slot and the instance name. -/
inductive AggregateKind where
  | struct
  | block (packing : Packing)
  | uniformSet
  deriving DecidableEq, Repr

def DeclarationKind.aggregate : DeclarationKind → AggregateKind
  | .struct => .struct
  | .uniformBlock _ _ packing => .block packing
  | .uniformSet => .uniformSet

mutual

/-- A type whose aggregates are given by their fields. -/
inductive ExpandedType where
  | base (name : String)
  | aggregate (kind : AggregateKind) (fields : List ExpandedField)

/-- A field of an expanded type. -/
inductive ExpandedField where
  | mk (name : String) (arrayLength binding : Option Nat) (type : ExpandedType)

end

/-- The field with its type expanded, where `expand` expands the declarations. -/
def FieldDeclaration.expand (decls : List TypeDeclaration) (expand : TypeDeclaration → ExpandedType)
    (field : FieldDeclaration) : ExpandedField :=
  .mk field.name field.arrayLength field.qualifiers.binding
    ((declared? decls field.typeName).elim (.base field.typeName) expand)

/-- The structure of a declaration, expanded down to a depth. -/
def TypeDeclaration.expand (decls : List TypeDeclaration) : Nat → TypeDeclaration → ExpandedType
  | 0, decl => .aggregate decl.kind.aggregate []
  | depth + 1, decl =>
    .aggregate decl.kind.aggregate
      (decl.fields.map (FieldDeclaration.expand decls fun inner => inner.expand decls depth))

/-- The expanded structure of a declaration. Without cycles no chain of declarations is longer than
their number. -/
def TypeDeclaration.expanded (decls : List TypeDeclaration) (decl : TypeDeclaration) :
    ExpandedType :=
  decl.expand decls decls.length

theorem tag_eq_iff {kind other : DeclarationKind} :
    kind.tag = other.tag ↔ kind.aggregate = other.aggregate := by
  have hblock : ∀ packing packing' : Packing,
      (DeclarationKind.uniformBlock none none packing).tag =
          (DeclarationKind.uniformBlock none none packing').tag ↔
        AggregateKind.block packing = .block packing' := by
    intro packing packing'
    cases packing <;> cases packing' <;> decide
  have hother : ∀ packing : Packing,
      (DeclarationKind.uniformBlock none none packing).tag ≠ "struct" ∧
        (DeclarationKind.uniformBlock none none packing).tag ≠ "uniforms" := by
    intro packing
    cases packing <;> decide
  cases kind with
  | struct =>
    cases other with
    | struct => exact ⟨fun _ => rfl, fun _ => rfl⟩
    | uniformBlock slot name packing =>
      exact ⟨fun h => absurd h.symm (hother packing).1, fun h => nomatch h⟩
    | uniformSet => decide
  | uniformBlock slot name packing =>
    cases other with
    | struct => exact ⟨fun h => absurd h (hother packing).1, fun h => nomatch h⟩
    | uniformBlock slot' name' packing' => exact hblock packing packing'
    | uniformSet => exact ⟨fun h => absurd h (hother packing).2, fun h => nomatch h⟩
  | uniformSet =>
    cases other with
    | struct => decide
    | uniformBlock slot name packing =>
      exact ⟨fun h => absurd h.symm (hother packing).2, fun h => nomatch h⟩
    | uniformSet => exact ⟨fun _ => rfl, fun _ => rfl⟩

/-! ## Expansion without a depth -/

section

variable {decls : List TypeDeclaration} {hashes : Table String String} {rank : String → Nat}

/-- A field refers to a base type, whose name stands in the fingerprint, or to a declaration of
lower rank, whose hash stands there. -/
theorem Hashed.field_cases (h : Hashed decls hashes rank) {decl : TypeDeclaration}
    (hd : declared? decls decl.name = some decl) (hu : SelfContained decls)
    {field : FieldDeclaration} (hf : field ∈ decl.fields) :
    declared? decls field.typeName = none ∧ (field.key hashes).type = field.typeName ∧
        field.typeName.length < 40 ∨
      ∃ inner, declared? decls field.typeName = some inner ∧ rank inner.name < rank decl.name ∧
        (field.key hashes).type = inner.contentHash hashes := by
  cases hb : field.baseType? with
  | some type =>
    left
    have hbase : (BaseType.ofName? field.typeName).isSome := by
      rw [← FieldDeclaration.baseType?, hb]
      rfl
    refine ⟨?_, ?_, length_of_baseType hbase⟩
    · cases hi : declared? decls field.typeName with
      | none => rfl
      | some inner =>
        have huser := hu.userNames inner (mem_of_declared hi)
        rw [name_of_declared hi] at huser
        rw [huser] at hbase
        cases hbase
    · unfold FieldDeclaration.key
      dsimp only
      rw [h.base _ hbase]
      rfl
  | none =>
    right
    obtain ⟨inner, hi, hlt⟩ := h.nested decl hd field hf hb
    refine ⟨inner, hi, hlt, ?_⟩
    have hhash := h.hash inner (declared_self hi)
    rw [name_of_declared hi] at hhash
    unfold FieldDeclaration.key
    dsimp only
    rw [hhash]
    rfl

/-- Above the rank of a declaration, the depth does not matter. -/
theorem Hashed.expand_eq (h : Hashed decls hashes rank) (hu : SelfContained decls)
    {decl : TypeDeclaration} (hd : declared? decls decl.name = some decl) {depth depth' : Nat}
    (hdepth : rank decl.name < depth) (hdepth' : rank decl.name < depth') :
    decl.expand decls depth = decl.expand decls depth' := by
  induction depth generalizing decl depth' with
  | zero => exact absurd hdepth (Nat.not_lt_zero _)
  | succ depth ih =>
    cases depth' with
    | zero => exact absurd hdepth' (Nat.not_lt_zero _)
    | succ depth' =>
      have hfields : decl.fields.map (FieldDeclaration.expand decls (·.expand decls depth)) =
          decl.fields.map (FieldDeclaration.expand decls (·.expand decls depth')) := by
        apply List.map_congr_left
        intro field hf
        unfold FieldDeclaration.expand
        rcases h.field_cases hd hu hf with ⟨hnone, -⟩ | ⟨inner, hi, hlt, -⟩
        · rw [hnone]
          rfl
        · have hinner : inner.expand decls depth = inner.expand decls depth' :=
            ih (declared_self hi) (by omega) (by omega)
          rw [hi]
          exact congrArg (ExpandedField.mk _ _ _) hinner
      unfold TypeDeclaration.expand
      rw [hfields]

/-- The expanded structure is the kind, and each field with its type expanded. -/
theorem Hashed.expanded_eq (h : Hashed decls hashes rank) (hu : SelfContained decls)
    {decl : TypeDeclaration} (hd : declared? decls decl.name = some decl) :
    decl.expanded decls = .aggregate decl.kind.aggregate
      (decl.fields.map (FieldDeclaration.expand decls (TypeDeclaration.expanded decls))) := by
  have hbound := h.bound decl hd
  have hdepth : decl.expanded decls = decl.expand decls (decls.length + 1) :=
    h.expand_eq hu hd hbound (by omega)
  rw [hdepth]
  rfl

end

/-! ## Hashes and expanded structures -/

/-- The digest tells the texts apart. -/
def NoCollision (texts : List String) : Prop :=
  ∀ text ∈ texts, ∀ other ∈ texts,
    Sha1.sha1 text.toUTF8.data.toList = Sha1.sha1 other.toUTF8.data.toList → text = other

instance (texts : List String) : Decidable (NoCollision texts) :=
  inferInstanceAs (Decidable (∀ text ∈ texts, ∀ other ∈ texts,
    Sha1.sha1 text.toUTF8.data.toList = Sha1.sha1 other.toUTF8.data.toList → text = other))

/-- The fingerprints of the declarations that stand for their names. -/
def fingerprints (decls : List TypeDeclaration) (hashes : HashTable) : List String :=
  (decls.filter fun decl => declared? decls decl.name = some decl).map (·.fingerprint hashes)

/-- The names of the fields and of their types are written as sources write names. -/
def IdentifierFields (decls : List TypeDeclaration) : Prop :=
  ∀ decl ∈ decls, ∀ field ∈ decl.fields, IsIdentifier field.name ∧ IsIdentifier field.typeName

theorem map_eq_map_iff_of_iff {α β γ δ : Type} {f : α → γ} {g : β → γ} {f' : α → δ} {g' : β → δ}
    {as : List α} {bs : List β} (h : ∀ a ∈ as, ∀ b ∈ bs, f a = g b ↔ f' a = g' b) :
    as.map f = bs.map g ↔ as.map f' = bs.map g' := by
  induction as generalizing bs with
  | nil =>
    cases bs with
    | nil => exact ⟨fun _ => rfl, fun _ => rfl⟩
    | cons b rest => exact ⟨(nomatch ·), (nomatch ·)⟩
  | cons a rest ih =>
    cases bs with
    | nil => exact ⟨(nomatch ·), (nomatch ·)⟩
    | cons b others =>
      have hrest := @ih others fun x hx y hy =>
        h x (List.mem_cons_of_mem _ hx) y (List.mem_cons_of_mem _ hy)
      rw [List.map_cons, List.map_cons, List.map_cons, List.map_cons, List.cons.injEq,
        List.cons.injEq, h a List.mem_cons_self b List.mem_cons_self, hrest]

/-- The keys of the fields can be read back from the fingerprint. -/
theorem Hashed.key_plain {decls : List TypeDeclaration} {hashes : Table String String}
    {rank : String → Nat} (h : Hashed decls hashes rank) (hu : SelfContained decls)
    (hw : IdentifierFields decls) {decl : TypeDeclaration}
    (hd : declared? decls decl.name = some decl) :
    ∀ field ∈ decl.fields, (field.key hashes).Plain := by
  intro field hf
  obtain ⟨hname, htype⟩ := hw decl (mem_of_declared hd) field hf
  refine ⟨?_, hname.inWord⟩
  rcases h.field_cases hd hu hf with ⟨-, hkey, -⟩ | ⟨inner, -, -, hkey⟩
  · rw [hkey]
    intro c hm
    have := inWord_ne (htype.inWord c hm)
    exact ⟨this.1, this.2.1⟩
  · rw [hkey]
    exact contentHash_plain inner hashes

section

variable {decls others : List TypeDeclaration} {hashes otherHashes : Table String String}
  {rank otherRank : String → Nat}

theorem contentHash_eq_iff_fingerprint_eq
    (hc : NoCollision (fingerprints decls hashes ++ fingerprints others otherHashes))
    {a b : TypeDeclaration} (ha : declared? decls a.name = some a)
    (hb : declared? others b.name = some b) :
    a.contentHash hashes = b.contentHash otherHashes ↔
      a.fingerprint hashes = b.fingerprint otherHashes := by
  have hmem : ∀ {decls : List TypeDeclaration} {hashes : HashTable} {decl : TypeDeclaration},
      declared? decls decl.name = some decl →
        decl.fingerprint hashes ∈ fingerprints decls hashes := by
    intro decls hashes decl hd
    exact List.mem_map_of_mem (List.mem_filter.2 ⟨mem_of_declared hd, decide_eq_true hd⟩)
  unfold TypeDeclaration.contentHash
  constructor
  · intro h
    exact hc _ (List.mem_append_left _ (hmem ha)) _ (List.mem_append_right _ (hmem hb))
      (hex_injective h)
  · intro h
    rw [h]

/-- The fingerprint says the same of two fields exactly when they expand to the same field, as long
as hashes tell the declarations of lower rank apart. -/
theorem Hashed.key_eq_iff (h : Hashed decls hashes rank)
    (ho : Hashed others otherHashes otherRank) (hu : SelfContained decls)
    (huo : SelfContained others) {a b : TypeDeclaration} (ha : declared? decls a.name = some a)
    (hb : declared? others b.name = some b) {field other : FieldDeclaration}
    (hf : field ∈ a.fields) (hg : other ∈ b.fields)
    (ih : ∀ inner outer : TypeDeclaration, rank inner.name < rank a.name →
      declared? decls inner.name = some inner → declared? others outer.name = some outer →
      (inner.contentHash hashes = outer.contentHash otherHashes ↔
        inner.expanded decls = outer.expanded others)) :
    field.key hashes = other.key otherHashes ↔
      field.expand decls (TypeDeclaration.expanded decls) =
        other.expand others (TypeDeclaration.expanded others) := by
  have htype : (field.key hashes).type = (other.key otherHashes).type ↔
      (declared? decls field.typeName).elim (.base field.typeName)
          (TypeDeclaration.expanded decls) =
        (declared? others other.typeName).elim (.base other.typeName)
          (TypeDeclaration.expanded others) := by
    rcases h.field_cases ha hu hf with ⟨hnone, hkey, hshort⟩ | ⟨inner, hi, hlt, hkey⟩
    · rcases ho.field_cases hb huo hg with ⟨hnone', hkey', -⟩ | ⟨outer, hi', -, hkey'⟩
      · rw [hkey, hkey', hnone, hnone', Option.elim_none, Option.elim_none,
          ExpandedType.base.injEq]
      · -- A content hash is longer than every name of a base type.
        have hlong := length_contentHash outer otherHashes
        rw [hkey, hkey', hnone, hi', Option.elim_some, ho.expanded_eq huo (declared_self hi')]
        constructor
        · intro he
          rw [← he] at hlong
          omega
        · intro he
          cases he
    · rcases ho.field_cases hb huo hg with ⟨hnone', hkey', hshort'⟩ | ⟨outer, hi', -, hkey'⟩
      · have hlong := length_contentHash inner hashes
        rw [hkey, hkey', hnone', hi, Option.elim_some, h.expanded_eq hu (declared_self hi)]
        constructor
        · intro he
          rw [he] at hlong
          omega
        · intro he
          cases he
      · rw [hkey, hkey', hi, hi']
        exact ih inner outer hlt (declared_self hi) (declared_self hi')
  unfold FieldDeclaration.expand
  rw [ExpandedField.mk.injEq, ← htype]
  unfold FieldDeclaration.key
  rw [FieldKey.mk.injEq]
  constructor
  · rintro ⟨ht, hname, hlength, hbinding⟩
    exact ⟨hname, hlength, hbinding, ht⟩
  · rintro ⟨hname, hlength, hbinding, ht⟩
    exact ⟨ht, hname, hlength, hbinding⟩

/-- Content hashes are equal exactly when the expanded structures are. The induction is on the rank:
a field's type stands in the fingerprint by a hash only when it is of lower rank. -/
theorem Hashed.contentHash_eq_iff (h : Hashed decls hashes rank)
    (ho : Hashed others otherHashes otherRank) (hu : SelfContained decls)
    (huo : SelfContained others) (hw : IdentifierFields decls) (hwo : IdentifierFields others)
    (hc : NoCollision (fingerprints decls hashes ++ fingerprints others otherHashes))
    {a b : TypeDeclaration} (ha : declared? decls a.name = some a)
    (hb : declared? others b.name = some b) :
    a.contentHash hashes = b.contentHash otherHashes ↔ a.expanded decls = b.expanded others := by
  induction hn : rank a.name using Nat.strongRecOn generalizing a b with
  | ind n ih =>
    subst hn
    rw [contentHash_eq_iff_fingerprint_eq hc ha hb,
      fingerprint_eq_iff (h.key_plain hu hw ha) (ho.key_plain huo hwo hb), tag_eq_iff,
      h.expanded_eq hu ha, ho.expanded_eq huo hb, ExpandedType.aggregate.injEq]
    apply and_congr_right
    intro _
    apply map_eq_map_iff_of_iff
    intro field hf other hg
    apply h.key_eq_iff ho hu huo ha hb hf hg
    intro inner outer hlt hi ho
    exact ih _ hlt hi ho rfl

end

/-! ## Resolved units -/

/-- However two units name their aggregates, declarations of them have equal hashes exactly when
their expanded structures are equal. Renaming the aggregates of a unit changes no hash. -/
theorem hash_eq_iff_expanded_eq {registry otherRegistry : Registry} {key otherKey : String}
    {decls others : List TypeDeclaration} {resolution other : Resolution}
    (hu : SelfContained decls) (huo : SelfContained others) (hw : IdentifierFields decls)
    (hwo : IdentifierFields others) (h : (resolve registry key decls).result = .ok resolution)
    (ho : (resolve otherRegistry otherKey others).result = .ok other)
    (hc : NoCollision (fingerprints decls resolution.hashes ++ fingerprints others other.hashes)) :
    (∀ a b : TypeDeclaration, declared? decls a.name = some a → declared? others b.name = some b →
      ∃ hash otherHash, resolution.hashes.lookup a.name = some hash ∧
        other.hashes.lookup b.name = some otherHash ∧
        (hash = otherHash ↔ a.expanded decls = b.expanded others)) ∧
    ∀ ρ : String → String, Renames ρ decls → ∀ (newRegistry : Registry) (newKey : String),
      ∃ renamed, (resolve newRegistry newKey (decls.map (TypeDeclaration.rename ρ))).result =
          .ok renamed ∧
        ∀ decl ∈ decls,
          renamed.hashes.lookup (ρ decl.name) = resolution.hashes.lookup decl.name := by
  constructor
  · intro a b ha hb
    obtain ⟨rank, hhashed⟩ := hashed_of_resolve hu h
    obtain ⟨otherRank, hother⟩ := hashed_of_resolve huo ho
    exact ⟨_, _, hhashed.hash a ha, hother.hash b hb,
      hhashed.contentHash_eq_iff hother hu huo hw hwo hc ha hb⟩
  · intro ρ hr newRegistry newKey
    exact resolve_rename hr hu newRegistry newKey h

/-! ## One scene under two namings -/

def lightDeclaration (name : String) : TypeDeclaration where
  name := name
  kind := .struct
  fields := [{ typeName := "vec3", name := "pos" }]

def sceneDeclaration (name light : String) (slot : Option Nat) : TypeDeclaration where
  name := name
  kind := .uniformBlock slot none .std140
  fields := [{ typeName := light, name := "lights", arrayLength := some 4 }]

def sceneUnit : List TypeDeclaration :=
  [sceneDeclaration "Scene" "Light" (some 1), lightDeclaration "Light"]

def stageUnit : List TypeDeclaration :=
  [lightDeclaration "Lamp", sceneDeclaration "Stage" "Lamp" none]

/-- The hashes of both units, under the names of the struct and of the block. -/
def sceneHashes (light scene : String) : HashTable :=
  [(light, "ce5b94c9864cb802c8b9b8c092c1594964c44480"),
    (scene, "31ca03f0ac694dbaa8c1f8a4236894d2da2709ac")]

/-- Two blocks of the same structure in units that name and order their aggregates differently. -/
theorem hash_eq_iff_expanded_eq_scene :
    ∃ resolution other : Resolution,
      (resolve {} "scene.glsl" sceneUnit).result = .ok resolution ∧
      (resolve {} "stage.glsl" stageUnit).result = .ok other ∧
      NoCollision
        (fingerprints sceneUnit resolution.hashes ++ fingerprints stageUnit other.hashes) ∧
      ∃ hash, resolution.hashes.lookup "Scene" = some hash ∧
        other.hashes.lookup "Stage" = some hash := by
  have hscene : ((resolve {} "scene.glsl" sceneUnit).result >>= fun resolution =>
      .ok resolution.hashes) = .ok (sceneHashes "Light" "Scene") := by decide +kernel
  have hstage : ((resolve {} "stage.glsl" stageUnit).result >>= fun resolution =>
      .ok resolution.hashes) = .ok (sceneHashes "Lamp" "Stage") := by decide +kernel
  obtain ⟨resolution, hr, hhashes⟩ := bind_eq_ok_iff.1 hscene
  obtain ⟨other, ho, hotherHashes⟩ := bind_eq_ok_iff.1 hstage
  have hc : NoCollision
      (fingerprints sceneUnit resolution.hashes ++ fingerprints stageUnit other.hashes) := by
    rw [Except.ok.inj hhashes, Except.ok.inj hotherHashes]
    decide +kernel
  have hu : SelfContained sceneUnit := ⟨by decide +kernel, by decide +kernel⟩
  have huo : SelfContained stageUnit := ⟨by decide +kernel, by decide +kernel⟩
  have hw : IdentifierFields sceneUnit := by
    unfold IdentifierFields
    decide +kernel
  have hwo : IdentifierFields stageUnit := by
    unfold IdentifierFields
    decide +kernel
  obtain ⟨hash, otherHash, hl, hlo, hiff⟩ := (hash_eq_iff_expanded_eq hu huo hw hwo hr ho hc).1
    (sceneDeclaration "Scene" "Light" (some 1)) (sceneDeclaration "Stage" "Lamp" none)
    (by decide +kernel) (by decide +kernel)
  have hexpanded : (sceneDeclaration "Scene" "Light" (some 1)).expanded sceneUnit =
      (sceneDeclaration "Stage" "Lamp" none).expanded stageUnit := rfl
  obtain rfl := hiff.2 hexpanded
  exact ⟨resolution, other, hr, ho, hc, hash, hl, hlo⟩

end UniformLayout
