import UniformLayout.Proofs.Layout.Skeleton
import UniformLayout.Proofs.Lists
import UniformLayout.Proofs.Schema.Built
import UniformLayout.Proofs.Source.Reading

/-!
# Layouts under their own hash

A layout is sealed when it was made for a declaration under the hash of this declaration, on top of
layouts that are sealed as well. The fingerprint that was digested can then be read off the layout
(`print_of_layOut`). As far as the digest tells these fingerprints apart, the hash of a sealed layout
determines its skeleton.

* `agrees_of_fingerprint_eq`: declarations with one fingerprint agree field by field.
* `Sealed.skeleton_eq`: sealed layouts with one hash have one skeleton.

Main statement: `exists_known_skeleton`.
-/

namespace UniformLayout

/-! ## The fingerprint of a layout -/

/-- What stands for the type of a field in a fingerprint. -/
def FieldShape.typeKey (typeName : String) : FieldShape → String
  | .base _ => typeName
  | .aggregate layout => layout.contentHash

/-- The field as its fingerprint has it. -/
def FieldLayout.signature (field : FieldLayout) : FieldDeclaration where
  typeName := field.shape.typeKey field.typeName
  name := field.name
  arrayLength := field.array.map ArrayLayout.length
  qualifiers := field.qualifiers

/-- The fingerprint of the declaration that the layout was made for. -/
def StructLayout.print (layout : StructLayout) : String :=
  String.join (layout.kind.tag ::
    layout.fields.map fun field => TypeDeclaration.fieldPrint [] field.signature)

/-- The hashes name the layouts of the table, and no base type. -/
structure LayoutTable.DescribedBy (nested : LayoutTable) (hashes : HashTable) : Prop where
  base : ∀ name, (BaseType.ofName? name).isSome → hashes.lookup name = none
  nested : ∀ name below, nested.lookup name = some below →
    hashes.lookup name = some below.contentHash

/-- The layout was made for a declaration under its own hash, from layouts that were made in the same
way. -/
inductive StructLayout.Sealed : StructLayout → Prop
  | intro {decl : TypeDeclaration} {nested : LayoutTable} {hashes : HashTable}
      {layout : StructLayout}
      (inner : ∀ name below, nested.lookup name = some below → below.Sealed)
      (described : nested.DescribedBy hashes)
      (spelled : ∀ field ∈ decl.fields, Source.Spelled field)
      (made : decl.layOut (decl.contentHash hashes) nested = .ok layout) : layout.Sealed

/-- What a declaration needs so that its layout is sealed. -/
structure TypeDeclaration.Ready (decl : TypeDeclaration) (nested : LayoutTable)
    (hashes : HashTable) : Prop where
  inner : ∀ name below, nested.lookup name = some below → below.Sealed
  described : nested.DescribedBy hashes
  spelled : ∀ field ∈ decl.fields, Source.Spelled field
  covers : nested.Covers decl.fields

theorem StructLayout.Sealed.laidOut {layout : StructLayout} (h : layout.Sealed) :
    layout.LaidOut := by
  induction h with
  | intro _ _ _ made ih => exact .intro ih made

theorem TypeDeclaration.Ready.laidOut {decl : TypeDeclaration} {nested : LayoutTable}
    {hashes : HashTable} (h : decl.Ready nested hashes) : nested.LaidOut :=
  fun name below hl => (h.inner name below hl).laidOut

/-- A declaration that has been laid out had what it needs. -/
theorem TypeDeclaration.ready_of_layOut {decl : TypeDeclaration} {nested : LayoutTable}
    {hashes : HashTable} {contentHash : String} {layout : StructLayout}
    (inner : ∀ name below, nested.lookup name = some below → below.Sealed)
    (described : nested.DescribedBy hashes) (spelled : ∀ field ∈ decl.fields, Source.Spelled field)
    (made : decl.layOut contentHash nested = .ok layout) : decl.Ready nested hashes :=
  ⟨inner, described, spelled, (eq_exactLayout (fun _ _ hl => (inner _ _ hl).laidOut) made).1⟩

/-- What is nested in a sealed layout is sealed. -/
theorem StructLayout.Sealed.throughout {layout : StructLayout} (h : layout.Sealed) :
    layout.Throughout StructLayout.Sealed := by
  induction h with
  | intro inner described spelled made ih =>
    refine .intro (.intro inner described spelled made) fun field hm below hs => ?_
    obtain ⟨-, rfl, -, -⟩ := eq_exactLayout (fun name below hl => (inner name below hl).laidOut) made
    exact ih _ below (lookup_of_exactFields hm hs)

/-- A sealed layout has the hash of a declaration. -/
theorem StructLayout.Sealed.exists_contentHash {layout : StructLayout} (h : layout.Sealed) :
    ∃ (decl : TypeDeclaration) (hashes : HashTable),
      layout.contentHash = decl.contentHash hashes := by
  obtain ⟨-, -, -, made⟩ := h
  obtain ⟨fields, size, -, -, rfl⟩ := layOut_eq_ok made
  exact ⟨_, _, rfl⟩

variable {decl other : TypeDeclaration} {nested others : LayoutTable}
  {hashes otherHashes : HashTable}

/-- A field is of a base type, which has no hash, or of a type of the table, which has one. -/
theorem TypeDeclaration.Ready.field_cases (h : decl.Ready nested hashes) {field : FieldDeclaration}
    (hf : field ∈ decl.fields) :
    (∃ type, BaseType.ofName? field.typeName = some type ∧ field.shapeIn nested = .base type ∧
        (field.key hashes).type = field.typeName) ∨
      ∃ below, nested.lookup field.typeName = some below ∧
        field.shapeIn nested = .aggregate below ∧ (field.key hashes).type = below.contentHash := by
  unfold FieldDeclaration.shapeIn FieldDeclaration.key
  dsimp only
  cases hb : field.baseType? with
  | some type =>
    have hbase : BaseType.ofName? field.typeName = some type := hb
    refine Or.inl ⟨type, hbase, rfl, ?_⟩
    rw [h.described.base _ (by rw [hbase]; rfl)]
    rfl
  | none =>
    obtain ⟨below, hl⟩ := Option.isSome_iff_exists.1 (h.covers field hf hb)
    refine Or.inr ⟨below, hl, ?_, ?_⟩
    · rw [hl]
      rfl
    · rw [h.described.nested _ _ hl]
      rfl

/-- The fingerprint of a declaration can be read off its layout. -/
theorem print_of_layOut (h : decl.Ready nested hashes) {contentHash : String}
    {layout : StructLayout} (made : decl.layOut contentHash nested = .ok layout) :
    layout.print = decl.fingerprint hashes := by
  obtain ⟨-, rfl, -, -⟩ := eq_exactLayout h.laidOut made
  have hfield : ∀ field ∈ decl.fields, ∀ cursor,
      TypeDeclaration.fieldPrint [] (field.exactPlace (field.shapeIn nested) cursor).signature =
        TypeDeclaration.fieldPrint hashes field := by
    intro field hf cursor
    have hlength : (field.arrayLength.map fun length =>
        (⟨length, exactStride (field.shapeIn nested)⟩ : ArrayLayout)).map ArrayLayout.length =
          field.arrayLength := by
      cases field.arrayLength with
      | none => rfl
      | some length => rfl
    have htype : (field.shapeIn nested).typeKey field.typeName = (field.key hashes).type := by
      rcases h.field_cases hf with ⟨type, -, hs, hk⟩ | ⟨below, -, hs, hk⟩
      · rw [hs, hk]
        rfl
      · rw [hs, hk]
        rfl
    unfold TypeDeclaration.fieldPrint FieldLayout.signature FieldDeclaration.exactPlace
    dsimp only
    rw [hlength, htype]
    rfl
  have hfields : ∀ (fields : List FieldDeclaration) (cursor : Nat),
      (∀ field ∈ fields, field ∈ decl.fields) →
      (exactFields nested cursor fields).map
          (fun field => TypeDeclaration.fieldPrint [] field.signature) =
        fields.map (TypeDeclaration.fieldPrint hashes) := by
    intro fields
    induction fields with
    | nil =>
      intro cursor _
      rfl
    | cons field rest ih =>
      intro cursor hm
      obtain ⟨hf, hrest⟩ := List.forall_mem_cons.1 hm
      simp only [exactFields, List.map_cons]
      rw [hfield field hf, ih _ hrest]
  unfold StructLayout.print TypeDeclaration.fingerprint TypeDeclaration.exactLayout
  dsimp only
  rw [hfields _ _ fun _ hf => hf]

/-! ## One fingerprint, one skeleton -/

/-- The fields of a fingerprint can be read back. -/
theorem TypeDeclaration.Ready.key_plain (h : decl.Ready nested hashes) :
    ∀ field ∈ decl.fields, (field.key hashes).Plain := by
  intro field hf
  obtain ⟨hname, htype⟩ := h.spelled field hf
  refine ⟨?_, hname.inWord⟩
  rcases h.field_cases hf with ⟨type, -, -, hk⟩ | ⟨below, hl, -, hk⟩
  · rw [hk]
    intro c hm
    have hne := inWord_ne (htype.inWord c hm)
    exact ⟨hne.1, hne.2.1⟩
  · obtain ⟨inner, table, he⟩ := (h.inner _ _ hl).exists_contentHash
    rw [hk, he]
    exact contentHash_plain inner table

theorem skeleton_of_tag_eq {kind other : DeclarationKind} (h : kind.tag = other.tag) :
    kind.skeleton = other.skeleton := by
  rw [tag_eq_iff] at h
  cases kind with
  | struct =>
    cases other with
    | struct => rfl
    | uniformBlock _ _ _ => cases h
    | uniformSet => cases h
  | uniformBlock slot name packing =>
    cases other with
    | struct => cases h
    | uniformBlock _ _ _ =>
      obtain rfl := AggregateKind.block.inj h
      rfl
    | uniformSet => cases h
  | uniformSet =>
    cases other with
    | struct => cases h
    | uniformBlock _ _ _ => cases h
    | uniformSet => rfl

/-- Fields with one key agree, as long as hashes tell the skeletons of their types apart. -/
theorem TypeDeclaration.Ready.agrees (h : decl.Ready nested hashes)
    (ho : other.Ready others otherHashes) {field another : FieldDeclaration}
    (hf : field ∈ decl.fields) (hg : another ∈ other.fields)
    (he : field.key hashes = another.key otherHashes)
    (hinner : ∀ below outer, field.shapeIn nested = .aggregate below →
      another.shapeIn others = .aggregate outer → below.contentHash = outer.contentHash →
        below.skeleton = outer.skeleton) :
    field.Agrees nested others another := by
  have htype := congrArg FieldKey.type he
  refine ⟨congrArg FieldKey.name he, congrArg FieldKey.arrayLength he, congrArg FieldKey.binding he,
    ?_⟩
  -- A content hash is longer than every name of a base type.
  have hlong : ∀ {below : StructLayout} {name : String} {type : BaseType}, below.Sealed →
      BaseType.ofName? name = some type → name ≠ below.contentHash := by
    rintro below name type hs hb rfl
    obtain ⟨inner, table, hhash⟩ := hs.exists_contentHash
    have hshort := length_of_baseType (by rw [hb]; rfl)
    rw [hhash, length_contentHash] at hshort
    exact absurd hshort (by decide)
  rcases h.field_cases hf with ⟨type, hb, hs, hk⟩ | ⟨below, hl, hs, hk⟩
  · rcases ho.field_cases hg with ⟨type', hb', hs', hk'⟩ | ⟨outer, hl', hs', hk'⟩
    · rw [hk, hk'] at htype
      rw [htype, hb'] at hb
      rw [hs, hs', Option.some.inj hb]
    · rw [hk, hk'] at htype
      exact absurd htype (hlong (ho.inner _ _ hl') hb)
  · rcases ho.field_cases hg with ⟨type', hb', hs', hk'⟩ | ⟨outer, hl', hs', hk'⟩
    · rw [hk, hk'] at htype
      exact absurd htype.symm (hlong (h.inner _ _ hl) hb')
    · rw [hk, hk'] at htype
      rw [hs, hs', FieldShape.skeleton, FieldShape.skeleton, hinner below outer hs hs' htype]

/-- Declarations with one fingerprint agree. -/
theorem agrees_of_fingerprint_eq (h : decl.Ready nested hashes)
    (ho : other.Ready others otherHashes)
    (he : decl.fingerprint hashes = other.fingerprint otherHashes)
    (hinner : ∀ field ∈ decl.fields, ∀ another ∈ other.fields, ∀ below outer,
      field.shapeIn nested = .aggregate below → another.shapeIn others = .aggregate outer →
        below.contentHash = outer.contentHash → below.skeleton = outer.skeleton) :
    decl.kind.skeleton = other.kind.skeleton ∧
      List.Forall₂ (FieldDeclaration.Agrees nested others) decl.fields other.fields := by
  obtain ⟨htag, hkeys⟩ := (fingerprint_eq_iff h.key_plain ho.key_plain).1 he
  refine ⟨skeleton_of_tag_eq htag, forall₂_of_map_eq hkeys fun field hf another hg hkey => ?_⟩
  exact h.agrees ho hf hg hkey (hinner field hf another hg)

/-- What the fields of a declaration refer to is nested in its layout. -/
theorem throughout_of_shapeIn {P : StructLayout → Prop} (hn : nested.LaidOut)
    {contentHash : String} {layout : StructLayout}
    (made : decl.layOut contentHash nested = .ok layout) (hp : layout.Throughout P)
    {field : FieldDeclaration} (hf : field ∈ decl.fields) {below : StructLayout}
    (hs : field.shapeIn nested = .aggregate below) : below.Throughout P := by
  have hplaced : ∀ (fields : List FieldDeclaration) (cursor : Nat), field ∈ fields →
      ∃ placed ∈ exactFields nested cursor fields, placed.shape = field.shapeIn nested := by
    intro fields
    induction fields with
    | nil => simp
    | cons first rest ih =>
      intro cursor hm
      rw [exactFields]
      rcases List.mem_cons.1 hm with rfl | hm
      · exact ⟨_, List.mem_cons_self, rfl⟩
      · obtain ⟨placed, hp, hshape⟩ := ih _ hm
        exact ⟨placed, List.mem_cons_of_mem _ hp, hshape⟩
  obtain ⟨-, rfl, -, -⟩ := eq_exactLayout hn made
  obtain ⟨placed, hm, hshape⟩ := hplaced decl.fields 0 hf
  obtain ⟨-, hnested⟩ := hp
  exact hnested placed hm below (hshape.trans hs)

theorem contentHash_of_layOut {contentHash : String} {layout : StructLayout}
    (made : decl.layOut contentHash nested = .ok layout) : layout.contentHash = contentHash := by
  obtain ⟨fields, size, -, -, rfl⟩ := layOut_eq_ok made
  rfl

/-- The layout is sealed, and its fingerprint is among the texts, as are those below it. -/
structure StructLayout.SealedIn (texts : List String) (layout : StructLayout) : Prop where
  isSealed : layout.Sealed
  prints : layout.Throughout (·.print ∈ texts)

variable {texts : List String}

/-- What a field refers to has a fingerprint among the texts, if the layout has. -/
theorem StructLayout.SealedIn.of_shapeIn (h : decl.Ready nested hashes) {contentHash : String}
    {layout : StructLayout} (made : decl.layOut contentHash nested = .ok layout)
    (hp : layout.Throughout (·.print ∈ texts)) {field : FieldDeclaration} (hf : field ∈ decl.fields)
    {below : StructLayout} (hs : field.shapeIn nested = .aggregate below) :
    nested.lookup field.typeName = some below ∧ below.SealedIn texts := by
  rcases h.field_cases hf with ⟨type, -, hbase, -⟩ | ⟨inner, hl, hinner, -⟩
  · rw [hbase] at hs
    cases hs
  · obtain rfl := FieldShape.aggregate.inj (hinner.symm.trans hs)
    exact ⟨hl, h.inner _ _ hl, throughout_of_shapeIn h.laidOut made hp hf hs⟩

/-- Declarations whose layouts have one hash have one fingerprint. -/
theorem fingerprint_eq_of_contentHash_eq (hc : NoCollision texts)
    (hp : decl.fingerprint hashes ∈ texts) (ho : other.fingerprint otherHashes ∈ texts)
    (h : decl.contentHash hashes = other.contentHash otherHashes) :
    decl.fingerprint hashes = other.fingerprint otherHashes :=
  hc _ hp _ ho (hex_injective h)

/-- **Skeletons.** Sealed layouts with one hash have one skeleton, as far as the digest tells their
fingerprints apart. -/
theorem StructLayout.Sealed.skeleton_eq (hc : NoCollision texts) {a b : StructLayout}
    (ha : a.Sealed) (hta : a.Throughout (·.print ∈ texts)) (hb : b.SealedIn texts)
    (h : a.contentHash = b.contentHash) : a.skeleton = b.skeleton := by
  induction ha generalizing b with
  | @intro decl nested hashes a inner described spelled made ih =>
    obtain ⟨⟨inner', described', spelled', made'⟩, htb⟩ := hb
    rename_i other others otherHashes
    have hready := TypeDeclaration.ready_of_layOut inner described spelled made
    have hready' := TypeDeclaration.ready_of_layOut inner' described' spelled' made'
    have hsame : decl.fingerprint hashes = other.fingerprint otherHashes := by
      rw [contentHash_of_layOut made, contentHash_of_layOut made'] at h
      refine fingerprint_eq_of_contentHash_eq hc ?_ ?_ h
      · rw [← print_of_layOut hready made]
        exact hta.head
      · rw [← print_of_layOut hready' made']
        exact htb.head
    obtain ⟨hkind, hagrees⟩ := agrees_of_fingerprint_eq hready hready' hsame
      fun field hf another hg below outer hs hs' he => by
        obtain ⟨hl, hbelow⟩ := StructLayout.SealedIn.of_shapeIn hready made hta hf hs
        obtain ⟨-, houter⟩ := StructLayout.SealedIn.of_shapeIn hready' made' htb hg hs'
        exact ih _ _ hl hbelow.prints houter he
    obtain ⟨hok, hskeleton⟩ := layOut_of_agrees hready.laidOut hready'.laidOut hready.covers hkind
      hagrees made'
    obtain rfl := Except.ok.inj (made.symm.trans hok)
    exact hskeleton

theorem StructLayout.SealedIn.skeleton_eq (hc : NoCollision texts) {a b : StructLayout}
    (ha : a.SealedIn texts) (hb : b.SealedIn texts) (h : a.contentHash = b.contentHash) :
    a.skeleton = b.skeleton :=
  ha.isSealed.skeleton_eq hc ha.prints hb h

/-- Wherever a sealed layout has the hash of a declaration, the declaration can be laid out, and gets a
layout of the same skeleton. -/
theorem layOut_of_sealed (hc : NoCollision texts) (h : decl.Ready nested hashes)
    (hn : ∀ name below, nested.lookup name = some below → below.SealedIn texts)
    (hp : decl.fingerprint hashes ∈ texts) {layout : StructLayout} (hl : layout.SealedIn texts)
    (he : layout.contentHash = decl.contentHash hashes) :
    ∃ made, decl.layOut (decl.contentHash hashes) nested = .ok made := by
  obtain ⟨⟨inner, described, spelled, made⟩, hprints⟩ := hl
  rename_i other others otherHashes
  have hready := TypeDeclaration.ready_of_layOut inner described spelled made
  have hsame : decl.fingerprint hashes = other.fingerprint otherHashes := by
    rw [contentHash_of_layOut made] at he
    refine fingerprint_eq_of_contentHash_eq hc hp ?_ he.symm
    rw [← print_of_layOut hready made]
    exact hprints.head
  obtain ⟨hkind, hagrees⟩ := agrees_of_fingerprint_eq h hready hsame
    fun field hf another hg below outer hs hs' hhash => by
      obtain ⟨-, houter⟩ := StructLayout.SealedIn.of_shapeIn hready made hprints hg hs'
      refine StructLayout.SealedIn.skeleton_eq hc ?_ houter hhash
      rcases h.field_cases hf with ⟨type, -, hbase, -⟩ | ⟨below', hl, hinner, -⟩
      · rw [hbase] at hs
        cases hs
      · obtain rfl := FieldShape.aggregate.inj (hinner.symm.trans hs)
        exact hn _ _ hl
  exact ⟨_, (layOut_of_agrees h.laidOut hready.laidOut h.covers hkind hagrees made).1⟩

/-- What is made for a declaration on top of sealed layouts is sealed. -/
theorem sealedIn_of_layOut (h : decl.Ready nested hashes)
    (hn : ∀ name below, nested.lookup name = some below → below.SealedIn texts)
    (hp : decl.fingerprint hashes ∈ texts) {layout : StructLayout}
    (made : decl.layOut (decl.contentHash hashes) nested = .ok layout) : layout.SealedIn texts := by
  refine ⟨.intro h.inner h.described h.spelled made, .intro ?_ fun field hm below hs => ?_⟩
  · rw [print_of_layOut h made]
    exact hp
  · obtain ⟨-, rfl, -, -⟩ := eq_exactLayout h.laidOut made
    exact (hn _ below (lookup_of_exactFields hm hs)).prints

/-- **Skeletons.** The skeletons of sealed layouts are known by their hashes. -/
theorem exists_known_skeleton (hc : NoCollision texts) :
    ∃ known : String → StructLayout, ∀ layout : StructLayout, layout.SealedIn texts →
      layout.DeterminedBy StructLayout.skeleton known := by
  have hall : ∀ hash : String, ∃ known : StructLayout, ∀ layout : StructLayout,
      layout.SealedIn texts → layout.contentHash = hash → layout.skeleton = known := by
    intro hash
    by_cases hsome : ∃ first : StructLayout, first.SealedIn texts ∧ first.contentHash = hash
    · obtain ⟨first, hfirst, he⟩ := hsome
      exact ⟨first.skeleton, fun layout hl hlayout => hl.skeleton_eq hc hfirst (hlayout.trans he.symm)⟩
    · exact ⟨⟨"", "", .struct, [], 0, 1⟩, fun layout hl he => absurd ⟨layout, hl, he⟩ hsome⟩
  choose known hknown using hall
  refine ⟨known, fun layout hl => ?_⟩
  refine (hl.isSealed.throughout.and hl.prints.throughout).mono fun below hbelow => ?_
  exact hknown _ below ⟨hbelow.1, hbelow.2⟩ rfl

end UniformLayout
