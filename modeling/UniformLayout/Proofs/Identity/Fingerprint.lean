import UniformLayout.Identity
import UniformLayout.Source.Token
import UniformLayout.Text.Numbered

/-!
# Reading a fingerprint back

The fingerprint of a declaration whose fields have words for names can be taken apart again: lines
end at line breaks, the type of a field ends at a blank, and what follows its name starts with a
bracket or an at sign.

* `hex_injective`: bytes are told apart by their digits.
* `line_inj`: a field's line determines the field's key.
* `fingerprint_eq_iff`: a fingerprint determines the kind's tag and the keys of the fields.
* `length_of_baseType`: the name of a base type is shorter than a content hash.
-/

namespace UniformLayout

/-! ## Separators -/

/-- A list is cut at the first separator in one way only. -/
theorem append_cons_inj {α : Type} {c : α} {a a' b b' : List α} (ha : c ∉ a) (ha' : c ∉ a')
    (h : a ++ c :: b = a' ++ c :: b') : a = a' ∧ b = b' := by
  induction a generalizing a' with
  | nil =>
    cases a' with
    | nil => exact ⟨rfl, (List.cons.inj h).2⟩
    | cons x rest =>
      have he : c = x := (List.cons.inj h).1
      exact absurd (he ▸ List.mem_cons_self) ha'
  | cons x rest ih =>
    cases a' with
    | nil =>
      have he : x = c := (List.cons.inj h).1
      exact absurd (he ▸ List.mem_cons_self) ha
    | cons y others =>
      obtain ⟨rfl, htail⟩ := List.cons.inj h
      obtain ⟨rfl, rfl⟩ := ih (fun hm => ha (List.mem_cons_of_mem _ hm))
        (fun hm => ha' (List.mem_cons_of_mem _ hm)) htail
      exact ⟨rfl, rfl⟩

/-- A first line and further ones behind line breaks. -/
def joinLines (first : List Char) (lines : List (List Char)) : List Char :=
  first ++ lines.flatMap fun line => '\n' :: line

theorem joinLines_inj {first first' : List Char} {lines lines' : List (List Char)}
    (hf : '\n' ∉ first) (hf' : '\n' ∉ first') (hl : ∀ line ∈ lines, '\n' ∉ line)
    (hl' : ∀ line ∈ lines', '\n' ∉ line) (h : joinLines first lines = joinLines first' lines') :
    first = first' ∧ lines = lines' := by
  induction lines generalizing first first' lines' with
  | nil =>
    cases lines' with
    | nil => exact ⟨by simpa [joinLines] using h, rfl⟩
    | cons line' rest' =>
      have hm : '\n' ∈ first := by
        have : first = first' ++ '\n' :: (line' ++ rest'.flatMap fun line => '\n' :: line) := by
          simpa [joinLines] using h
        rw [this]
        exact List.mem_append_right _ List.mem_cons_self
      exact absurd hm hf
  | cons line rest ih =>
    cases lines' with
    | nil =>
      have hm : '\n' ∈ first' := by
        have : first ++ '\n' :: (line ++ rest.flatMap fun line => '\n' :: line) = first' := by
          simpa [joinLines] using h
        rw [← this]
        exact List.mem_append_right _ List.mem_cons_self
      exact absurd hm hf'
    | cons line' rest' =>
      have hcut : first ++ '\n' :: joinLines line rest =
          first' ++ '\n' :: joinLines line' rest' := by
        simpa [joinLines] using h
      obtain ⟨rfl, hrest⟩ := append_cons_inj hf hf' hcut
      obtain ⟨rfl, rfl⟩ := ih (hl line List.mem_cons_self) (hl' line' List.mem_cons_self)
        (fun l hm => hl l (List.mem_cons_of_mem _ hm))
        (fun l hm => hl' l (List.mem_cons_of_mem _ hm)) hrest
      exact ⟨rfl, rfl⟩

/-! ## Hexadecimal digits -/

theorem hexDigit_injective : ∀ v < 16, ∀ w < 16, Text.hexDigit v = Text.hexDigit w → v = w := by
  decide

theorem hexDigit_plain : ∀ v < 16, Text.hexDigit v ≠ ' ' ∧ Text.hexDigit v ≠ '\n' := by
  decide

theorem toList_hex (bytes : List UInt8) : (Text.hex bytes).toList =
    bytes.flatMap fun b => [Text.hexDigit (b.toNat / 16), Text.hexDigit (b.toNat % 16)] := by
  unfold Text.hex
  rw [String.toList_ofList]

/-- Bytes are told apart by their digits. -/
theorem hex_injective {bytes others : List UInt8} (h : Text.hex bytes = Text.hex others) :
    bytes = others := by
  have hlist := congrArg String.toList h
  rw [toList_hex, toList_hex] at hlist
  clear h
  induction bytes generalizing others with
  | nil =>
    cases others with
    | nil => rfl
    | cons c rest => cases hlist
  | cons b rest ih =>
    cases others with
    | nil => cases hlist
    | cons c rest' =>
      rw [List.flatMap_cons, List.flatMap_cons] at hlist
      obtain ⟨hhigh, htail⟩ := List.cons.inj hlist
      obtain ⟨hlow, htail⟩ := List.cons.inj htail
      have hb := b.toNat_lt
      have hc := c.toNat_lt
      have h₁ := hexDigit_injective _ (by omega) _ (by omega) hhigh
      have h₂ := hexDigit_injective _ (by omega) _ (by omega) hlow
      have hbc : b = c := by
        apply UInt8.toNat_inj.1
        omega
      rw [hbc, ih htail]

theorem length_contentHash (decl : TypeDeclaration) (nested : HashTable) :
    (decl.contentHash nested).length = 40 := by
  have hdigits : ∀ bytes : List UInt8, (Text.hex bytes).length = 2 * bytes.length := by
    intro bytes
    rw [← String.length_toList, toList_hex]
    induction bytes with
    | nil => rfl
    | cons b rest ih =>
      rw [List.flatMap_cons, List.length_append, ih]
      show 2 + 2 * rest.length = 2 * (rest.length + 1)
      omega
  unfold TypeDeclaration.contentHash
  rw [hdigits, Sha1.length_sha1]

/-- A content hash has neither blanks nor line breaks. -/
theorem contentHash_plain (decl : TypeDeclaration) (nested : HashTable) :
    ∀ c ∈ (decl.contentHash nested).toList, c ≠ ' ' ∧ c ≠ '\n' := by
  intro c hm
  unfold TypeDeclaration.contentHash at hm
  rw [toList_hex] at hm
  obtain ⟨b, -, hc⟩ := List.mem_flatMap.1 hm
  have hb := b.toNat_lt
  rcases List.mem_cons.1 hc with rfl | hc
  · exact hexDigit_plain _ (by omega)
  · rw [List.mem_singleton.1 hc]
    exact hexDigit_plain _ (by omega)

/-! ## Names of base types -/

theorem length_of_dimension {name : List Char} {n : Nat} (h : BaseType.dimension? name = some n) :
    name.length = 1 := by
  unfold BaseType.dimension? at h
  split at h
  · rfl
  · rfl
  · rfl
  · cases h

theorem length_of_vector {name : List Char} {type : BaseType}
    (h : BaseType.vectorOfName? name = some type) : name.length ≤ 5 := by
  unfold BaseType.vectorOfName? at h
  split at h
  rename_i kind rest hpair
  have hrest : rest.length = 4 := by
    split at h
    · rename_i lanes _
      obtain ⟨n, hn, -⟩ := Option.map_eq_some_iff.1 h
      have := length_of_dimension hn
      simp [this]
    · cases h
  split at hpair
  all_goals
    obtain ⟨-, rfl⟩ := Prod.mk.inj hpair
    first
    | rw [List.length_cons]; omega
    | omega

theorem length_of_matrix {name : List Char} {type : BaseType}
    (h : BaseType.matrixOfName? name = some type) : name.length ≤ 7 := by
  unfold BaseType.matrixOfName? at h
  split at h
  rename_i kind rest hpair
  have hrest : rest.length ≤ 6 := by
    split at h
    · exact Nat.le_refl 6
    · rename_i side _ _
      obtain ⟨n, hn, -⟩ := Option.map_eq_some_iff.1 h
      have := length_of_dimension hn
      simp [this]
    · cases h
  split at hpair
  all_goals
    obtain ⟨-, rfl⟩ := Prod.mk.inj hpair
    first
    | rw [List.length_cons]; omega
    | omega

theorem length_of_target {text : List Char} {target : TextureTarget}
    (h : TextureTarget.ofSuffix? text = some target) : text.length ≤ 9 := by
  have he : target.suffix.toList = text := by simpa using List.find?_some h
  rw [← he]
  cases target <;> decide

theorem length_of_plainHandle {name : List Char} {kind : HandleKind}
    (h : HandleKind.ofPlainName? name = some kind) : name.length ≤ 22 := by
  unfold HandleKind.ofPlainName? at h
  split at h
  · rename_i suffix hs
    rw [Text.cutStart?_eq_some_iff] at hs
    obtain ⟨target, ht, -⟩ := Option.map_eq_some_iff.1 h
    have hplain := length_of_target ht
    have hsuffix : suffix.length ≤
        ((Text.cutEnd? "Shadow".toList suffix).getD suffix).length + 6 := by
      cases hc : Text.cutEnd? "Shadow".toList suffix with
      | none => exact Nat.le_add_right _ _
      | some plain =>
        rw [Text.cutEnd?_eq_some_iff] at hc
        rw [hc, Option.getD_some, List.length_append]
        exact Nat.le_refl _
    rw [hs, List.length_append]
    show 7 + suffix.length ≤ 22
    omega
  · obtain ⟨suffix, hs, h⟩ := Option.bind_eq_some_iff.1 h
    rw [Text.cutStart?_eq_some_iff] at hs
    obtain ⟨target, ht, -⟩ := Option.map_eq_some_iff.1 h
    have := length_of_target ht
    rw [hs, List.length_append]
    show 5 + suffix.length ≤ 22
    omega

theorem length_of_handle {name : List Char} {kind : HandleKind}
    (h : HandleKind.ofName? name = some kind) : name.length ≤ 23 := by
  unfold HandleKind.ofName? at h
  split at h
  · rename_i he
    rw [he]
    decide
  · split at h
    · rename_i plain hp
      have := length_of_plainHandle hp
      omega
    · have := length_of_plainHandle h
      rw [List.length_cons]
      omega
    · have := length_of_plainHandle h
      rw [List.length_cons]
      omega
    · cases h

theorem length_of_scalar {name : String} {kind : ScalarKind}
    (h : ScalarKind.ofName? name = some kind) : name.toList.length ≤ 6 := by
  have he : kind.name = name := by simpa using List.find?_some h
  rw [← he]
  cases kind <;> decide

/-- The name of a base type is shorter than a content hash. -/
theorem length_of_baseType {name : String} (h : (BaseType.ofName? name).isSome) :
    name.length < 40 := by
  obtain ⟨type, h⟩ := Option.isSome_iff_exists.1 h
  rw [← String.length_toList]
  unfold BaseType.ofName? at h
  dsimp only at h
  rcases Option.or_eq_some_iff.1 h with h | ⟨-, h⟩
  · obtain ⟨kind, hk, -⟩ := Option.map_eq_some_iff.1 h
    have := length_of_scalar hk
    omega
  · rcases Option.or_eq_some_iff.1 h with h | ⟨-, h⟩
    · have := length_of_vector h
      omega
    · rcases Option.or_eq_some_iff.1 h with h | ⟨-, h⟩
      · have := length_of_matrix h
        omega
      · obtain ⟨kind, hk, -⟩ := Option.map_eq_some_iff.1 h
        have := length_of_handle hk
        omega

/-! ## Lines -/

/-- A name as sources write it. -/
def IsIdentifier (text : String) : Prop :=
  ∃ c rest, text.toList = c :: rest ∧ Source.startsWord c ∧ ∀ d ∈ rest, Source.inWord d

instance (text : String) : Decidable (IsIdentifier text) :=
  decidable_of_iff
    (text.toList.head?.any Source.startsWord ∧ text.toList.tail.all Source.inWord)
    (by
      unfold IsIdentifier
      cases text.toList with
      | nil => simp
      | cons c rest =>
        rw [List.head?_cons, Option.any_some, List.tail_cons, List.all_eq_true]
        constructor
        · rintro ⟨hc, hrest⟩
          exact ⟨c, rest, rfl, hc, hrest⟩
        · rintro ⟨d, others, he, hc, hrest⟩
          obtain ⟨rfl, rfl⟩ := List.cons.inj he
          exact ⟨hc, hrest⟩)

theorem inWord_of_startsWord {c : Char} (h : Source.startsWord c) : Source.inWord c := by
  unfold Source.startsWord at h
  unfold Source.inWord Char.isAlphanum
  rw [Bool.or_eq_true] at h ⊢
  exact h.imp_left fun ha => Bool.or_eq_true_iff.2 (Or.inl ha)

theorem IsIdentifier.inWord {text : String} (h : IsIdentifier text) :
    ∀ c ∈ text.toList, Source.inWord c := by
  obtain ⟨c, rest, ht, hc, hrest⟩ := h
  rw [ht]
  exact List.forall_mem_cons.2 ⟨inWord_of_startsWord hc, hrest⟩

theorem inWord_ne {c : Char} (h : Source.inWord c) :
    c ≠ ' ' ∧ c ≠ '
' ∧ c ≠ '[' ∧ c ≠ '@' := by
  refine ⟨?_, ?_, ?_, ?_⟩
  all_goals
    rintro rfl
    exact absurd h (by decide)

/-- What a fingerprint says of a field: its type, or the hash of its type, and the rest of it. -/
structure FieldKey where
  type : String
  name : String
  arrayLength : Option Nat
  binding : Option Nat
  deriving DecidableEq

/-- What the fingerprint says of the field. -/
def FieldDeclaration.key (field : FieldDeclaration) (nested : HashTable) : FieldKey where
  type := (nested.lookup field.typeName).getD field.typeName
  name := field.name
  arrayLength := field.arrayLength
  binding := field.qualifiers.binding

/-- The key's line can be read back. -/
structure FieldKey.Plain (key : FieldKey) : Prop where
  type : ∀ c ∈ key.type.toList, c ≠ ' ' ∧ c ≠ '\n'
  name : ∀ c ∈ key.name.toList, Source.inWord c

/-- What stands behind the name. -/
def FieldKey.suffix (key : FieldKey) : List Char :=
  (key.arrayLength.elim [] fun length => '[' :: ((toString length).toList ++ [']'])) ++
    key.binding.elim [] fun binding => '@' :: (toString binding).toList

/-- The key's line behind its line break. -/
def FieldKey.line (key : FieldKey) : List Char :=
  key.type.toList ++ ' ' :: (key.name.toList ++ key.suffix)

theorem toList_fieldPrint (nested : HashTable) (field : FieldDeclaration) :
    (TypeDeclaration.fieldPrint nested field).toList = '\n' :: (field.key nested).line := by
  have htext : ∀ text : String, toString text = text := fun _ => rfl
  unfold TypeDeclaration.fieldPrint FieldKey.line FieldKey.suffix FieldDeclaration.key
  cases field.arrayLength with
  | none =>
    cases field.qualifiers.binding with
    | none => simp
    | some binding => simp [htext]
  | some length =>
    cases field.qualifiers.binding with
    | none => simp [htext]
    | some binding => simp [htext]

theorem toList_fingerprint (decl : TypeDeclaration) (nested : HashTable) :
    (decl.fingerprint nested).toList =
      joinLines decl.kind.tag.toList (decl.fields.map fun field => (field.key nested).line) := by
  have hjoin : ∀ fields : List FieldDeclaration,
      (String.join (fields.map (TypeDeclaration.fieldPrint nested))).toList =
        (fields.map fun field => (field.key nested).line).flatMap fun line => '\n' :: line := by
    intro fields
    induction fields with
    | nil => rfl
    | cons field rest ih =>
      rw [List.map_cons, String.join_cons, String.toList_append, ih, toList_fieldPrint]
      rfl
  unfold TypeDeclaration.fingerprint joinLines
  rw [String.join_cons, String.toList_append, hjoin]

/-- The mark behind the name says what comes next. -/
theorem head?_suffix (key : FieldKey) : key.suffix.head? =
    (key.arrayLength.map fun _ => '[').or (key.binding.map fun _ => '@') := by
  unfold FieldKey.suffix
  cases key.arrayLength with
  | some length => rfl
  | none => cases key.binding <;> rfl

/-- What stands behind the name cannot be taken for a part of it. -/
theorem suffix_head (key : FieldKey) : ∀ c ∈ key.suffix.head?, ¬ Source.inWord c := by
  intro c hm
  rw [head?_suffix, Option.mem_def, Option.or_eq_some_iff, Option.map_eq_some_iff,
    Option.map_eq_some_iff] at hm
  rcases hm with ⟨_, -, rfl⟩ | ⟨-, _, -, rfl⟩ <;> decide

theorem binding_inj {binding other : Option Nat}
    (h : (binding.elim [] fun place => '@' :: (toString place).toList) =
      (other.elim [] fun place => '@' :: (toString place).toList)) : binding = other := by
  cases binding with
  | none =>
    cases other with
    | none => rfl
    | some m => cases h
  | some n =>
    cases other with
    | none => cases h
    | some m => rw [Text.natText_injective (String.toList_inj.1 (List.cons.inj h).2)]

theorem suffix_inj {key other : FieldKey} (h : key.suffix = other.suffix) :
    key.arrayLength = other.arrayLength ∧ key.binding = other.binding := by
  have hclose : ∀ n : Nat, ']' ∉ (toString n).toList := by
    intro n hm
    exact absurd (Text.isDigit_of_mem_natText hm) (by decide)
  have hhead := congrArg List.head? h
  rw [head?_suffix, head?_suffix] at hhead
  unfold FieldKey.suffix at h
  cases hn : key.arrayLength with
  | none =>
    have hm : other.arrayLength = none := by
      cases hm : other.arrayLength with
      | none => rfl
      | some m =>
        rw [hn, hm] at hhead
        cases hb : key.binding <;> simp [hb] at hhead
    rw [hn, hm] at h
    exact ⟨hm.symm, binding_inj h⟩
  | some n =>
    obtain ⟨m, hm⟩ : ∃ m, other.arrayLength = some m := by
      cases hm : other.arrayLength with
      | some m => exact ⟨m, rfl⟩
      | none =>
        rw [hn, hm] at hhead
        cases hb : other.binding <;> simp [hb] at hhead
    rw [hn, hm] at h
    simp only [Option.elim_some, List.cons_append, List.append_assoc, List.nil_append] at h
    obtain ⟨hdigits, hrest⟩ := append_cons_inj (hclose n) (hclose m) (List.cons.inj h).2
    rw [hm, Text.natText_injective (String.toList_inj.1 hdigits)]
    exact ⟨rfl, binding_inj hrest⟩

/-- A line determines its key. -/
theorem line_inj {key other : FieldKey} (hk : key.Plain) (ho : other.Plain)
    (h : key.line = other.line) : key = other := by
  unfold FieldKey.line at h
  obtain ⟨htype, hrest⟩ := append_cons_inj (fun hm => (hk.type _ hm).1 rfl)
    (fun hm => (ho.type _ hm).1 rfl) h
  have hsplit : key.name.toList = other.name.toList ∧ key.suffix = other.suffix := by
    have htake : ∀ {key : FieldKey}, key.Plain →
        (key.name.toList ++ key.suffix).takeWhile Source.inWord = key.name.toList := by
      intro key hplain
      rw [List.takeWhile_append_of_pos hplain.name]
      have hstop : key.suffix.takeWhile Source.inWord = [] := by
        have hhead := suffix_head key
        cases hs : key.suffix with
        | nil => rfl
        | cons c rest =>
          rw [hs] at hhead
          exact List.takeWhile_cons_of_neg (hhead c rfl)
      rw [hstop, List.append_nil]
    have hname : key.name.toList = other.name.toList := by
      rw [← htake hk, hrest, htake ho]
    rw [hname] at hrest
    exact ⟨hname, List.append_cancel_left hrest⟩
  obtain ⟨hlength, hbinding⟩ := suffix_inj hsplit.2
  cases key
  cases other
  simp_all [String.toList_inj]

theorem line_plain {key : FieldKey} (h : key.Plain) : '\n' ∉ key.line := by
  intro hm
  unfold FieldKey.line at hm
  rcases List.mem_append.1 hm with hm | hm
  · exact (h.type _ hm).2 rfl
  · rcases List.mem_cons.1 hm with he | hm
    · exact absurd he (by decide)
    · rcases List.mem_append.1 hm with hm | hm
      · exact (inWord_ne (h.name _ hm)).2.1 rfl
      · unfold FieldKey.suffix at hm
        have hdigits : ∀ n : Nat, '\n' ∉ Nat.toDigits 10 n := by
          intro n hn
          exact absurd (Nat.isDigit_of_mem_toDigits (by decide) (by decide) hn) (by decide)
        rcases List.mem_append.1 hm with hm | hm
        · cases hl : key.arrayLength with
          | none =>
            rw [hl] at hm
            cases hm
          | some n =>
            rw [hl] at hm
            simp [hdigits n] at hm
        · cases hb : key.binding with
          | none =>
            rw [hb] at hm
            cases hm
          | some n =>
            rw [hb] at hm
            simp [hdigits n] at hm

theorem tag_plain (kind : DeclarationKind) : '\n' ∉ kind.tag.toList := by
  cases kind with
  | struct => decide
  | uniformBlock slot name packing =>
    have hnone : ∀ packing : Packing,
        '\n' ∉ (DeclarationKind.uniformBlock none none packing).tag.toList := by
      intro packing
      cases packing <;> decide
    exact hnone packing
  | uniformSet => decide

theorem map_line_inj {keys others : List FieldKey} (hk : ∀ key ∈ keys, key.Plain)
    (ho : ∀ key ∈ others, key.Plain) (h : keys.map FieldKey.line = others.map FieldKey.line) :
    keys = others := by
  induction keys generalizing others with
  | nil => exact (List.map_eq_nil_iff.1 h.symm).symm
  | cons key rest ih =>
    cases others with
    | nil => cases h
    | cons other rest' =>
      obtain ⟨hline, hrest⟩ := List.cons.inj h
      rw [line_inj (hk key List.mem_cons_self) (ho other List.mem_cons_self) hline,
        ih (fun k hm => hk k (List.mem_cons_of_mem _ hm))
          (fun k hm => ho k (List.mem_cons_of_mem _ hm)) hrest]

/-- A fingerprint determines the kind's tag and what it says of each field, and nothing else enters
it. -/
theorem fingerprint_eq_iff {a b : TypeDeclaration} {nested other : HashTable}
    (ha : ∀ field ∈ a.fields, (field.key nested).Plain)
    (hb : ∀ field ∈ b.fields, (field.key other).Plain) :
    a.fingerprint nested = b.fingerprint other ↔
      a.kind.tag = b.kind.tag ∧
        a.fields.map (·.key nested) = b.fields.map (·.key other) := by
  rw [← String.toList_inj, toList_fingerprint, toList_fingerprint]
  have hmap : ∀ (fields : List FieldDeclaration) (table : HashTable),
      (fields.map fun field => (field.key table).line) =
        (fields.map (·.key table)).map FieldKey.line := by
    intro fields table
    rw [List.map_map]
    rfl
  constructor
  · intro h
    have hlines : ∀ {decl : TypeDeclaration} {table : HashTable},
        (∀ field ∈ decl.fields, (field.key table).Plain) →
        ∀ line ∈ decl.fields.map fun field => (field.key table).line, '\n' ∉ line := by
      intro decl table hplain line hm
      obtain ⟨field, hf, rfl⟩ := List.mem_map.1 hm
      exact line_plain (hplain field hf)
    obtain ⟨htag, hrest⟩ :=
      joinLines_inj (tag_plain a.kind) (tag_plain b.kind) (hlines ha) (hlines hb) h
    rw [hmap, hmap] at hrest
    exact ⟨String.toList_inj.1 htag,
      map_line_inj (List.forall_mem_map.2 ha) (List.forall_mem_map.2 hb) hrest⟩
  · rintro ⟨htag, hkeys⟩
    rw [htag, hmap, hmap, hkeys]

end UniformLayout
