import UniformLayout.Proofs.Source.Writing
import UniformLayout.Source.Contents

/-!
# Declarations as they are written

The grammar of structs, uniform blocks and free uniforms, with what a writer may choose: idle qualifiers
in front of a type, the order of the entries of a `layout(...)` list, and the suffix of a number. The
`lexemes` of a statement are what is written, and its `declaration?` and `uniforms` what is declared by
it, without the places in a source.

Main statements: `Numeral.integerLiteral?_text` and `Statement.proper`.
-/

namespace UniformLayout

/-! ## Declarations without their places -/

def FieldDeclaration.unplaced (field : FieldDeclaration) : FieldDeclaration :=
  { field with source := {} }

def TypeDeclaration.unplaced (decl : TypeDeclaration) : TypeDeclaration :=
  { decl with fields := decl.fields.map FieldDeclaration.unplaced, source := {} }

def UniformDeclaration.unplaced (uniform : UniformDeclaration) : UniformDeclaration :=
  { uniform with source := {} }

namespace Source.Grammar

/-! ## Names and numbers -/

/-- The words that start something else than a type or a name. -/
def keywords : List String := ["struct", "layout", "uniform"]

/-- An identifier that is neither a keyword nor an idle qualifier. -/
def IsName (text : String) : Prop :=
  IsIdentifier text ∧ text ∉ keywords ++ Cursor.idleQualifiers

instance (text : String) : Decidable (IsName text) :=
  inferInstanceAs (Decidable (_ ∧ _))

abbrev Name := {text : String // IsName text}

theorem Name.ne_of_mem_keywords (name : Name) {text : String} (h : text ∈ keywords) :
    name.val ≠ text := by
  rintro rfl
  exact name.property.2 (List.mem_append_left _ h)

theorem Name.not_idle (name : Name) : name.val ∉ Cursor.idleQualifiers :=
  fun h => name.property.2 (List.mem_append_right _ h)

/-- A qualifier that may stand in front of a type. -/
abbrev Idle := {text : String // text ∈ Cursor.idleQualifiers}

/-- A number of at most 32 bits in decimal digits. -/
structure Numeral where
  value : Nat
  suffix : List Char := []
  fits : Fits value
  unsigned : suffix ∈ [[], ['u'], ['U']]

/-- The length of an array. -/
structure Length extends Numeral where
  positive : 0 < value

namespace Numeral

def text (numeral : Numeral) : String :=
  toString numeral.value ++ String.ofList numeral.suffix

def lexeme (numeral : Numeral) : Lexeme := .number numeral.text

end Numeral

/-! ## Statements -/

/-- A name that is declared, with its array length. -/
structure Declarator where
  name : Name
  length : Option Length := none

/-- A type and the names that are declared with it. -/
structure TypedNames where
  qualifiers : List Idle := []
  typeName : Name
  first : Declarator
  others : List Declarator := []

def TypedNames.declarators (names : TypedNames) : List Declarator :=
  names.first :: names.others

inductive LayoutEntry where
  | packing (asked : Packing)
  | binding (slot : Numeral)
  | location (slot : Numeral)

/-- The names of a block, of which at least one is given. -/
inductive BlockTitle where
  | block (name : Name)
  | both (name instanceName : Name)
  | only (instanceName : Name)

inductive Statement where
  | struct (name : Name) (members : List TypedNames)
  | block (layout : List LayoutEntry) (title : BlockTitle) (members : List TypedNames)
  | free (layout : List LayoutEntry) (names : TypedNames)

/-! ## What is declared -/

/-- The last entry of a kind counts. -/
def layoutOf (entries : List LayoutEntry) : LayoutList where
  packing := (entries.filterMap fun | .packing asked => some asked | _ => none).getLast?
  binding := (entries.filterMap fun | .binding slot => some slot.value | _ => none).getLast?
  location := (entries.filterMap fun | .location slot => some slot.value | _ => none).getLast?

namespace TypedNames

def field (names : TypedNames) (declarator : Declarator) : FieldDeclaration where
  typeName := names.typeName
  name := declarator.name
  arrayLength := declarator.length.map (·.value)

def fields (names : TypedNames) : List FieldDeclaration :=
  names.declarators.map names.field

def uniform (layout : LayoutList) (names : TypedNames) (declarator : Declarator) :
    UniformDeclaration where
  typeName := names.typeName
  name := declarator.name
  arrayLength := declarator.length.map (·.value)
  qualifiers := { binding := layout.binding, location := layout.location }
  attributes := []
  source := {}

def uniforms (layout : LayoutList) (names : TypedNames) : List UniformDeclaration :=
  names.declarators.map (names.uniform layout)

end TypedNames

namespace BlockTitle

def blockName? : BlockTitle → Option Name
  | .block name | .both name _ => some name
  | .only _ => none

def instanceName? : BlockTitle → Option Name
  | .block _ => none
  | .both _ instanceName | .only instanceName => some instanceName

/-- The name that the block goes by. -/
def name : BlockTitle → Name
  | .block name | .both name _ | .only name => name

/-- A block without a name of its own goes by its instance name. -/
theorem or_instanceName? (title : BlockTitle) :
    (title.blockName?.map Subtype.val).or (title.instanceName?.map Subtype.val) =
      some title.name.val := by
  cases title <;> rfl

end BlockTitle

namespace Statement

/-- The struct or the block that the statement declares. A block that asks for no packing is laid out
as std140. -/
def declaration? : Statement → Option TypeDeclaration
  | .struct name members =>
    some { name, kind := .struct, fields := members.flatMap TypedNames.fields }
  | .block layout title members =>
    some
      { name := title.name
        kind := .uniformBlock (layoutOf layout).binding (title.instanceName?.map Subtype.val)
          ((layoutOf layout).packing.getD .std140)
        fields := members.flatMap TypedNames.fields }
  | .free _ _ => none

/-- The free uniforms that the statement declares. -/
def uniforms : Statement → List UniformDeclaration
  | .free layout names => names.uniforms (layoutOf layout)
  | _ => []

/-- A statement declares a struct or a block, or it declares free uniforms. -/
theorem uniforms_of_declaration {written : Statement} {declared : TypeDeclaration}
    (h : written.declaration? = some declared) : written.uniforms = [] := by
  cases written with
  | struct name members => rfl
  | block layout title members => rfl
  | free layout names => cases h

end Statement

/-! ## What is written -/

/-- Parts with commas between them. -/
def listed (parts : List (List Lexeme)) : List Lexeme :=
  [Lexeme.punct ','].intercalate parts

/-- An array length in brackets, where there is one. -/
def lengthLexemes : Option Length → List Lexeme
  | none => []
  | some length => [.punct '[', length.lexeme, .punct ']']

def Declarator.lexemes (declarator : Declarator) : List Lexeme :=
  .word declarator.name :: lengthLexemes declarator.length

def TypedNames.lexemes (names : TypedNames) : List Lexeme :=
  names.qualifiers.map (fun qualifier => .word qualifier) ++
    .word names.typeName :: (listed (names.declarators.map Declarator.lexemes) ++ [.punct ';'])

def LayoutEntry.lexemes : LayoutEntry → List Lexeme
  | .packing asked => [.word asked.name]
  | .binding slot => [.word "binding", .punct '=', slot.lexeme]
  | .location slot => [.word "location", .punct '=', slot.lexeme]

/-- A layout list; without an entry, none is written. -/
def layoutLexemes : List LayoutEntry → List Lexeme
  | [] => []
  | entries =>
    .word "layout" :: .punct '(' :: (listed (entries.map LayoutEntry.lexemes) ++ [.punct ')'])

/-- Members in braces. -/
def membersLexemes (members : List TypedNames) : List Lexeme :=
  .punct '{' :: (members.flatMap TypedNames.lexemes ++ [.punct '}'])

def Statement.lexemes : Statement → List Lexeme
  | .struct name members =>
    .word "struct" :: .word name :: (membersLexemes members ++ [.punct ';'])
  | .block layout title members =>
    layoutLexemes layout ++ .word "uniform" ::
      (title.blockName?.toList.map (fun name => .word name) ++ membersLexemes members ++
        title.instanceName?.toList.map (fun name => .word name) ++ [.punct ';'])
  | .free layout names => layoutLexemes layout ++ .word "uniform" :: names.lexemes

/-! ## Properties -/

theorem digitValue?_of_isDigit {c : Char} (h : c.isDigit) :
    Text.digitValue? 10 c = some (c.toNat - '0'.toNat) := by
  have hlt : c.toNat - '0'.toNat < 10 := by
    unfold Char.isDigit at h
    simp only [Bool.and_eq_true, decide_eq_true_eq, ge_iff_le, UInt32.le_iff_toNat_le] at h
    have hhigh : c.toNat ≤ 57 := h.2
    have hzero : '0'.toNat = 48 := rfl
    omega
  simp only [Text.digitValue?, h, if_true, Option.filter_some, decide_eq_true hlt]

theorem number?_of_digits {digits : List Char} (h : ∀ c ∈ digits, c.isDigit) (high : Nat) :
    Text.number? 10 high digits = some (Nat.ofDigitChars 10 digits high) := by
  induction digits generalizing high with
  | nil => rfl
  | cons c digits ih =>
    obtain ⟨hc, hdigits⟩ := List.forall_mem_cons.1 h
    rw [Text.number?, digitValue?_of_isDigit hc, Option.bind_eq_bind, Option.bind_some, ih hdigits,
      Nat.ofDigitChars_cons, Nat.mul_comm]

theorem unsigned?_natText {n : Nat} (h : Fits n) : Text.unsigned? 10 (toString n).toList = some n := by
  have hdigits : ∀ c ∈ (toString n).toList, c.isDigit := fun _ => Text.isDigit_of_mem_natText
  have hvalue : Text.number? 10 0 (toString n).toList = some n := by
    rw [number?_of_digits hdigits]
    simp
  have hsome : (toString n).toList ≠ [] := by simp
  unfold Text.unsigned?
  split
  · rename_i rest ht
    have := hdigits '+' (ht ▸ List.mem_cons_self)
    exact absurd this (by decide)
  · simp only [List.isEmpty_iff, hsome, if_false, hvalue, Option.bind_some]
    exact checked_eq_some_iff.2 ⟨h, rfl⟩

theorem not_mem_natText {n : Nat} {c : Char} (h : ¬ c.isDigit) : c ∉ (toString n).toList :=
  fun hm => h (Text.isDigit_of_mem_natText hm)

theorem cutEnd?_of_not_mem {mark text : List Char} {c : Char} (hm : c ∈ mark) (h : c ∉ text) :
    Text.cutEnd? mark text = none := by
  rw [Option.eq_none_iff_forall_not_mem]
  intro rest hr
  apply h
  rw [Text.cutEnd?_eq_some_iff.1 hr]
  exact List.mem_append_right _ hm

theorem cutStart?_of_not_mem {mark text : List Char} {c : Char} (hm : c ∈ mark) (h : c ∉ text) :
    Text.cutStart? mark text = none := by
  rw [Option.eq_none_iff_forall_not_mem]
  intro rest hr
  apply h
  rw [Text.cutStart?_eq_some_iff.1 hr]
  exact List.mem_append_left _ hm

namespace Numeral

variable (numeral : Numeral)

theorem toList_text : numeral.text.toList = (toString numeral.value).toList ++ numeral.suffix := by
  rw [text, String.toList_append, String.toList_ofList]

/-- Without its suffix, the number is its digits. -/
theorem cutSuffix_text :
    ((Text.cutEnd? ['u'] numeral.text.toList).or (Text.cutEnd? ['U'] numeral.text.toList)).getD
      numeral.text.toList = (toString numeral.value).toList := by
  have hu : 'u' ∉ (toString numeral.value).toList := not_mem_natText (by decide)
  have hU : 'U' ∉ (toString numeral.value).toList := not_mem_natText (by decide)
  have hs := numeral.unsigned
  simp only [List.mem_cons, List.not_mem_nil, or_false] at hs
  rw [toList_text]
  rcases hs with hs | hs | hs
  · rw [hs, List.append_nil, cutEnd?_of_not_mem List.mem_cons_self hu,
      cutEnd?_of_not_mem List.mem_cons_self hU]
    rfl
  · rw [hs, Text.cutEnd?_eq_some_iff.2 rfl]
    rfl
  · have hother : 'u' ∉ (toString numeral.value).toList ++ ['U'] := by
      rw [List.mem_append, not_or]
      exact ⟨hu, by decide⟩
    rw [hs, cutEnd?_of_not_mem List.mem_cons_self hother, Text.cutEnd?_eq_some_iff.2 rfl]
    rfl

/-- A number is read as its value. -/
theorem integerLiteral?_text : Text.integerLiteral? numeral.text = some numeral.value := by
  have hx : Text.cutStart? ['0', 'x'] (toString numeral.value).toList = none :=
    cutStart?_of_not_mem (c := 'x') (by simp) (not_mem_natText (by decide))
  have hX : Text.cutStart? ['0', 'X'] (toString numeral.value).toList = none :=
    cutStart?_of_not_mem (c := 'X') (by simp) (not_mem_natText (by decide))
  simp only [Text.integerLiteral?, numeral.cutSuffix_text, hx, hX, Option.or_none]
  exact unsigned?_natText numeral.fits

theorem proper : numeral.lexeme.Proper := by
  cases hd : (toString numeral.value).toList with
  | nil => simp at hd
  | cons c digits =>
    have hdigit : ∀ d ∈ c :: digits, d.isDigit := by
      rw [← hd]
      exact fun _ => Text.isDigit_of_mem_natText
    obtain ⟨hc, hdigits⟩ := List.forall_mem_cons.1 hdigit
    refine ⟨c, digits ++ numeral.suffix, ?_, hc, fun d hm => ?_⟩
    · rw [toList_text, hd, List.cons_append]
    · rcases List.mem_append.1 hm with hm | hm
      · exact inNumber_of_isDigit (hdigits d hm)
      · have hs := numeral.unsigned
        simp only [List.mem_cons, List.not_mem_nil, or_false] at hs
        rcases hs with hs | hs | hs
        all_goals
          rw [hs] at hm
          simp at hm
        all_goals
          rw [hm]
          decide

end Numeral

/-! ## Proper lexemes -/

theorem isIdentifier_of_keyword : ∀ text ∈ keywords, IsIdentifier text := by decide

theorem isIdentifier_of_idle : ∀ text ∈ Cursor.idleQualifiers, IsIdentifier text := by decide

theorem isIdentifier_packing (packing : Packing) : IsIdentifier packing.name := by
  cases packing <;> decide

theorem listed_cons (part : List Lexeme) (parts : List (List Lexeme)) :
    listed (part :: parts) = part ++ parts.flatMap (.punct ',' :: ·) := by
  unfold listed
  induction parts generalizing part with
  | nil => simp
  | cons next parts ih => simp [List.intercalate_cons_cons, ih]

theorem proper_listed {parts : List (List Lexeme)}
    (h : ∀ part ∈ parts, ∀ lexeme ∈ part, lexeme.Proper) :
    ∀ lexeme ∈ listed parts, lexeme.Proper := by
  cases parts with
  | nil => simp [listed]
  | cons part parts =>
    obtain ⟨hpart, hparts⟩ := List.forall_mem_cons.1 h
    rw [listed_cons, List.forall_mem_append]
    refine ⟨hpart, fun lexeme hm => ?_⟩
    obtain ⟨next, hn, hm⟩ := List.mem_flatMap.1 hm
    rcases List.mem_cons.1 hm with rfl | hm
    · simp [marks]
    · exact hparts next hn lexeme hm

theorem Declarator.proper (declarator : Declarator) :
    ∀ lexeme ∈ declarator.lexemes, lexeme.Proper := by
  unfold lexemes
  refine List.forall_mem_cons.2 ⟨declarator.name.property.1, ?_⟩
  cases declarator.length with
  | none => simp [lengthLexemes]
  | some length =>
    simp only [lengthLexemes, List.forall_mem_cons]
    exact ⟨by simp [marks], length.proper, by simp [marks]⟩

theorem TypedNames.proper (names : TypedNames) : ∀ lexeme ∈ names.lexemes, lexeme.Proper := by
  unfold lexemes
  simp only [List.forall_mem_append, List.forall_mem_cons, List.forall_mem_map]
  refine ⟨fun qualifier _ => isIdentifier_of_idle _ qualifier.property, names.typeName.property.1,
    proper_listed ?_, by simp [marks]⟩
  rw [List.forall_mem_map]
  exact fun declarator _ => declarator.proper

theorem LayoutEntry.proper (entry : LayoutEntry) : ∀ lexeme ∈ entry.lexemes, lexeme.Proper := by
  cases entry with
  | packing asked => exact List.forall_mem_singleton.2 (isIdentifier_packing asked)
  | binding slot =>
    simp only [lexemes, List.forall_mem_cons]
    exact ⟨Lexeme.proper_word.2 (by decide), by simp [marks], slot.proper, by simp⟩
  | location slot =>
    simp only [lexemes, List.forall_mem_cons]
    exact ⟨Lexeme.proper_word.2 (by decide), by simp [marks], slot.proper, by simp⟩

theorem proper_layoutLexemes (layout : List LayoutEntry) :
    ∀ lexeme ∈ layoutLexemes layout, lexeme.Proper := by
  cases layout with
  | nil => simp [layoutLexemes]
  | cons entry layout =>
    simp only [layoutLexemes, List.forall_mem_cons, List.forall_mem_append]
    refine ⟨isIdentifier_of_keyword _ (by simp [keywords]), by simp [marks],
      proper_listed ?_, by simp [marks]⟩
    rw [List.forall_mem_map]
    exact fun entry _ => entry.proper

theorem proper_membersLexemes (members : List TypedNames) :
    ∀ lexeme ∈ membersLexemes members, lexeme.Proper := by
  simp only [membersLexemes, List.forall_mem_cons, List.forall_mem_append]
  refine ⟨by simp [marks], fun lexeme hm => ?_, by simp [marks]⟩
  obtain ⟨names, -, hm⟩ := List.mem_flatMap.1 hm
  exact names.proper lexeme hm

/-- What is written for a statement can be found in a source. -/
theorem Statement.proper (statement : Statement) :
    ∀ lexeme ∈ statement.lexemes, lexeme.Proper := by
  have huniform : IsIdentifier "uniform" := isIdentifier_of_keyword _ (by simp [keywords])
  cases statement with
  | struct name members =>
    simp only [lexemes, List.forall_mem_cons, List.forall_mem_append]
    exact ⟨isIdentifier_of_keyword _ (by simp [keywords]), name.property.1,
      proper_membersLexemes members, by simp [marks]⟩
  | block layout title members =>
    simp only [lexemes, List.forall_mem_cons, List.forall_mem_append, List.forall_mem_map]
    exact ⟨proper_layoutLexemes layout, huniform, ⟨⟨fun name _ => name.property.1,
      proper_membersLexemes members⟩, fun name _ => name.property.1⟩,
      by simp [marks]⟩
  | free layout names =>
    simp only [lexemes, List.forall_mem_cons, List.forall_mem_append]
    exact ⟨proper_layoutLexemes layout, huniform, names.proper⟩

end Source.Grammar

end UniformLayout
