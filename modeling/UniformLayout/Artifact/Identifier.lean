import UniformLayout.Schema
import UniformLayout.Text.Case
import UniformLayout.Text.Cut
import UniformLayout.Text.Numbered

/-!
# Identifiers of a generated source

Every field gets an identifier that is its own in the generated source, together with the names of
its accessors. The identifier is the field's name in snake case, changed where it would be a keyword,
would start with a digit, would name a method that every wrapper has, or would start with the two
underscores that mark the wrapper's own members; a number tells apart what is taken.

Main statements: `UsedNames.choose_first` and `UsedNames.accepts_choose`.
-/

namespace UniformLayout

def reservedMethods : List String :=
  ["new", "default", "clone", "data", "to_bytes", "locate", "location", "dirty_fields",
    "collect_dirty_fields", "bind_texture_units", "out_of_range", "is_dirty", "set_clean"]

def hostKeywords : List String :=
  ["abstract", "as", "async", "await", "become", "box", "break", "const", "continue", "crate", "do",
    "dyn", "else", "enum", "extern", "false", "final", "fn", "for", "if", "impl", "in", "let", "loop",
    "macro", "match", "mod", "move", "mut", "override", "priv", "pub", "ref", "return", "self", "Self",
    "static", "struct", "super", "trait", "true", "try", "type", "typeof", "unsafe", "unsized", "use",
    "virtual", "where", "while", "yield"]

/-- The name in snake case, with an underscore behind a keyword or a leading digit. -/
def plainIdentifier (name : String) : String :=
  let snake := Text.snakeCase name
  if hostKeywords.contains snake || snake.toList.head?.any Char.isDigit then snake ++ "_" else snake

/-- The identifier that a field would get if it were alone. -/
def identifierStem (name : String) : String :=
  let plain := plainIdentifier name
  let open_ :=
    if (Text.cutStart? ['_', '_'] plain.toList).isSome then
      "field_" ++ String.ofList (plain.toList.dropWhile (· == '_'))
    else plain
  if reservedMethods.contains open_ then open_ ++ "_field" else open_

/-- The names that the fields planned so far use: their identifiers, and the methods of the
wrapper. -/
structure UsedNames where
  identifiers : List String := []
  methods : List String := reservedMethods
  deriving DecidableEq, Repr, Inhabited

namespace UsedNames

/-- The two accessors of a field: a reader, and a writer or a way to change what it holds. -/
def accessors (isAggregate : Bool) (identifier : String) : List String :=
  [identifier, if isAggregate then identifier ++ "_mut" else "set_" ++ identifier]

/-- Neither the identifier nor one of its accessors is used. -/
def accepts (used : UsedNames) (isAggregate : Bool) (identifier : String) : Bool :=
  !used.identifiers.contains identifier &&
    (accessors isAggregate identifier).all (!used.methods.contains ·)

/-- The first identifier for a field that is accepted. Every used name stands in the way of at most
two candidates, so that more are never needed than are tried. -/
def choose (used : UsedNames) (isAggregate : Bool) (name : String) : String :=
  let tries := used.identifiers.length + 2 * used.methods.length + 1
  (Text.firstNumbered? (used.accepts isAggregate) (identifierStem name) "_" tries 0).getD ""

/-- The names used once a field has its identifier. -/
def add (used : UsedNames) (isAggregate : Bool) (identifier : String) : UsedNames where
  identifiers := identifier :: used.identifiers
  methods := accessors isAggregate identifier ++ used.methods

/-! ## The chosen identifier is its own -/

/-- The identifier whose second accessor would have the name of a method. -/
def ownerOf (isAggregate : Bool) (method : String) : String :=
  if isAggregate then String.ofList (method.toList.take (method.toList.length - 4))
  else String.ofList (method.toList.drop 4)

theorem ownerOf_accessor (isAggregate : Bool) (identifier : String) :
    ownerOf isAggregate (if isAggregate then identifier ++ "_mut" else "set_" ++ identifier) =
      identifier := by
  cases isAggregate <;> simp [ownerOf]

/-- The identifiers that are not accepted any more. -/
def refused (used : UsedNames) (isAggregate : Bool) : List String :=
  used.identifiers ++ (used.methods ++ used.methods.map (ownerOf isAggregate))

theorem mem_refused {used : UsedNames} {isAggregate : Bool} {identifier : String}
    (h : used.accepts isAggregate identifier = false) : identifier ∈ used.refused isAggregate := by
  simp only [accepts, accessors, List.all_cons, List.all_nil, Bool.and_true,
    Bool.and_eq_false_iff, Bool.not_eq_false', List.contains_iff_mem] at h
  simp only [refused, List.mem_append, List.mem_map]
  rcases h with h | h | h
  · exact .inl h
  · exact .inr (.inl h)
  · exact .inr (.inr ⟨_, h, ownerOf_accessor isAggregate identifier⟩)

/-- The identifier that is chosen is the first candidate that is accepted. -/
theorem choose_first (used : UsedNames) (isAggregate : Bool) (name : String) :
    ∃ n ≤ used.identifiers.length + 2 * used.methods.length,
      used.choose isAggregate name = Text.numbered (identifierStem name) "_" n ∧
      used.accepts isAggregate (used.choose isAggregate name) = true ∧
      ∀ k < n, used.accepts isAggregate (Text.numbered (identifierStem name) "_" k) = false := by
  have found : (Text.firstNumbered? (used.accepts isAggregate) (identifierStem name) "_"
      (used.identifiers.length + 2 * used.methods.length + 1) 0).isSome :=
    Text.firstNumbered?_isSome (used.refused isAggregate) (fun _ _ h => mem_refused h) (by
      simp only [refused, List.length_append, List.length_map]
      omega)
  obtain ⟨identifier, hf⟩ := Option.isSome_iff_exists.1 found
  have hchosen : used.choose isAggregate name = identifier := by simp [choose, hf]
  obtain ⟨n, hn, hname, haccepted, hbefore⟩ := Text.firstNumbered?_eq_some hf
  simp only [Nat.zero_add] at hname hbefore
  rw [hchosen]
  exact ⟨n, Nat.le_of_lt_succ hn, hname, haccepted, hbefore⟩

/-- The identifier that is chosen is accepted. -/
theorem accepts_choose (used : UsedNames) (isAggregate : Bool) (name : String) :
    used.accepts isAggregate (used.choose isAggregate name) = true := by
  obtain ⟨n, -, -, haccepted, -⟩ := used.choose_first isAggregate name
  exact haccepted

end UsedNames

end UniformLayout
