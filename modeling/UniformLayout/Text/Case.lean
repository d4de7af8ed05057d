import UniformLayout.Text.Blank

/-!
# Letter case of identifiers

`snakeCase` and `pascalCase` put a declared name into the case that host identifiers use. Both
change ASCII letters only; declared names that reach them from a source are ASCII.

Main statement: `snakeCase_eq_self`.
-/

namespace UniformLayout.Text

/-- An upper-case letter behind `before` and in front of `after` starts a new word: the one before
is a lower-case letter, or the letter is the last capital of a run. -/
def startsWord (before : Option Char) (c : Char) (after : Option Char) : Bool :=
  c.isUpper && before.any fun p => p.isLower || (p.isUpper && after.any Char.isLower)

/-- `snakeCase` behind the character `before`. -/
def snakeCaseFrom (before : Option Char) : List Char → List Char
  | [] => []
  | c :: rest =>
    let tail := c.toLower :: snakeCaseFrom (some c) rest
    if startsWord before c rest.head? then '_' :: tail else tail

/-- Lower case, with an underscore in front of each word but the first. -/
def snakeCase (name : String) : String :=
  String.ofList (snakeCaseFrom none name.toList)

/-- The runs of ASCII letters and digits, each with its first letter in upper case, joined. -/
def pascalCase (name : String) : String :=
  let capitalise : List Char → List Char
    | [] => []
    | c :: rest => c.toUpper :: rest
  String.ofList ((splitBy (!·.isAlphanum) name.toList).flatMap capitalise)

theorem snakeCaseFrom_eq_self {text : List Char} (h : ∀ c ∈ text, c.isUpper = false)
    (before : Option Char) : snakeCaseFrom before text = text := by
  induction text generalizing before with
  | nil => rfl
  | cons c rest ih =>
    have hc : c.isUpper = false := h c (by simp)
    have hlow : c.toLower = c := by
      have hr : ¬ (c.val ≥ 'A'.val ∧ c.val ≤ 'Z'.val) := by
        intro hr
        have : c.isUpper = true := decide_eq_true hr
        simp [hc] at this
      exact dif_neg hr
    rw [snakeCaseFrom, ih (fun d hd => h d (by simp [hd]))]
    simp [startsWord, hc, hlow]

/-- A name without capitals stays as it is. -/
theorem snakeCase_eq_self {name : String} (h : ∀ c ∈ name.toList, c.isUpper = false) :
    snakeCase name = name := by
  simp [snakeCase, snakeCaseFrom_eq_self h]

end UniformLayout.Text
