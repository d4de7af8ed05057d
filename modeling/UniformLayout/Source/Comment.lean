/-!
# Comments

`stripComments` puts one space in the place of each comment and keeps every line feed, so that what
remains stands on the line where it stood before. Line comments run up to the end of the line; a
block comment that is never closed runs up to the end of the text.

Main statement: `count_newline_stripComments`.
-/

namespace UniformLayout.Source

/-- Where in the text a character stands. Inside a block comment it matters whether the character
before was a star. -/
inductive Region where
  | code
  | lineComment
  | blockComment (afterStar : Bool)
  deriving DecidableEq, Repr

/-- `stripComments` from a given region on. -/
def stripFrom : Region → List Char → List Char
  | .code, '/' :: '/' :: rest => ' ' :: stripFrom .lineComment rest
  | .code, '/' :: '*' :: rest => stripFrom (.blockComment false) rest
  | .code, c :: rest => c :: stripFrom .code rest
  | .code, [] => []
  | .lineComment, c :: rest =>
    if c = '\n' then '\n' :: stripFrom .code rest else stripFrom .lineComment rest
  | .lineComment, [] => []
  | .blockComment afterStar, c :: rest =>
    if c = '\n' then '\n' :: stripFrom (.blockComment false) rest
    else if afterStar ∧ c = '/' then ' ' :: stripFrom .code rest
    else stripFrom (.blockComment (c = '*')) rest
  | .blockComment _, [] => [' ']

/-- The text with a space in the place of each comment. -/
def stripComments (text : List Char) : List Char :=
  stripFrom .code text

theorem count_newline_stripFrom (region : Region) (text : List Char) :
    (stripFrom region text).count '\n' = text.count '\n' := by
  fun_induction stripFrom region text <;> simp_all [List.count_cons]

/-- No line is added or lost. -/
theorem count_newline_stripComments (text : List Char) :
    (stripComments text).count '\n' = text.count '\n' :=
  count_newline_stripFrom .code text

end UniformLayout.Source
