/-!
# Source text

Generated text is a list of lines and groups of lines. A group has a head, an indented body and a
foot. `Code.render` indents with four spaces and leaves empty lines empty.

Main statement: `Code.renderAll_append`.
-/

namespace UniformLayout

/-- A piece of generated text. -/
inductive Code where
  | line (text : String)
  | group (head : String) (body : List Code) (foot : String)

namespace Code

def indented (depth : Nat) (text : String) : String :=
  if text.isEmpty then "\n"
  else String.join (List.replicate depth "    ") ++ text ++ "\n"

mutual

def render (depth : Nat) : Code → String
  | .line text => indented depth text
  | .group head body foot => indented depth head ++ renderAll (depth + 1) body ++ indented depth foot

def renderAll (depth : Nat) : List Code → String
  | [] => ""
  | first :: rest => render depth first ++ renderAll depth rest

end

theorem renderAll_append (depth : Nat) (a b : List Code) :
    renderAll depth (a ++ b) = renderAll depth a ++ renderAll depth b := by
  induction a with
  | nil => simp [renderAll]
  | cons first rest ih => simp [renderAll, ih, String.append_assoc]

def blank : Code := .line ""

def lines (texts : List String) : List Code := texts.map .line

def braced (head : String) (body : List Code) : Code := .group (head ++ " \x7b") body "\x7d"

/-- The pieces with an empty line in front of each. -/
def spaced (pieces : List (List Code)) : List Code := pieces.flatMap (blank :: ·)

end Code

end UniformLayout
