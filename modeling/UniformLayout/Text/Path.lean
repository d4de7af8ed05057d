import UniformLayout.Text.Blank

/-!
# File paths as text

Paths use `/`. Empty components and `.` name nothing of their own, so `a//b/.` and `a/b` end in the
same component. Main statement: `extension?_eq_none`.
-/

namespace UniformLayout.Path

/-- The text pieces between slashes, empty ones included. -/
def pieces (path : String) : List (List Char) :=
  Text.splitBy (· == '/') path.toList

def isIdle (piece : List Char) : Bool :=
  piece == [] || piece == ['.']

/-- The last component, unless the path ends at `..` or names no component at all. -/
def fileName? (path : String) : Option (List Char) :=
  ((pieces path).filter (!isIdle ·)).getLast?.filter (· != ['.', '.'])

/-- A name cut at its last dot: the parts before and behind it. A name whose only dot comes first
has no such cut. -/
def splitName (name : List Char) : List Char × Option (List Char) :=
  match name.reverse.dropWhile (· != '.') with
  | '.' :: before@(_ :: _) => (before.reverse, some (name.reverse.takeWhile (· != '.')).reverse)
  | _ => (name, none)

def stem? (path : String) : Option String :=
  (fileName? path).map fun name => String.ofList (splitName name).1

/-- What stands behind the last dot of the last component. -/
def extension? (path : String) : Option String :=
  (fileName? path).bind fun name => (splitName name).2.map String.ofList

/-- `name` inside `directory`; an absolute name stands for itself. -/
def join (directory name : String) : String :=
  if name.startsWith "/" then name
  else if directory.isEmpty || directory.endsWith "/" then directory ++ name
  else directory ++ "/" ++ name

/-- The path up to its last component; nothing for a path that has none. -/
def parent? (path : String) : Option String :=
  let all := pieces path
  let rest := all.reverse.dropWhile isIdle
  match rest with
  | [] => if all.head? = some ['.'] then some "" else none
  | _ :: front =>
    match front.dropWhile isIdle with
    | [] =>
      if front.isEmpty then some ""
      else if all.head? = some [] then some "/"
      else some "."
    | above => some (String.intercalate "/" (above.reverse.map String.ofList))

theorem splitName_snd_eq_none {name : List Char} (h : '.' ∉ name) : (splitName name).2 = none := by
  have drop : ∀ l : List Char, '.' ∉ l → l.dropWhile (· != '.') = [] := by
    intro l hl
    induction l with
    | nil => rfl
    | cons c l ih =>
      simp only [List.mem_cons, not_or] at hl
      simp [Ne.symm hl.1, ih hl.2]
  simp [splitName, drop name.reverse (by simpa using h)]

/-- A last component without a dot has no extension. -/
theorem extension?_eq_none {path : String} {name : List Char} (h : fileName? path = some name)
    (hdot : '.' ∉ name) : extension? path = none := by
  simp [extension?, h, splitName_snd_eq_none hdot]

end UniformLayout.Path
