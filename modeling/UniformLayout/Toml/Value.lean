import UniformLayout.Toml.Calendar

/-!
# TOML values

The data that a TOML document holds, and ways to take the data of a known form out of it. A record
is a table whose keys are the record's fields; an array that lists the fields' values in order is
accepted in its place, and a date or time counts as a table without any of the fields.
-/

namespace UniformLayout

/-- A value of a TOML document. A floating-point number is kept as it is written. -/
inductive Toml where
  | string (text : String)
  | integer (value : Int)
  | float (text : String)
  | boolean (value : Bool)
  | dateTime (value : Toml.DateTime)
  | array (list : List Toml)
  | table (entries : List (String × Toml))

namespace Toml

def string? : Toml → Option String
  | string text => some text
  | _ => none

def boolean? : Toml → Option Bool
  | boolean value => some value
  | _ => none

/-- An integer from 0 up to, but not including, `bound`. -/
def natural? (bound : Nat) : Toml → Option Nat
  | integer value => if 0 ≤ value ∧ value < bound then some value.toNat else none
  | _ => none

def array? : Toml → Option (List Toml)
  | array list => some list
  | _ => none

/-- The values of a record's fields, as far as they are given. -/
def fields? (names : List String) : Toml → Option (List (Option Toml))
  | table entries => some (names.map fun name => entries.lookup name)
  | array list => some (names.mapIdx fun i _ => list[i]?)
  | dateTime _ => some (names.map fun _ => none)
  | _ => none

def optional? {α : Type} (default : α) (decode : Toml → Option α) : Option Toml → Option α
  | some value => decode value
  | none => some default

end Toml

end UniformLayout
