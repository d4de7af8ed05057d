import UniformLayout.Binding.Pool
import UniformLayout.Binding.TextureUnit
import UniformLayout.Notice
import UniformLayout.Text.Path

/-!
# Settings

Where generated sources go, how the registry names types and where it is kept, how many binding
points and texture units a program has, which files hold shaders, and what is logged. Every setting
has a default.

Main statement: `LogLevel.ofName?_name`.
-/

namespace UniformLayout

/-- Where generated sources go. -/
structure OutputSettings where
  directory : String := "generated"
  extension : String := "rs"
  /-- The path by which generated sources name the run-time types. -/
  runtime : String := "shader_layout"
  deriving DecidableEq, Repr, Inhabited

/-- How the registry names types, and where it is kept between sessions. -/
structure RegistrySettings where
  cacheFile : Option String := none
  /-- Characters of the persistent id that first follow a name that is taken. -/
  suffixLength : Nat := 4
  deriving DecidableEq, Repr, Inhabited

/-- Limits of one program. -/
structure BindingSettings where
  maxBindingPoints : Nat := BindingPool.defaultMax
  maxTextureUnits : Nat := defaultMaxTextureUnits
  deriving DecidableEq, Repr, Inhabited

/-- Which files hold shaders. -/
structure WatchSettings where
  extensions : List String := ["glsl", "vert", "frag", "geom", "comp", "tesc", "tese", "shader"]
  deriving DecidableEq, Repr, Inhabited

/-- What is logged, and where. -/
structure LogSettings where
  level : String := "info"
  toFile : Bool := false
  file : String := "shader_layout.log"
  deriving DecidableEq, Repr, Inhabited

/-- All settings. -/
structure Settings where
  output : OutputSettings := {}
  registry : RegistrySettings := {}
  bindings : BindingSettings := {}
  watch : WatchSettings := {}
  logging : LogSettings := {}
  deriving DecidableEq, Repr, Inhabited

/-! ## Log levels -/

/-- How much is logged. -/
inductive LogLevel where
  | off
  | error
  | warn
  | info
  | debug
  | trace
  deriving DecidableEq, Repr, Inhabited

def LogLevel.name : LogLevel → String
  | off => "off"
  | error => "error"
  | warn => "warn"
  | info => "info"
  | debug => "debug"
  | trace => "trace"

def LogLevel.ofName? : String → Option LogLevel
  | "off" => some off
  | "error" => some error
  | "warn" => some warn
  | "info" => some info
  | "debug" => some debug
  | "trace" => some trace
  | _ => none

theorem LogLevel.ofName?_name (level : LogLevel) : ofName? level.name = some level := by
  cases level <;> rfl

/-- The level that the settings ask for, in upper or lower case. An unknown name is reported and
stands for `info`. -/
def LogSettings.logLevel {ε : Type} (settings : LogSettings) : Logged ε LogLevel := do
  match LogLevel.ofName? settings.level.toLower with
  | some level => return level
  | none =>
    Logged.note (.unknownLevel settings.level)
    return .info

/-! ## Shader files -/

/-- The extension of the path is among the given ones, in upper or lower case. -/
def isShaderPath (path : String) (extensions : List String) : Bool :=
  (Path.extension? path).any fun found =>
    extensions.any fun wanted => wanted.toLower == found.toLower

end UniformLayout
