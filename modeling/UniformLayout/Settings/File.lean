import UniformLayout.Files
import UniformLayout.Settings
import UniformLayout.Toml.Document

/-!
# The settings file

Settings are read from a TOML document with one table for each group. A missing file, table or key
leaves the defaults, and unknown keys are ignored; a value of a wrong type or out of range makes the
whole file unusable.
-/

namespace UniformLayout

namespace OutputSettings

/-- The settings of the table `output`. -/
def ofToml? (value : Toml) : Option OutputSettings := do
  let standard : OutputSettings := {}
  match ← value.fields? ["directory", "extension", "runtime_crate"] with
  | [directory, extension, runtime] =>
    return {
      directory := ← Toml.optional? standard.directory Toml.string? directory
      extension := ← Toml.optional? standard.extension Toml.string? extension
      runtime := ← Toml.optional? standard.runtime Toml.string? runtime }
  | _ => none

end OutputSettings

namespace RegistrySettings

/-- The settings of the table `registry`. -/
def ofToml? (value : Toml) : Option RegistrySettings := do
  let standard : RegistrySettings := {}
  match ← value.fields? ["cache_file", "name_suffix_len"] with
  | [cacheFile, suffixLength] =>
    return {
      cacheFile := ← Toml.optional? none (fun path => some <$> path.string?) cacheFile
      suffixLength := ← Toml.optional? standard.suffixLength (Toml.natural? (1 <<< 64)) suffixLength }
  | _ => none

end RegistrySettings

namespace BindingSettings

/-- The settings of the table `bindings`. -/
def ofToml? (value : Toml) : Option BindingSettings := do
  let standard : BindingSettings := {}
  let limit? := Toml.natural? (1 <<< 32)
  match ← value.fields? ["max_binding_points", "max_texture_units"] with
  | [points, units] =>
    return {
      maxBindingPoints := ← Toml.optional? standard.maxBindingPoints limit? points
      maxTextureUnits := ← Toml.optional? standard.maxTextureUnits limit? units }
  | _ => none

end BindingSettings

namespace WatchSettings

/-- The settings of the table `watch`. -/
def ofToml? (value : Toml) : Option WatchSettings := do
  let standard : WatchSettings := {}
  let strings? (list : Toml) : Option (List String) := do (← list.array?).mapM Toml.string?
  match ← value.fields? ["extensions"] with
  | [extensions] => return { extensions := ← Toml.optional? standard.extensions strings? extensions }
  | _ => none

end WatchSettings

namespace LogSettings

/-- The settings of the table `logging`. -/
def ofToml? (value : Toml) : Option LogSettings := do
  let standard : LogSettings := {}
  match ← value.fields? ["level", "log_to_file", "log_file"] with
  | [level, toFile, file] =>
    return {
      level := ← Toml.optional? standard.level Toml.string? level
      toFile := ← Toml.optional? standard.toFile Toml.boolean? toFile
      file := ← Toml.optional? standard.file Toml.string? file }
  | _ => none

end LogSettings

namespace Settings

def ofToml? (value : Toml) : Option Settings := do
  match ← value.fields? ["output", "registry", "bindings", "watch", "logging"] with
  | [output, registry, bindings, watch, logging] =>
    return {
      output := ← Toml.optional? {} OutputSettings.ofToml? output
      registry := ← Toml.optional? {} RegistrySettings.ofToml? registry
      bindings := ← Toml.optional? {} BindingSettings.ofToml? bindings
      watch := ← Toml.optional? {} WatchSettings.ofToml? watch
      logging := ← Toml.optional? {} LogSettings.ofToml? logging }
  | _ => none

def defaultPath : String := "shader_layout.toml"

/-- The settings that a file holds; the defaults when nothing has its name. -/
def ofFile (path : String) (tree : FileTree) : Except StorageError Settings :=
  if !tree.pathExists path then .ok {}
  else match tree.read? path with
    | none => .error (.readConfig path)
    | some text =>
      match (Toml.ofText? text).bind ofToml? with
      | none => .error (.parseConfig path)
      | some settings => .ok settings

/-- The settings of the usual file. A file that cannot be used is reported and leaves the defaults. -/
def load {ε : Type} (tree : FileTree) : Logged ε Settings := do
  match ofFile defaultPath tree with
  | .ok settings => return settings
  | .error error =>
    Logged.note (.configIgnored defaultPath error)
    return {}

end Settings

end UniformLayout
