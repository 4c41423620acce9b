import LabelGraph.Settings.Yaml
import LabelGraph.Text.Files

/-!
Settings in files. The extension of the file decides how it is read.
-/

namespace LabelGraph

namespace Settings

inductive Format where
  | toml
  | yaml
deriving DecidableEq, Repr

def Format.name : Format → String
  | toml => "TOML"
  | yaml => "YAML"

inductive Failure where
  /-- The text is no document of the format, or does not hold settings. -/
  | malformed (format : Format)
  | unreadable (path : String)
  /-- The file at `path` is malformed. -/
  | invalid (path : String)
  | unwritable (path : String)
deriving DecidableEq, Repr

def Failure.message : Failure → String
  | malformed format => s!"Failed to parse {format.name} config"
  | unreadable path => s!"Failed to read parse config from {path}"
  | invalid path => s!"Invalid parse config in {path}"
  | unwritable path => s!"Failed to write parse config to {path}"

/-- Files named `.yaml` or `.yml` are YAML, and all other files are TOML. -/
def Format.ofPath (path : String) : Format :=
  match Files.extension? path with
  | some "yaml" => .yaml
  | some "yml" => .yaml
  | _ => .toml

def ofText (format : Format) (text : List Char) : Except Failure Settings :=
  let settings? :=
    match format with
    | .toml => ofToml? text
    | .yaml => ofYaml? text
  match settings? with
  | some settings => .ok settings
  | none => .error (.malformed format)

/-- Loads settings from a file, which must be UTF-8. -/
def load (files : Files) (path : String) : Except Failure Settings :=
  match files.text? path with
  | none => .error (.unreadable path)
  | some text =>
    match ofText (.ofPath path) text with
    | .ok settings => .ok settings
    | .error _ => .error (.invalid path)

/-- Saves settings to a file. They are written as TOML, whatever the file is called. -/
def save (files : Files) (path : String) (s : Settings) : Files :=
  files.write path (Utf8.encode s.toToml)

end Settings

end LabelGraph
