import LabelGraph.Proofs.Settings.Toml
import LabelGraph.Proofs.Text.Utf8
import LabelGraph.Settings.File

/-!
Settings that were saved to a file are loaded from it as they were, if the file is one that is
read as TOML. They are written as TOML also where they are read as YAML.
-/

namespace LabelGraph

theorem utf8Text?_encode (text : List Char) : utf8Text? (Utf8.encode text) = some text := by
  rw [utf8Text?, Utf8.decode_encode]
  induction text with
  | nil => rfl
  | cons c text ih => simp [ih, Atom.char?]

namespace Settings

variable {files : Files} {path : String} {s : Settings}

theorem text?_save (files : Files) (path : String) (s : Settings) :
    (save files path s).text? path = some s.toToml := by
  rw [Files.text?, save, Files.write, if_pos rfl]
  exact utf8Text?_encode s.toToml

/-- The document that was written decides what is loaded. -/
theorem load_of_ok {u : Settings} (h : ofText (.ofPath path) s.toToml = .ok u) :
    load (save files path s) path = .ok u := by
  simp only [load, text?_save, h]

theorem load_of_error {cause : Failure} (h : ofText (.ofPath path) s.toToml = .error cause) :
    load (save files path s) path = .error (.invalid path) := by
  simp only [load, text?_save, h]

theorem Format.ofPath_toml (hyaml : Files.extension? path ≠ some "yaml")
    (hyml : Files.extension? path ≠ some "yml") : Format.ofPath path = .toml := by
  unfold Format.ofPath
  split
  · next heq => exact absurd heq hyaml
  · next heq => exact absurd heq hyml
  · rfl

/-- Settings with a limit on diagnostics are saved as a TOML document that holds them, to a
file of any name, and are loaded from a file that is not named as YAML. -/
theorem load_save (files : Files) (path : String) (s : Settings)
    (hlimit : s.maxDiagnostics ≠ none) :
    (save files path s).text? path = some s.toToml ∧ ofText .toml s.toToml = .ok s ∧
      (Files.extension? path ≠ some "yaml" → Files.extension? path ≠ some "yml" →
        load (save files path s) path = .ok s) := by
  obtain ⟨limit, hlimit⟩ := Option.ne_none_iff_exists'.1 hlimit
  have htext : ofText .toml s.toToml = .ok s := by
    simp only [ofText, ofToml?_toToml s hlimit]
  refine ⟨text?_save files path s, htext, ?_⟩
  intro hyaml hyml
  exact load_of_ok (by rw [Format.ofPath_toml hyaml hyml, htext])

/-- Keywords with quotes, backslashes, control characters and line ends. -/
theorem load_save_quoted :
    let s : Settings :=
      { keywords := ["mov", "", "it's \"quoted\"", "\\", "a\r\nb\x00'''\"\"\""]
        maxDiagnostics := some 4294967295, unresolvedSeverity := .warning }
    s.maxDiagnostics ≠ none ∧ Files.extension? "conf.yaml/parse" ≠ some "yaml" ∧
      load (save (fun _ => none) "conf.yaml/parse" s) "conf.yaml/parse" = .ok s := by
  intro s
  have hlimit : s.maxDiagnostics ≠ none := nofun
  obtain ⟨-, -, hload⟩ := load_save (fun _ => none) "conf.yaml/parse" s hlimit
  have hyaml : Files.extension? "conf.yaml/parse" ≠ some "yaml" := by decide
  exact ⟨hlimit, hyaml, hload hyaml (by decide)⟩

/-- The standard settings are not loaded from a file that is read as YAML. An absent limit on
diagnostics is not written, and its default is loaded instead. -/
theorem load_save_ne :
    load (save (fun _ => none) "parse.yaml" {}) "parse.yaml" = .error (.invalid "parse.yaml") ∧
      load (save (fun _ => none) "parse.toml" { maxDiagnostics := none }) "parse.toml" =
        .ok { maxDiagnostics := some 100 } := by
  have hyaml : ofYaml? (toToml {}) = none := by decide +kernel
  have htoml : ofToml? (toToml { maxDiagnostics := none }) =
      some { maxDiagnostics := some 100 } := by decide +kernel
  have hformat : Format.ofPath "parse.yaml" = .yaml ∧ Format.ofPath "parse.toml" = .toml := by
    decide
  constructor
  · exact load_of_error (by simp only [hformat.1, ofText, hyaml]; rfl)
  · exact load_of_ok (by simp only [hformat.2, ofText, htoml])

end Settings

end LabelGraph
