import LabelGraph.Settings.Basic
import LabelGraph.Toml.Document

/-!
Settings as a TOML document. Every setting is a member of the document's table.
Members with other names do not matter.
-/

namespace LabelGraph

namespace Toml

def string? : Toml → Option String
  | string s => some s
  | _ => none

/-- A number of 32 bits without a sign. -/
def word32? : Toml → Option UInt32
  | integer n => if 0 ≤ n ∧ n < 4294967296 then some n.toNat.toUInt32 else none
  | _ => none

/-- The name of a case: a string, or the only member of a table, with nothing in it. -/
def case? : Toml → Option String
  | string s => some s
  | table _ members =>
    match members.toList with
    | [(name, content)] => if content.isEmptyCollection then some name else none
    | _ => none
  | _ => none

def Table.get (t : Table) (name : String) (missing : α) (read : Toml → Option α) : Option α :=
  match t[name]? with
  | none => some missing
  | some value => read value

end Toml

namespace Settings

def keywordsKey : String := "keywords"

def maxDiagnosticsKey : String := "max_diagnostics"

def maxBlockDepthKey : String := "max_block_depth"

def unresolvedSeverityKey : String := "unresolved_reference_severity"

def keywordsOfToml? : Toml → Option (List String)
  | .array items => items.mapM Toml.string?
  | _ => none

def ofTable? (t : Toml.Table) : Option Settings := do
  let standard : Settings := {}
  return {
    keywords := ← t.get keywordsKey standard.keywords keywordsOfToml?
    maxDiagnostics := ← t.get maxDiagnosticsKey standard.maxDiagnostics
      fun value => value.word32?.map some
    maxBlockDepth := ← t.get maxBlockDepthKey standard.maxBlockDepth Toml.word32?
    unresolvedSeverity := ← t.get unresolvedSeverityKey standard.unresolvedSeverity
      fun value => value.case?.bind Severity.ofName? }

def ofToml? (text : List Char) : Option Settings :=
  (Toml.parse? text).bind ofTable?

/-! Writing. -/

/-- The line of an item in an array of several lines. -/
def writeItem (s : String) : List Char :=
  ' ' :: ' ' :: ' ' :: ' ' :: (Toml.quoted s ++ [',', '\n'])

/-- An array of strings. From two strings on, each has a line of its own. -/
def writeStrings : List String → List Char
  | [] => ['[', ']']
  | [s] => '[' :: (Toml.quoted s ++ [']'])
  | items => '[' :: '\n' :: (items.flatMap writeItem ++ [']'])

def writeNumber (n : UInt32) : List Char := (toString n).toList

/-- The line of one setting. -/
def writeMember (key : String) (value : List Char) : List Char :=
  key.toList ++ ' ' :: '=' :: ' ' :: (value ++ ['\n'])

/-- The settings as the lines of a document. An absent limit on diagnostics has no
line, because there is no value for it. -/
def toToml (s : Settings) : List Char :=
  writeMember keywordsKey (writeStrings s.keywords) ++
    (match s.maxDiagnostics with
      | some limit => writeMember maxDiagnosticsKey (writeNumber limit)
      | none => []) ++
    writeMember maxBlockDepthKey (writeNumber s.maxBlockDepth) ++
    writeMember unresolvedSeverityKey (Toml.quoted s.unresolvedSeverity.name)

end Settings

end LabelGraph
