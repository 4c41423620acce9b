import LabelGraph.Settings.Toml
import LabelGraph.Text.Atom
import LabelGraph.Yaml.Document

/-!
Settings as a YAML document. What a plain scalar means depends on what is expected:
where a number is expected it must spell one, and where a string is expected it is
that string. A plain scalar that is empty is also an empty collection. A tag matters
where a value may be null, and where it can name a severity.
-/

namespace LabelGraph

namespace Yaml

def integerTag : Tag := "tag:yaml.org,2002:int".toUTF8.toList

def nullTag : Tag := "tag:yaml.org,2002:null".toUTF8.toList

/-- Whether a text that is not empty spells null. -/
def spellsNull (text : String) : Bool :=
  text == "~" || text == "null" || text == "Null" || text == "NULL"

def isNull (text : String) : Bool := text == "" || spellsNull text

def digits? (base : Nat) (digits : List Char) : Option Nat :=
  if !digits.isEmpty && digits.all (Digits.isDigitOf base) then Digits.bounded? base 64 digits
  else none

/-- The number of at most 64 significant digits that a text spells, in base ten without
leading zeros or in a base given by a mark. A plus sign may stand in front. -/
def number? (text : List Char) : Option Nat :=
  let unsigned :=
    match text with
    | '+' :: rest => rest
    | text => text
  match unsigned with
  | '0' :: 'x' :: rest => digits? 16 rest
  | '0' :: 'o' :: rest => digits? 8 rest
  | '0' :: 'b' :: rest => digits? 2 rest
  | '0' :: _ :: _ => none
  | digits => digits? 10 digits

/-- A number of 32 bits without a sign, which only a plain scalar can be, or a literal
block with the tag of integers. -/
def word32? : Yaml → Option UInt32
  | scalar tag style text =>
    if style = .plain ∨ (style = .literal ∧ tag = some integerTag) then
      match number? text.toList with
      | some n => if n < 4294967296 then some n.toUInt32 else none
      | none => none
    else none
  | _ => none

/-- A value that may be null, which only a plain scalar can be. With the tag of null it
must be null, and with any other tag it is not. -/
def optional? (read : Yaml → Option α) : Yaml → Option (Option α)
  | scalar none .plain text =>
    if isNull text then some none else (read (scalar none .plain text)).map some
  | scalar (some tag) .plain text =>
    if tag = nullTag then if spellsNull text then some none else none
    else (read (scalar tag .plain text)).map some
  | node => (read node).map some

/-- One of several names. A tag with a mark in front may hold the name, and then
nothing else may be written. -/
def variant? : Yaml → Option String
  | scalar tag style text =>
    match tag with
    | some (0x21 :: bytes) =>
      match utf8Text? bytes with
      | some name =>
        if style = .plain ∧ isNull text then
          some (String.ofList (if name.isEmpty then ['!'] else name))
        else none
      | none => some text
    | _ => some text
  | _ => none

def items? : Yaml → Option (List Yaml)
  | sequence items => some items
  | scalar _ .plain "" => some []
  | _ => none

end Yaml

/-- The values of the fields of a record, in the order of `names`. No field may be
given twice, and every key must be a scalar. -/
def Yaml.Document.fields? (d : Yaml.Document) (names : List String) :
    Option (List (Option Yaml)) :=
  match d.resolve d.root with
  | .mapping members => do
    let members ← members.mapM fun (key, value) =>
      (d.resolve key).text?.map fun name => (name, d.resolve value)
    if names.any fun name => 1 < members.countP (·.1 == name) then none
    else return names.map fun name => members.lookup name
  | .scalar _ .plain "" => some (names.map fun _ => none)
  | _ => none

namespace Settings

/-- Reads a field that may be missing. -/
def field (missing : α) (read : Yaml → Option α) : Option Yaml → Option α
  | none => some missing
  | some value => read value

def ofDocument? (d : Yaml.Document) : Option Settings := do
  let standard : Settings := {}
  match ← d.fields? [keywordsKey, maxDiagnosticsKey, maxBlockDepthKey, unresolvedSeverityKey] with
  | [keywords, limit, depth, severity] =>
    return {
      keywords := ← field standard.keywords
        (fun value => value.items?.bind fun items =>
          items.mapM fun item => (d.resolve item).text?) keywords
      maxDiagnostics := ← field standard.maxDiagnostics (Yaml.optional? Yaml.word32?) limit
      maxBlockDepth := ← field standard.maxBlockDepth Yaml.word32? depth
      unresolvedSeverity := ← field standard.unresolvedSeverity
        (fun value => value.variant?.bind Severity.ofName?) severity }
  | _ => none

/-- Reads settings from a document. A text without a document gives the defaults. -/
def ofYaml? (text : List Char) : Option Settings :=
  match Yaml.parse? text with
  | none => none
  | some none => some {}
  | some (some d) => ofDocument? d

end Settings

end LabelGraph
