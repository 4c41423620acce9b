import LabelGraph.Text.Position

/-!
What is reported about a source text.
-/

namespace LabelGraph

/-- How grave a diagnostic is, gravest first. -/
inductive Severity where
  | error
  | warning
  | info
  | hint
deriving DecidableEq, Repr, Ord, Inhabited

namespace Severity

def all : List Severity := [error, warning, info, hint]

def name : Severity → String
  | error => "error"
  | warning => "warning"
  | info => "info"
  | hint => "hint"

instance : ToString Severity := ⟨name⟩

def ofName? (s : String) : Option Severity := all.find? (·.name == s)

end Severity

/-- Extra context of a diagnostic: the text found, what was expected instead, and
a note. -/
structure Details where
  found : Option String := none
  expected : Option String := none
  info : Option String := none
deriving DecidableEq, Repr, Inhabited

structure Diagnostic where
  severity : Severity
  code : String
  message : String
  span : Span
  details : Details := {}
deriving DecidableEq, Repr, Inhabited

namespace Diagnostic

def isError (d : Diagnostic) : Bool := d.severity = .error

/-- The message and what was expected. -/
def headline (d : Diagnostic) : String :=
  let line := s!"{d.span.start}: {d.severity}[{d.code}]: {d.message}"
  match d.details.expected with
  | some expected => line ++ s!" (expected {expected})"
  | none => line

/-- The diagnostic as it is shown to people, with its note on a line of its own. -/
def text (d : Diagnostic) : String :=
  match d.details.info with
  | some info => d.headline ++ s!"\n  note: {info}"
  | none => d.headline

instance : ToString Diagnostic := ⟨text⟩

end Diagnostic

/-! The codes of the diagnostics that reading a text can give. -/

namespace Code

/-- A byte outside UTF-8, or a character that starts no token. -/
def lexical : String := "AW001"
/-- A token that cannot stand where it does. -/
def unexpected : String := "AW002"
/-- A reference to a label that is declared nowhere. -/
def unresolved : String := "AW003"
/-- A name that is declared twice. -/
def duplicate : String := "AW004"
/-- A closing brace without an opening one, or blocks nested too deep. -/
def unbalanced : String := "AW005"
/-- An index space is used up. -/
def capacity : String := "AW100"
/-- A NUL character outside a string. -/
def corrupt : String := "AW101"
/-- The text ends inside a block. -/
def unclosed : String := "AW102"
/-- The limit on diagnostics is reached. -/
def tooMany : String := "AW103"
/-- The graph refused an operation that reading a text never asks of it. -/
def storage : String := "AW199"

end Code

end LabelGraph
