import LabelGraph.Diagnostic.Basic
import LabelGraph.Json.Basic

/-!
Diagnostics as JSON. Writing leaves out the details that are not set; reading
accepts them missing or null, and ignores members it does not know.
-/

namespace LabelGraph

def Position.toJson (p : Position) : Json :=
  .object [("line", .nat p.line), ("column", .nat p.column), ("offset", .nat p.offset)]

def Position.ofJson? (json : Json) : Option Position :=
  match json.record? 3 ["line", "column", "offset"] with
  | some [some line, some column, some offset] => do
    return { line := ← line.word?, column := ← column.word?, offset := ← offset.word? }
  | _ => none

def Span.toJson (s : Span) : Json :=
  .object [("start", s.start.toJson), ("end", s.stop.toJson)]

def Span.ofJson? (json : Json) : Option Span :=
  match json.record? 2 ["start", "end"] with
  | some [some start, some stop] => do
    return { start := ← Position.ofJson? start, stop := ← Position.ofJson? stop }
  | _ => none

def Severity.toJson (s : Severity) : Json := .string s.name

def Severity.ofJson? (json : Json) : Option Severity :=
  json.case?.bind Severity.ofName?

/-- The details that are set. -/
def Details.toJson (d : Details) : Json :=
  .object ([("found", d.found), ("expected", d.expected), ("info", d.info)].filterMap
    fun (name, value) => value.map fun s => (name, .string s))

def Details.ofJson? (json : Json) : Option Details :=
  match json.record? 3 ["found", "expected", "info"] with
  | some [found, expected, info] => do
    return {
      found := ← Json.optional? Json.string? found
      expected := ← Json.optional? Json.string? expected
      info := ← Json.optional? Json.string? info }
  | _ => none

def Diagnostic.toJson (d : Diagnostic) : Json :=
  .object
    [("severity", d.severity.toJson), ("code", .string d.code), ("message", .string d.message),
      ("span", d.span.toJson), ("details", d.details.toJson)]

/-- Reads a diagnostic. The details as a whole may be missing, but not null. -/
def Diagnostic.ofJson? (json : Json) : Option Diagnostic :=
  match json.record? 4 ["severity", "code", "message", "span", "details"] with
  | some [some severity, some code, some message, some span, details] => do
    return {
      severity := ← Severity.ofJson? severity
      code := ← code.string?
      message := ← message.string?
      span := ← Span.ofJson? span
      details := ← match details with
        | none => some {}
        | some details => Details.ofJson? details }
  | _ => none

end LabelGraph
