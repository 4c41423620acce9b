import LabelGraph.Diagnostic.Json
import LabelGraph.Graph.Dump
import LabelGraph.Parse.Run

/-!
What is told about a parse, as lines of text or as JSON.
-/

namespace LabelGraph

namespace Diagnostic

/-- The lines on which a diagnostic of a file is shown. -/
def lines (file : String) (d : Diagnostic) : List String :=
  let line := s!"{file}:{d.span.start}: {d.severity}[{d.code}]: {d.message}"
  let line :=
    match d.details.expected with
    | some expected => line ++ s!" (expected {expected})"
    | none => line
  line ::
    match d.details.info with
    | some info => [s!"  note: {info}"]
    | none => []

end Diagnostic

def GraphStats.toJson (s : GraphStats) : Json :=
  .object
    [("nodes", .nat s.nodes), ("live_edges", .nat s.liveEdges), ("free_slots", .nat s.freeSlots),
      ("edge_slots", .nat s.edgeSlots)]

namespace Parse

/-- The graph as text. Every link of the graph of a parse leads somewhere, so there is
always one. -/
def dump (p : Parse) : String := (p.graph.dump p.symbols).toOption.getD ""

def summary (p : Parse) (file : String) : String :=
  let status := if p.isSuccess then "ok" else "failed"
  let sizes := s!"{p.graph.nodeCount} nodes, {p.graph.edgeCount} edges"
  s!"{file}: {status} ({sizes}, {p.errorCount} errors, {p.diagnostics.size} diagnostics)"

def unlines (lines : List String) : String :=
  lines.foldl (fun text line => text ++ line ++ "\n") ""

/-- The diagnostics, the graph if it is asked for, and the summary. -/
def textReport (p : Parse) (file : String) (withGraph : Bool) : String :=
  unlines (p.diagnostics.toList.flatMap (Diagnostic.lines file)) ++
    (if withGraph then p.dump else "") ++ unlines [p.summary file]

def jsonReport (p : Parse) (file : String) : String :=
  let json : Json :=
    .object
      [("file", .string file), ("state", .string p.phase.name),
        ("stats", p.graph.stats.toJson),
        ("diagnostics", .array (p.diagnostics.toList.map Diagnostic.toJson))]
  unlines [json.pretty]

end Parse

end LabelGraph
