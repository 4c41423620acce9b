import LabelGraph.Graph.Basic

/-!
A graph as plain text, with the words behind its symbols. Each node has a line,
and below it a line for each edge that it owns: outgoing edges first, then the
incoming ones, newest first.
-/

namespace LabelGraph.Graph

/-- The line of one edge, without the line feed. -/
def edgeLine (g : Graph) (symbols : SymbolTable) (d : Direction) (h : EdgeHandle) :
    Except StoreError String := do
  let edge ← g.edge h
  let target ← g.node edge.target
  return s!"  {d.arrow} {symbols.spell target.name} [{symbols.spell edge.label}] @{edge.span.start}"

def dumpEdges (g : Graph) (symbols : SymbolTable) (n : NodeId) (text : String) (d : Direction) :
    Except StoreError String := do
  let handles ← g.edgesOf n d
  handles.foldlM (fun text h => return text ++ (← g.edgeLine symbols d h) ++ "\n") text

def dumpNode (g : Graph) (symbols : SymbolTable) (text : String) (n : NodeId) :
    Except StoreError String := do
  let node ← g.node n
  let span ← g.nodeSpan n
  let text := text ++ s!"{n} {symbols.spell node.name} ({node.kind}) @{span.start}\n"
  let text ← g.dumpEdges symbols n text .outgoing
  g.dumpEdges symbols n text .incoming

/-- The text of the whole graph. It fails only where a link leads nowhere. -/
def dump (g : Graph) (symbols : SymbolTable) : Except StoreError String :=
  (List.range g.nodes.size).foldlM (fun text i => g.dumpNode symbols text ⟨i⟩) ""

end LabelGraph.Graph
