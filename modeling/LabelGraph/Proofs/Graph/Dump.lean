import LabelGraph.Graph.Dump
import LabelGraph.Proofs.Graph.Consistency
import Mathlib.Data.List.Perm.Basic

/-!
What the text of a graph says. It is spelled from the ledger of a run of edits: a line for each
node, and below it one for each live edge of the node. The graph is read through its links, and
none of them leads nowhere, so there always is a text, with any symbol table.
-/

namespace LabelGraph

/-- The word behind a symbol, and for a symbol that the table does not know the mark of such
symbols. -/
def SymbolTable.shown (t : SymbolTable) (s : Symbol) : String := (t.words[s.index]?).getD "<?>"

namespace Ledger

/-- The live edges of a node as they are listed: the outgoing edges first, then the incoming
ones, each newest first. -/
def listed (m : Ledger) (n : NodeId) : List Edge :=
  (m.owned n).filter (·.direction = .outgoing) ++ (m.owned n).filter (·.direction = .incoming)

def nodeLine (t : SymbolTable) (r : NodeRecord) : String :=
  s!"#{r.id.index} {t.shown r.name} ({r.kind}) @{r.span.start.line}:{r.span.start.column}"

def edgeLine (m : Ledger) (t : SymbolTable) (e : Edge) : String :=
  let target := (m.nodes[e.target.index]?).elim "" fun r => t.shown r.name
  s!"  {e.direction.arrow} {target} [{t.shown e.label}] @{e.span.start.line}:{e.span.start.column}"

def linesOf (m : Ledger) (t : SymbolTable) (r : NodeRecord) : List String :=
  nodeLine t r :: (m.listed r.id).map (m.edgeLine t)

def lines (m : Ledger) (t : SymbolTable) : List String := m.nodes.flatMap (m.linesOf t)

end Ledger

def textOfLines (lines : List String) : String := String.join (lines.map (· ++ "\n"))

@[simp] theorem textOfLines_cons (line : String) (lines : List String) :
    textOfLines (line :: lines) = line ++ "\n" ++ textOfLines lines := by
  rw [textOfLines, List.map_cons, String.join_cons, textOfLines]

@[simp] theorem textOfLines_append (first second : List String) :
    textOfLines (first ++ second) = textOfLines first ++ textOfLines second := by
  rw [textOfLines, List.map_append, String.join_append, textOfLines, textOfLines]

@[simp] theorem textOfLines_nil : textOfLines [] = "" := String.join_nil

theorem textOfLines_singleton (line : String) : textOfLines [line] = line ++ "\n" := by
  simp

/-- Text that is appended step by step, where no step fails. -/
theorem foldlM_text {α ε : Type} {step : String → α → Except ε String} {lines : α → List String}
    {items : List α} (h : ∀ text, ∀ a ∈ items, step text a = .ok (text ++ textOfLines (lines a)))
    (text : String) :
    items.foldlM step text = .ok (text ++ textOfLines (items.flatMap lines)) := by
  induction items generalizing text with
  | nil => exact congrArg Except.ok String.append_empty.symm
  | cons a items ih =>
    obtain ⟨hfirst, hmore⟩ := forall_and.1 fun text => List.forall_mem_cons.1 (h text)
    rw [List.foldlM_cons, hfirst text]
    change items.foldlM step (text ++ textOfLines (lines a)) = _
    simp [ih hmore, String.append_assoc]

theorem SymbolTable.spell_eq (t : SymbolTable) (s : Symbol) : t.spell s = t.shown s := by
  rw [spell, resolve, shown]
  cases t.words[s.index]? <;> rfl

namespace Graph.Shape

variable {g : Graph} {m : Ledger} {free : List Nat}

theorem target_eq (h : g.Shape m free []) {e : Edge} (he : e ∈ m.live) :
    ∃ r, m.nodes[e.target.index]? = some r ∧ r.id = e.target := by
  have hr := List.getElem?_eq_getElem (h.target e he)
  exact ⟨_, hr, h.nodeId _ _ hr⟩

theorem edgeLine_eq (h : g.Shape m free []) (t : SymbolTable) {e : Edge} (he : e ∈ m.live) :
    g.edgeLine t e.direction e.handle = .ok (m.edgeLine t e) := by
  obtain ⟨r, hr, -⟩ := h.target_eq he
  have hplace : toString e.span.start = s!"{e.span.start.line}:{e.span.start.column}" := rfl
  rw [edgeLine, h.edge_of_mem he]
  change (g.node e.target >>= _) = _
  rw [show g.node e.target = _ from h.node_eq hr]
  simp only [bind, Except.bind, pure, Except.pure, Ledger.edgeLine, hr, Option.elim_some,
    t.spell_eq, hplace, String.append_assoc]

theorem dumpEdges_eq (h : g.Shape m free []) (t : SymbolTable) {n : NodeId}
    (hn : n.index < m.nodes.length) (text : String) (d : Direction) :
    g.dumpEdges t n text d =
      .ok (text ++ textOfLines (((m.owned n).filter (·.direction = d)).map (m.edgeLine t))) := by
  have hedges : (m.live.filter fun e => e.source = n ∧ e.direction = d).reverse =
      (m.owned n).filter (·.direction = d) := by
    simp [Ledger.owned, List.filter_reverse, List.filter_filter, Bool.and_comm]
  rw [dumpEdges, h.edgesOf_eq hn, hedges]
  change Array.foldlM _ _ _ = _
  rw [← Array.foldlM_toList, List.toList_toArray, List.foldlM_map, List.map_eq_flatMap]
  apply foldlM_text
  intro text e he
  obtain ⟨he, hd⟩ := List.mem_filter.1 he
  rw [← of_decide_eq_true hd, h.edgeLine_eq t (Ledger.mem_owned.1 he).1]
  change Except.ok _ = Except.ok _
  simp [String.append_assoc]

theorem dumpNode_eq (h : g.Shape m free []) (t : SymbolTable) {i : Nat} {r : NodeRecord}
    (hr : m.nodes[i]? = some r) (text : String) :
    g.dumpNode t text ⟨i⟩ = .ok (text ++ textOfLines (m.linesOf t r)) := by
  have hi : i < m.nodes.length := (List.getElem?_eq_some_iff.1 hr).1
  have hplace : toString r.span.start = s!"{r.span.start.line}:{r.span.start.column}" := rfl
  have hid := h.nodeId i r hr
  rw [dumpNode, h.node_eq hr, h.nodeSpan_eq hr]
  simp only [bind, Except.bind, h.dumpEdges_eq t hi]
  rw [Ledger.linesOf, textOfLines_cons, Ledger.listed, List.map_append, textOfLines_append, hid]
  simp only [Ledger.nodeLine, hid, t.spell_eq, hplace, String.append_assoc]
  rfl

/-- The nodes are numbered in the order of their creation. -/
theorem numbers_eq (h : g.Shape m free []) :
    m.nodes.map (·.id.index) = List.range m.nodes.length := by
  apply List.ext_getElem (by simp)
  intro i hi _
  rw [List.length_map] at hi
  rw [List.getElem_map, List.getElem_range, h.nodeId i _ (List.getElem?_eq_getElem hi)]

theorem dump_eq (h : g.Shape m free []) (t : SymbolTable) :
    g.dump t = .ok (textOfLines (m.lines t)) := by
  rw [dump, h.size_nodes, ← h.numbers_eq, List.foldlM_map,
    ← String.empty_append (s := textOfLines _)]
  apply foldlM_text
  intro text r hr
  obtain ⟨i, hi⟩ := List.mem_iff_getElem?.1 hr
  rw [h.nodeId i r hi]
  exact h.dumpNode_eq t hi text

/-- The lines are about each live edge once. -/
theorem listed_perm (h : g.Shape m free []) :
    (m.nodes.flatMap fun r => m.listed r.id).Perm m.live := by
  have hlisted (n : NodeId) : (m.listed n).Perm (m.owned n) := by
    have hincoming : (m.owned n).filter (·.direction = .incoming) =
        (m.owned n).filter fun e => !decide (e.direction = .outgoing) :=
      List.filter_congr fun e _ => by cases e.direction <;> rfl
    rw [Ledger.listed, hincoming]
    exact List.filter_append_perm _ _
  have howned := h.owned_perm
  rw [← h.numbers_eq, List.flatMap_map] at howned
  exact (List.Perm.flatMap_left _ fun r _ => hlisted r.id).trans howned

end Graph.Shape

/-- After any run of edits on a new graph there is a text of the graph, with every symbol table.
It has the lines that the ledger of the run spells: those of the nodes in the order of their
numbers, and below each node those of its live edges. So each live edge has one line, and no
other edge has any. -/
theorem Edit.run_dump (edits : List Edit) (symbols : SymbolTable) :
    let g := (run edits).1
    let m := (run edits).2
    g.dump symbols = .ok (textOfLines (m.lines symbols)) ∧
      m.nodes.map (·.id.index) = List.range g.nodeCount ∧
      (∀ e ∈ m.live, ∃ r, m.nodes[e.target.index]? = some r ∧ r.id = e.target) ∧
      (m.nodes.flatMap fun r => m.listed r.id).Perm m.live ∧
      m.live.Nodup ∧ ∀ h, g.containsEdge h ↔ ∃ e ∈ m.live, e.handle = h := by
  intro g m
  obtain ⟨free, hshape⟩ := run_shape edits
  refine ⟨hshape.dump_eq symbols, ?_, fun e he => hshape.target_eq he, hshape.listed_perm,
    List.Nodup.of_map _ hshape.slots_nodup, ?_⟩
  · rw [hshape.numbers_eq, Graph.nodeCount, hshape.size_nodes]
  · intro h
    rw [Graph.containsEdge]
    by_cases hlive : ∃ e ∈ m.live, e.handle = h
    · obtain ⟨e, he, rfl⟩ := hlive
      rw [hshape.liveLink_of_mem he]
      exact iff_of_true rfl ⟨e, he, rfl⟩
    · obtain ⟨cause, hcause⟩ := hshape.liveLink_of_not_mem fun e he heq => hlive ⟨e, he, heq⟩
      rw [hcause]
      exact iff_of_false Bool.false_ne_true hlive

end LabelGraph
