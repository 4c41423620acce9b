import LabelGraph.Graph.Dump
import LabelGraph.Proofs.Graph.Growth

/-!
The symbols of a graph are handles that mean something in one table only. Giving them other
handles changes neither the form of the graph nor its text, as long as the words behind the
handles stay. A graph from which nothing was removed is determined by its ledger, up to such
a change.
-/

namespace LabelGraph

def Node.rename (f : Symbol → Symbol) (n : Node) : Node := { n with name := f n.name }

def Link.rename (f : Symbol → Symbol) (l : Link) : Link := { l with label := f l.label }

def Edge.rename (f : Symbol → Symbol) (e : Edge) : Edge := { e with label := f e.label }

def NodeRecord.rename (f : Symbol → Symbol) (r : NodeRecord) : NodeRecord :=
  { r with name := f r.name }

namespace Ledger

variable (f : Symbol → Symbol) (m : Ledger)

def rename : Ledger where
  nodes := m.nodes.map (·.rename f)
  live := m.live.map (·.rename f)

@[simp] theorem chain_rename (n : NodeId) : (m.rename f).chain n = m.chain n := by
  simp only [chain, owned, rename, List.filter_map, ← List.map_reverse, List.map_map]
  rfl

theorem link_rename (e : Edge) : (m.rename f).link (e.rename f) = (m.link e).rename f := by
  simp only [link, chain_rename, Link.rename]
  rfl

end Ledger

namespace Graph

def rename (f : Symbol → Symbol) (g : Graph) : Graph :=
  { g with
    nodes := g.nodes.map (·.rename f)
    slots := g.slots.map (Slot.mapLink (·.rename f)) }

section Rename

variable (f : Symbol → Symbol) (g : Graph)

@[simp] theorem rename_id : g.rename id = g := by
  have hslot : Slot.mapLink (·.rename id) = id := by
    funext slot
    obtain ⟨generation, state⟩ := slot
    cases state <;> rfl
  have hnode : Node.rename id = id := rfl
  rw [rename, hslot, hnode, Array.map_id, Array.map_id]

@[simp] theorem node_rename (n : NodeId) : (g.rename f).node n = (g.node n).map (·.rename f) := by
  simp only [node, rename, Array.getElem?_map, Array.size_map]
  cases g.nodes[n.index]? <;> rfl

@[simp] theorem nodeSpan_rename (n : NodeId) : (g.rename f).nodeSpan n = g.nodeSpan n := by
  simp only [nodeSpan, rename, Array.size_map]

@[simp] theorem link?_mapLink (slot : Slot) :
    (slot.mapLink (·.rename f)).link? = slot.link?.map (·.rename f) := by
  obtain ⟨generation, state⟩ := slot
  cases state <;> rfl

@[simp] theorem generation_mapLink (slot : Slot) :
    (slot.mapLink (·.rename f)).generation = slot.generation := by
  obtain ⟨generation, state⟩ := slot
  cases state <;> rfl

@[simp] theorem liveLink_rename (h : EdgeHandle) :
    (g.rename f).liveLink h = (g.liveLink h).map (·.rename f) := by
  simp only [liveLink, rename, Array.getElem?_map, Array.size_map]
  cases g.slots[h.slot]? with
  | none => rfl
  | some slot =>
    simp only [Option.map_some, link?_mapLink, generation_mapLink]
    cases slot.link? with
    | none => rfl
    | some link =>
      simp only [Option.map_some]
      split <;> rfl

@[simp] theorem edge_rename (h : EdgeHandle) :
    (g.rename f).edge h = (g.edge h).map (·.rename f) := by
  simp only [edge, liveLink_rename]
  cases g.liveLink h with
  | error e => rfl
  | ok link =>
    simp only [Except.map, rename]
    cases g.slotSpans[h.slot]? <;> rfl

@[simp] theorem walk_rename (d : Direction) (found : Array EdgeHandle) (steps : Nat)
    (slot : Option Nat) :
    (g.rename f).walk d found steps slot = g.walk d found steps slot := by
  induction steps generalizing found slot with
  | zero => cases slot <;> rfl
  | succ steps ih =>
    cases slot with
    | none => rfl
    | some i =>
      simp only [walk, rename, Array.getElem?_map]
      cases g.slots[i]? with
      | none => rfl
      | some slot =>
        simp only [Option.map_some, link?_mapLink, generation_mapLink]
        cases slot.link? with
        | none => rfl
        | some link => exact ih _ _

@[simp] theorem edgesOf_rename (n : NodeId) (d : Direction) :
    (g.rename f).edgesOf n d = g.edgesOf n d := by
  simp only [edgesOf, node_rename]
  cases g.node n with
  | error e => rfl
  | ok node =>
    simp only [Except.map, walk_rename]
    simp [rename, Node.rename]

end Rename

/-- What a handle leads to is one of the edges. -/
theorem mem_edges_of_edge {g : Graph} {h : EdgeHandle} {e : Edge} (hedge : g.edge h = .ok e) :
    e ∈ g.edges := by
  have hlive : ∃ slot, g.slots[h.slot]? = some slot ∧ slot.generation = h.generation := by
    simp only [edge, liveLink] at hedge
    split at hedge
    · cases hedge
    · next hlive =>
      split at hlive
      · cases hlive
      · next slot hslot =>
        split at hlive
        · cases hlive
        · split at hlive
          · next hgeneration => exact ⟨slot, hslot, hgeneration⟩
          · cases hlive
  obtain ⟨slot, hslot, hgeneration⟩ := hlive
  refine List.mem_filterMap.2 ⟨(slot, h.slot), ?_, ?_⟩
  · rw [List.mem_zipIdx_iff_getElem?, Array.getElem?_toList]
    exact hslot
  · simp only [hgeneration, hedge, Except.toOption]

/-! The text of a graph. -/

/-- The new handles have the words in their table that the old ones have in theirs. -/
structure Translates (f : Symbol → Symbol) (t u : SymbolTable) (g : Graph) : Prop where
  names : ∀ n node, g.node n = .ok node → u.spell (f node.name) = t.spell node.name
  labels : ∀ e ∈ g.edges, u.spell (f e.label) = t.spell e.label

namespace Translates

variable {f : Symbol → Symbol} {t u : SymbolTable} {g : Graph}

theorem edgeLine_eq (h : Translates f t u g) (d : Direction) (handle : EdgeHandle) :
    (g.rename f).edgeLine u d handle = g.edgeLine t d handle := by
  simp only [edgeLine, edge_rename]
  cases hedge : g.edge handle with
  | error e => rfl
  | ok edge =>
    have hlabel := h.labels edge (mem_edges_of_edge hedge)
    simp only [Except.map, bind, Except.bind, Edge.rename, node_rename]
    cases hnode : g.node edge.target with
    | error e => rfl
    | ok node => simp only [Node.rename, h.names _ _ hnode, hlabel]

theorem dumpEdges_eq (h : Translates f t u g) (n : NodeId) (text : String) (d : Direction) :
    (g.rename f).dumpEdges u n text d = g.dumpEdges t n text d := by
  simp [dumpEdges, h.edgeLine_eq]

theorem dumpNode_eq (h : Translates f t u g) (text : String) (n : NodeId) :
    (g.rename f).dumpNode u text n = g.dumpNode t text n := by
  simp only [dumpNode, node_rename, nodeSpan_rename, h.dumpEdges_eq]
  cases hnode : g.node n with
  | error e => simp only [Except.map, bind, Except.bind]
  | ok node => simp only [Except.map, bind, Except.bind, Node.rename, h.names _ _ hnode]

/-- The text of a graph depends on its words only. -/
theorem dump_eq (h : Translates f t u g) : (g.rename f).dump u = g.dump t := by
  simp only [dump, h.dumpNode_eq]
  simp only [rename, Array.size_map]

end Translates

/-! The ledger of a dense graph. -/

namespace Dense

variable {g g' : Graph} {m : Ledger}

theorem slot_of_lt (h : g.Dense m) {i : Nat} (hi : i < m.live.length) :
    ∃ e ∈ m.live, e.handle.slot = i := by
  have hmem : i ∈ m.slots := by
    rw [h.slots]
    exact List.mem_range.2 hi
  exact List.mem_map.1 hmem

theorem size_slots (h : g.Dense m) : g.slots.size = m.live.length := h.shape.length_cover.symm

/-- If the ledgers of two graphs differ in their symbols only, then so do the graphs. -/
theorem eq_rename (h : g.Dense m) {f : Symbol → Symbol} (h' : g'.Dense (m.rename f)) :
    g' = g.rename f := by
  have hlength : (m.rename f).live.length = m.live.length := List.length_map _
  have hslot (i : Nat) (hi : i < m.live.length) :
      ∃ e ∈ m.live, e.rename f ∈ (m.rename f).live ∧ e.handle.slot = i := by
    obtain ⟨e, he, hslot⟩ := h.slot_of_lt hi
    exact ⟨e, he, List.mem_map_of_mem he, hslot⟩
  have hnodes : g'.nodes = g.nodes.map (·.rename f) := by
    apply Array.ext_getElem?
    intro i
    rw [h'.shape.node, Array.getElem?_map, h.shape.node, Ledger.rename, List.getElem?_map,
      Option.map_map, Option.map_map]
    refine congrArg (Option.map · _) (funext fun r => ?_)
    exact congrArg (Node.mk _ _ ·.head?) (m.chain_rename f ⟨i⟩)
  have hspans : g'.nodeSpans = g.nodeSpans := by
    apply Array.ext_getElem?
    intro i
    rw [h'.shape.nodeSpan, h.shape.nodeSpan, Ledger.rename, List.getElem?_map, Option.map_map]
    rfl
  have hslots : g'.slots = g.slots.map (Slot.mapLink (·.rename f)) := by
    apply Array.ext_getElem?
    intro i
    rw [Array.getElem?_map]
    rcases Nat.lt_or_ge i m.live.length with hi | hi
    · obtain ⟨e, he, he', rfl⟩ := hslot i hi
      have hold : g.slots[e.handle.slot]? = _ := h.shape.holds e he
      have hnew : g'.slots[e.handle.slot]? = _ := h'.shape.holds (e.rename f) he'
      rw [hold, hnew, m.link_rename f e]
      rfl
    · rw [Array.getElem?_eq_none (h'.size_slots ▸ hlength ▸ hi),
        Array.getElem?_eq_none (h.size_slots ▸ hi), Option.map_none]
  have hslotSpans : g'.slotSpans = g.slotSpans := by
    apply Array.ext_getElem?
    intro i
    rcases Nat.lt_or_ge i m.live.length with hi | hi
    · obtain ⟨e, he, he', rfl⟩ := hslot i hi
      exact (h'.shape.slotSpan (e.rename f) he').trans (h.shape.slotSpan e he).symm
    · rw [Array.getElem?_eq_none (h'.shape.slotSpans ▸ h'.size_slots ▸ hlength ▸ hi),
        Array.getElem?_eq_none (h.shape.slotSpans ▸ h.size_slots ▸ hi)]
  have hfree : g'.freeHead = g.freeHead := h'.shape.freeHead.trans h.shape.freeHead.symm
  have hlive : g'.liveEdges = g.liveEdges := by
    rw [h'.shape.liveEdges, h.shape.liveEdges, hlength]
  obtain ⟨_, _, _, _, _, _⟩ := g'
  simp only at hnodes hspans hslots hslotSpans hfree hlive
  rw [hnodes, hspans, hslots, hslotSpans, hfree, hlive, rename]

end Dense

end Graph

end LabelGraph
