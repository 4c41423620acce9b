import LabelGraph.Proofs.Graph.Generation

/-!
A graph from which nothing is removed. Its edges fill the slots one after another, so
what it holds at one time is the beginning of what it holds at any later time.
-/

namespace LabelGraph

namespace Graph

/-- The slots of the graph are filled in the order in which its edges were added. -/
structure Dense (g : Graph) (m : Ledger) : Prop where
  shape : g.Shape m [] []
  slots : m.slots = List.range m.live.length

/-- The second graph holds the nodes and the edges of the first one before all others. -/
structure Begins (g h : Graph) : Prop where
  nodes : g.nodes.toList.map (fun n => (n.name, n.kind)) <+:
    h.nodes.toList.map fun n => (n.name, n.kind)
  nodeSpans : g.nodeSpans.toList <+: h.nodeSpans.toList
  edges : g.edges <+: h.edges

theorem Begins.refl (g : Graph) : g.Begins g :=
  ⟨List.prefix_rfl, List.prefix_rfl, List.prefix_rfl⟩

theorem Begins.trans {g h k : Graph} (hg : g.Begins h) (hh : h.Begins k) : g.Begins k :=
  ⟨hg.nodes.trans hh.nodes, hg.nodeSpans.trans hh.nodeSpans, hg.edges.trans hh.edges⟩

namespace Dense

variable {g g' : Graph} {m m' : Ledger}

theorem empty : Graph.empty.Dense {} := ⟨.empty, rfl⟩

theorem nodes (h : g.Dense m) :
    g.nodes.toList.map (fun n => (n.name, n.kind)) = m.nodes.map fun r => (r.name, r.kind) := by
  apply List.ext_getElem?
  intro i
  rw [List.getElem?_map, List.getElem?_map, Array.getElem?_toList, h.shape.node i, Option.map_map]
  rfl

theorem nodeSpans (h : g.Dense m) : g.nodeSpans.toList = m.nodes.map (·.span) := by
  apply List.ext_getElem?
  intro i
  rw [List.getElem?_map, Array.getElem?_toList, h.shape.nodeSpan i]

theorem edges (h : g.Dense m) : g.edges = m.live := by
  obtain ⟨hperm, hsorted⟩ := h.shape.agrees.edges
  have hlive : m.live.Pairwise fun e f => e.handle.slot < f.handle.slot := by
    rw [← List.pairwise_map (f := fun e : Edge => e.handle.slot)]
    change m.slots.Pairwise (· < ·)
    rw [h.slots]
    exact List.pairwise_lt_range
  exact hperm.eq_of_pairwise (fun _ _ _ _ hlt hgt => absurd hlt (Nat.lt_asymm hgt)) hsorted hlive

theorem begins (h : g.Dense m) (h' : g'.Dense m') (hnodes : m.nodes <+: m'.nodes)
    (hlive : m.live <+: m'.live) : g.Begins g' where
  nodes := by
    rw [h.nodes, h'.nodes]
    exact hnodes.map _
  nodeSpans := by
    rw [h.nodeSpans, h'.nodeSpans]
    exact hnodes.map _
  edges := by
    rw [h.edges, h'.edges]
    exact hlive

theorem createNode_ok (h : g.Dense m) (hroom : m.nodes.length < indexCapacity) (name : Symbol)
    (kind : NodeKind) (span : Span) :
    ∃ g', createNode name kind span g = .ok ⟨m.nodes.length⟩ g' ∧
      g'.Dense (m.addNode ⟨⟨m.nodes.length⟩, name, kind, span⟩) := by
  obtain ⟨g', hcreate, hshape⟩ := h.shape.createNode_ok hroom name kind span
  exact ⟨g', hcreate, hshape, h.slots⟩

/-- There is no free slot, so an edge gets the slot behind the last one. -/
theorem addEdge_ok (h : g.Dense m) {source target : NodeId}
    (hsource : source.index < m.nodes.length) (htarget : target.index < m.nodes.length)
    (hroom : m.live.length < indexCapacity) (label : Symbol) (direction : Direction)
    (span : Span) :
    ∃ g', addEdge source target label direction span g = .ok ⟨m.live.length, 0⟩ g' ∧
      g'.Dense (m.addEdge ⟨⟨m.live.length, 0⟩, source, target, label, direction, span⟩) := by
  obtain ⟨handle, g', rest, hadd, hshape, hfree⟩ :=
    h.shape.addEdge_ok hsource htarget hroom label direction span
  have hrest : rest = [] := by
    rcases hfree with hfree | ⟨-, hrest, -⟩
    · cases hfree
    · exact hrest
  have hsize : m.live.length = g.slots.size := h.shape.length_cover
  have hhandle := addEdge_fresh h.shape.freeHead hadd
  rw [← hsize] at hhandle
  subst hhandle hrest
  refine ⟨g', hadd, hshape, ?_⟩
  rw [Ledger.slots_addEdge, h.slots]
  simp [List.range_succ]

end Dense

/-- The operation only adds to a graph, and leaves it as it is if it is refused. -/
def Additive {α : Type} (op : StoreM Graph α) : Prop :=
  ∀ g m, g.Dense m →
    (∃ a g' m', op g = .ok a g' ∧ g'.Dense m' ∧ g.Begins g') ∨ ∃ e, op g = .error e g

theorem createNode_additive (name : Symbol) (kind : NodeKind) (span : Span) :
    Additive (createNode name kind span) := by
  intro g m h
  by_cases hroom : m.nodes.length < indexCapacity
  · obtain ⟨g', hcreate, hdense⟩ := h.createNode_ok hroom name kind span
    exact .inl ⟨_, g', _, hcreate, hdense,
      h.begins hdense (List.prefix_append ..) List.prefix_rfl⟩
  · exact .inr ⟨_, h.shape.createNode_full (Nat.le_of_not_lt hroom) name kind span⟩

theorem addEdge_additive (source target : NodeId) (label : Symbol) (direction : Direction)
    (span : Span) : Additive (discard (addEdge source target label direction span)) := by
  intro g m h
  by_cases hsource : source.index < m.nodes.length
  case neg =>
    have hbad := h.shape.addEdge_badSource hsource target label direction span
    exact .inr ⟨_, discard_of_error hbad⟩
  by_cases htarget : target.index < m.nodes.length
  case neg =>
    have hbad := h.shape.addEdge_badTarget hsource htarget label direction span
    exact .inr ⟨_, discard_of_error hbad⟩
  by_cases hroom : m.live.length < indexCapacity
  case neg =>
    have hfull := h.shape.addEdge_full hsource htarget (Nat.le_of_not_lt hroom) label direction span
    exact .inr ⟨_, discard_of_error hfull⟩
  obtain ⟨g', hadd, hdense⟩ := h.addEdge_ok hsource htarget hroom label direction span
  exact .inl ⟨_, g', _, discard_of_ok hadd, hdense,
    h.begins hdense List.prefix_rfl (List.prefix_append ..)⟩

end Graph

end LabelGraph
