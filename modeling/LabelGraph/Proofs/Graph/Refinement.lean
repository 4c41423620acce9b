import LabelGraph.Proofs.Graph.Shape

/-!
Every run of edits, with any arguments, leaves a graph that can be read like its
ledger: each node and each live edge is found as it was created, whatever slots
were used again on the way, and the ledger alone tells which call is granted next.
-/

namespace LabelGraph

namespace Graph

/-- What can be read from the graph is what the ledger says. -/
structure Agrees (g : Graph) (m : Ledger) : Prop where
  nodeCount : g.nodeCount = m.nodes.length
  edgeCount : g.edgeCount = m.live.length
  edgeSlotCount : g.edgeCount + g.freeSlotCount = g.edgeSlotCount
  node : ∀ (i : Nat) r, m.nodes[i]? = some r →
    r.id = ⟨i⟩ ∧ ∃ node, g.node r.id = .ok node ∧ node.name = r.name ∧ node.kind = r.kind
  nodeSpan : ∀ r ∈ m.nodes, g.nodeSpan r.id = .ok r.span
  edge : ∀ e ∈ m.live, g.edge e.handle = .ok e
  slots : m.live.Pairwise fun e f => e.handle.slot ≠ f.handle.slot
  edges : g.edges.Perm m.live ∧ g.edges.Pairwise fun e f => e.handle.slot < f.handle.slot
  edgesOf : ∀ (n : NodeId) (d : Direction), n.index < m.nodes.length →
    g.edgesOf n d =
      .ok ((m.live.filter fun e => e.source = n ∧ e.direction = d).reverse.map
        (·.handle)).toArray
  grants : ∀ edit : Edit, edit.GrantedBy g ↔ edit.Granted m

namespace Shape

variable {g : Graph} {m : Ledger} {free : List Nat}

theorem node_eq (h : g.Shape m free []) {i : Nat} {r : NodeRecord}
    (hr : m.nodes[i]? = some r) :
    g.node ⟨i⟩ = .ok { name := r.name, kind := r.kind, first := (m.chain ⟨i⟩).head? } := by
  have hnode := h.node i
  rw [hr, Option.map_some] at hnode
  simp only [Graph.node, hnode]

theorem nodeSpan_eq (h : g.Shape m free []) {i : Nat} {r : NodeRecord}
    (hr : m.nodes[i]? = some r) : g.nodeSpan ⟨i⟩ = .ok r.span := by
  have hspan := h.nodeSpan i
  rw [hr, Option.map_some] at hspan
  simp only [Graph.nodeSpan, hspan]

/-- A node of the graph is one of the ledger. -/
theorem mem_of_node (h : g.Shape m free []) {n : NodeId} {node : Node} (hn : g.node n = .ok node) :
    ∃ r ∈ m.nodes, r.id = n ∧ r.name = node.name ∧ r.kind = node.kind ∧
      g.nodeSpan n = .ok r.span := by
  simp only [Graph.node, h.node n.index] at hn
  cases hr : m.nodes[n.index]? with
  | none =>
    rw [hr] at hn
    cases hn
  | some r =>
    rw [hr] at hn
    cases hn
    exact ⟨r, List.mem_of_getElem? hr, h.nodeId _ _ hr, rfl, rfl, h.nodeSpan_eq hr⟩

theorem edge_of_mem (h : g.Shape m free []) {e : Edge} (he : e ∈ m.live) :
    g.edge e.handle = .ok e := by
  simp only [edge, h.liveLink_of_mem he, h.slotSpan e he, Ledger.link]

/-- From any place of a chain the walk finds the handles of the edges behind it. The
number of steps left has to cover these edges. -/
theorem walk_chain (h : g.Shape m free []) (n : NodeId) (d : Direction) (rest : List Edge) :
    ∀ (front : List Edge) (found : Array EdgeHandle) (steps : Nat),
      m.owned n = front ++ rest → rest.length ≤ steps →
      g.walk d found steps (rest.map (·.handle.slot)).head? =
        found ++ ((rest.filter (·.direction = d)).map (·.handle)).toArray := by
  induction rest with
  | nil =>
      intro front found steps _ _
      cases steps <;> simp [walk]
  | cons e rest ih =>
      intro front found steps howned hsteps
      obtain ⟨steps, rfl⟩ : ∃ k, steps = k + 1 := ⟨steps - 1, by simp at hsteps; omega⟩
      obtain ⟨he, hsource⟩ : e ∈ m.live ∧ e.source = n := by
        rw [← Ledger.mem_owned, howned]
        simp
      have hslot : g.slots[e.handle.slot]? = _ := h.holds e he
      have hchain : m.chain e.source =
          front.map (·.handle.slot) ++ e.handle.slot :: rest.map (·.handle.slot) := by
        rw [hsource, Ledger.chain, howned, List.map_append, List.map_cons]
      have hfront : e.handle.slot ∉ front.map (·.handle.slot) := by
        have hnodup := Ledger.chain_nodup h.slots_nodup e.source
        rw [hchain] at hnodup
        intro hin
        exact (List.nodup_append.1 hnodup).2.2 _ hin _ List.mem_cons_self rfl
      have hnext : (m.link e).next = (rest.map (·.handle.slot)).head? := by
        rw [Ledger.link, hchain, following_append hfront]
      have hdirection : (m.link e).direction = e.direction := rfl
      have hrest : m.owned n = (front ++ [e]) ++ rest := by simpa using howned
      simp only [List.map_cons, List.head?_cons, walk, hslot, Slot.link?, hnext, hdirection]
      rw [ih (front ++ [e]) _ steps hrest (by simpa using hsteps)]
      by_cases hd : e.direction = d <;> simp [hd]

theorem edgesOf_eq (h : g.Shape m free []) {n : NodeId} (hn : n.index < m.nodes.length)
    (d : Direction) :
    g.edgesOf n d =
      .ok ((m.live.filter fun e => e.source = n ∧ e.direction = d).reverse.map
        (·.handle)).toArray := by
  have hnode := h.node_eq (List.getElem?_eq_getElem hn)
  have hlength : (m.owned n).length ≤ g.slots.size := by
    have hle : (m.owned n).length ≤ m.live.length := by
      simpa [Ledger.owned] using List.length_filter_le _ _
    have := h.length_cover
    omega
  have hwalk := h.walk_chain n d (m.owned n) [] #[] g.slots.size rfl hlength
  simp only [edgesOf, hnode]
  apply congrArg Except.ok
  apply hwalk.trans
  simp [Ledger.owned, List.filter_reverse, List.filter_filter, Bool.and_comm]

theorem mem_edges (h : g.Shape m free []) (e : Edge) : e ∈ g.edges ↔ e ∈ m.live := by
  simp only [edges, List.mem_filterMap, List.mem_zipIdx_iff_getElem?, Prod.exists]
  constructor
  · rintro ⟨slot, i, hslot, hedge⟩
    rw [Array.getElem?_toList] at hslot
    have hinside := (Array.getElem?_eq_some_iff.1 hslot).1
    rcases (h.mem_cover i).1 hinside with hlive | hfree | hspare
    · obtain ⟨f, hf, rfl⟩ := List.mem_map.1 hlive
      have hhandle : g.slots[f.handle.slot]? = _ := h.holds f hf
      rw [hslot] at hhandle
      cases hhandle
      have := h.edge_of_mem hf
      simp only [this, Except.toOption] at hedge
      exact Option.some.inj hedge ▸ hf
    · have hold := h.freeSlot i hfree
      rw [hslot] at hold
      simp [edge, liveLink, hslot, Slot.link?, Option.some.inj hold, Except.toOption] at hedge
    · cases hspare
  · intro he
    have hslot : g.slots[e.handle.slot]? = _ := h.holds e he
    refine ⟨_, e.handle.slot, by rw [Array.getElem?_toList]; exact hslot, ?_⟩
    exact congrArg Except.toOption (h.edge_of_mem he)

end Shape

theorem handle_of_edge {g : Graph} {handle : EdgeHandle} {e : Edge}
    (h : g.edge handle = .ok e) : e.handle = handle := by
  simp only [edge] at h
  split at h
  · cases h
  · split at h
    · cases h
    · cases h
      rfl

/-- The edges are listed in the order of their slots. -/
theorem edges_sorted (g : Graph) :
    g.edges.Pairwise fun e f => e.handle.slot < f.handle.slot := by
  have hindex : g.slots.toList.zipIdx.Pairwise fun a b => a.2 < b.2 := by
    rw [← List.pairwise_map (f := Prod.snd), List.zipIdx_map_snd]
    exact List.pairwise_lt_range'
  apply List.pairwise_filterMap.2
  apply hindex.imp
  rintro ⟨slot, i⟩ ⟨slot', j⟩ hlt e he f hf
  have hslot {slot : Slot} {i : Nat} {e : Edge}
      (h : (g.edge { slot := i, generation := slot.generation }).toOption = some e) :
      e.handle.slot = i := by
    cases hedge : g.edge { slot := i, generation := slot.generation } with
    | ok e' =>
      rw [hedge] at h
      cases h
      rw [handle_of_edge hedge]
    | error cause =>
      rw [hedge] at h
      cases h
  rw [hslot he, hslot hf]
  exact hlt

namespace Shape

variable {g : Graph} {m : Ledger} {free : List Nat}

/-- A call is either granted, and then the graph and the ledger are written on together,
or refused, and then both stay. The ledger knows which. -/
theorem perform_cases (h : g.Shape m free []) (edit : Edit) :
    (edit.Granted m ∧ edit.GrantedBy g ∧
      ∃ free', (edit.perform (g, m)).1.Shape (edit.perform (g, m)).2 free' []) ∨
    (¬ edit.Granted m ∧ ¬ edit.GrantedBy g ∧ edit.perform (g, m) = (g, m)) := by
  cases edit with
  | createNode name kind span =>
    simp only [Edit.Granted, Edit.GrantedBy, Edit.perform]
    by_cases hroom : m.nodes.length < indexCapacity
    · obtain ⟨g', hcall, h'⟩ := h.createNode_ok hroom name kind span
      rw [hcall]
      exact .inl ⟨hroom, ⟨_, g', rfl⟩, free, h'⟩
    · rw [h.createNode_full (Nat.le_of_not_lt hroom)]
      exact .inr ⟨hroom, by simp, rfl⟩
  | addEdge source target label direction span =>
    simp only [Edit.Granted, Edit.GrantedBy, Edit.perform]
    by_cases hsource : source.index < m.nodes.length
    · by_cases htarget : target.index < m.nodes.length
      · by_cases hroom : m.live.length < indexCapacity
        · obtain ⟨handle, g', rest, hcall, h', _⟩ :=
            h.addEdge_ok hsource htarget hroom label direction span
          rw [hcall]
          exact .inl ⟨⟨hsource, htarget, hroom⟩, ⟨handle, g', rfl⟩, rest, h'⟩
        · rw [h.addEdge_full hsource htarget (Nat.le_of_not_lt hroom)]
          exact .inr ⟨fun hall => hroom hall.2.2, by simp, rfl⟩
      · rw [h.addEdge_badTarget hsource htarget]
        exact .inr ⟨fun hall => htarget hall.2.1, by simp, rfl⟩
    · rw [h.addEdge_badSource hsource]
      exact .inr ⟨fun hall => hsource hall.1, by simp, rfl⟩
  | removeEdge handle =>
    simp only [Edit.Granted, Edit.GrantedBy, Edit.perform]
    by_cases hlive : ∃ e ∈ m.live, e.handle = handle
    · obtain ⟨e, he, rfl⟩ := hlive
      obtain ⟨g', hcall, h'⟩ := h.removeEdge_ok he
      rw [hcall]
      exact .inl ⟨⟨e, he, rfl⟩, ⟨g', rfl⟩, _, h'⟩
    · obtain ⟨cause, hcall⟩ := h.removeEdge_refused fun e he heq => hlive ⟨e, he, heq⟩
      rw [hcall]
      exact .inr ⟨hlive, by simp, rfl⟩

theorem granted_iff (h : g.Shape m free []) (edit : Edit) :
    edit.GrantedBy g ↔ edit.Granted m := by
  rcases h.perform_cases edit with ⟨hgranted, hby, _⟩ | ⟨hrefused, hby, _⟩
  · exact iff_of_true hby hgranted
  · exact iff_of_false hby hrefused

theorem perform (h : g.Shape m free []) (edit : Edit) :
    ∃ free', (edit.perform (g, m)).1.Shape (edit.perform (g, m)).2 free' [] := by
  rcases h.perform_cases edit with ⟨_, _, hshape⟩ | ⟨_, _, hsame⟩
  · exact hshape
  · rw [hsame]
    exact ⟨free, h⟩

theorem agrees (h : g.Shape m free []) : g.Agrees m where
  nodeCount := h.size_nodes
  edgeCount := h.liveEdges
  edgeSlotCount := by
    have := h.length_cover
    have := h.liveEdges
    simp only [edgeCount, freeSlotCount, edgeSlotCount]
    omega
  node := by
    intro i r hr
    have hid := h.nodeId i r hr
    exact ⟨hid, _, hid ▸ h.node_eq hr, rfl, rfl⟩
  nodeSpan := by
    intro r hr
    obtain ⟨i, hr⟩ := List.mem_iff_getElem?.1 hr
    exact h.nodeId i r hr ▸ h.nodeSpan_eq hr
  edge _ he := h.edge_of_mem he
  slots := List.pairwise_map.1 h.slots_nodup
  edges := by
    have hnodup : g.edges.Nodup := g.edges_sorted.imp fun hlt heq => by simp [heq] at hlt
    have hlive : m.live.Nodup := List.Nodup.of_map _ h.slots_nodup
    exact ⟨(List.perm_ext_iff_of_nodup hnodup hlive).2 h.mem_edges, g.edges_sorted⟩
  edgesOf _ d hn := h.edgesOf_eq hn d
  grants := h.granted_iff

end Shape

end Graph

namespace Edit

/-- Calls that are made in a state of this shape lead to one. -/
theorem performAll_shape (edits : List Edit) {state : Graph × Ledger} {free : List Nat}
    (h : state.1.Shape state.2 free []) :
    ∃ free', (performAll edits state).1.Shape (performAll edits state).2 free' [] := by
  induction edits generalizing state free with
  | nil => exact ⟨free, h⟩
  | cons edit edits ih =>
      obtain ⟨free', h'⟩ := h.perform edit
      exact ih h'

/-- Every run keeps the shape. -/
theorem run_shape (edits : List Edit) :
    ∃ free, (run edits).1.Shape (run edits).2 free [] :=
  performAll_shape edits Graph.Shape.empty

theorem run_append (first later : List Edit) :
    run (first ++ later) = performAll later (run first) :=
  List.foldl_append

/-- After any run of edits on a new graph, also one with forged, stale or missing
arguments, the graph reads like the ledger of the run. -/
theorem run_agrees (edits : List Edit) : (run edits).1.Agrees (run edits).2 := by
  obtain ⟨free, h⟩ := run_shape edits
  exact h.agrees

end Edit

end LabelGraph
