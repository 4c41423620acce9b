import LabelGraph.Graph.Edit
import LabelGraph.Proofs.Graph.Chain

/-!
A plain account of what a graph holds: the nodes that were created and the edges
that were added and not removed, each with everything that was given for it. The
account knows no slots to be used again and no links. A run of edits keeps the
account beside the graph.
-/

namespace LabelGraph

structure NodeRecord where
  id : NodeId
  name : Symbol
  kind : NodeKind
  span : Span
deriving DecidableEq, Repr

/-- Nodes and live edges in the order of their creation. -/
structure Ledger where
  nodes : List NodeRecord := []
  live : List Edge := []
deriving DecidableEq, Repr

namespace Ledger

def addNode (m : Ledger) (r : NodeRecord) : Ledger := { m with nodes := m.nodes ++ [r] }

def addEdge (m : Ledger) (e : Edge) : Ledger := { m with live := m.live ++ [e] }

def removeEdge (m : Ledger) (h : EdgeHandle) : Ledger :=
  { m with live := m.live.filter (·.handle ≠ h) }

@[simp] theorem nodes_addNode (m : Ledger) (r : NodeRecord) :
    (m.addNode r).nodes = m.nodes ++ [r] := rfl

@[simp] theorem live_addNode (m : Ledger) (r : NodeRecord) : (m.addNode r).live = m.live := rfl

@[simp] theorem nodes_addEdge (m : Ledger) (e : Edge) : (m.addEdge e).nodes = m.nodes := rfl

@[simp] theorem live_addEdge (m : Ledger) (e : Edge) : (m.addEdge e).live = m.live ++ [e] := rfl

@[simp] theorem nodes_removeEdge (m : Ledger) (h : EdgeHandle) :
    (m.removeEdge h).nodes = m.nodes := rfl

def slots (m : Ledger) : List Nat := m.live.map (·.handle.slot)

def owned (m : Ledger) (n : NodeId) : List Edge := (m.live.filter (·.source = n)).reverse

def chain (m : Ledger) (n : NodeId) : List Nat := (m.owned n).map (·.handle.slot)

/-- What the slot of a live edge stores: the fields of the edge, and the slots beside
its own in the chain of its source. -/
def link (m : Ledger) (e : Edge) : Link :=
  { owner := e.source, target := e.target, label := e.label, direction := e.direction
    previous := preceding (m.chain e.source) e.handle.slot
    next := following (m.chain e.source) e.handle.slot }

end Ledger

inductive Edit where
  | createNode (name : Symbol) (kind : NodeKind) (span : Span)
  | addEdge (source target : NodeId) (label : Symbol) (direction : Direction) (span : Span)
  | removeEdge (handle : EdgeHandle)
deriving DecidableEq, Repr

namespace Edit

/-- Makes the call. If it is granted, it is written into the ledger as well. -/
def perform : Edit → Graph × Ledger → Graph × Ledger
  | createNode name kind span, (g, m) =>
    match Graph.createNode name kind span g with
    | .ok id g => (g, m.addNode { id, name, kind, span })
    | .error _ g => (g, m)
  | addEdge source target label direction span, (g, m) =>
    match Graph.addEdge source target label direction span g with
    | .ok handle g => (g, m.addEdge { handle, source, target, label, direction, span })
    | .error _ g => (g, m)
  | removeEdge handle, (g, m) =>
    match Graph.removeEdge handle g with
    | .ok _ g => (g, m.removeEdge handle)
    | .error _ g => (g, m)

def performAll (edits : List Edit) (state : Graph × Ledger) : Graph × Ledger :=
  edits.foldl (fun state edit => edit.perform state) state

def run (edits : List Edit) : Graph × Ledger :=
  edits.foldl (fun state edit => edit.perform state) (Graph.empty, {})

def Granted (m : Ledger) : Edit → Prop
  | createNode .. => m.nodes.length < indexCapacity
  | addEdge source target .. =>
    source.index < m.nodes.length ∧ target.index < m.nodes.length ∧
      m.live.length < indexCapacity
  | removeEdge handle => ∃ e ∈ m.live, e.handle = handle

def GrantedBy (g : Graph) : Edit → Prop
  | createNode name kind span => ∃ n g', Graph.createNode name kind span g = .ok n g'
  | addEdge source target label direction span =>
    ∃ h g', Graph.addEdge source target label direction span g = .ok h g'
  | removeEdge handle => ∃ g', Graph.removeEdge handle g = .ok () g'

end Edit

namespace Ledger

variable {m : Ledger}

theorem mem_owned {n : NodeId} {e : Edge} : e ∈ m.owned n ↔ e ∈ m.live ∧ e.source = n := by
  simp [owned]

theorem mem_slots {e : Edge} (he : e ∈ m.live) : e.handle.slot ∈ m.slots :=
  List.mem_map_of_mem he

/-- Live edges are told apart by their slots. -/
theorem slot_inj (hm : m.slots.Nodup) {e f : Edge} (he : e ∈ m.live) (hf : f ∈ m.live)
    (h : e.handle.slot = f.handle.slot) : e = f :=
  List.inj_on_of_nodup_map hm he hf h

theorem mem_chain (hm : m.slots.Nodup) {n : NodeId} {e : Edge} (he : e ∈ m.live) :
    e.handle.slot ∈ m.chain n ↔ e.source = n := by
  simp only [chain, List.mem_map, mem_owned]
  constructor
  · rintro ⟨f, ⟨hf, rfl⟩, hslot⟩
    rw [slot_inj hm hf he hslot]
  · intro hsource
    exact ⟨e, ⟨he, hsource⟩, rfl⟩

theorem mem_slots_of_mem_chain {n : NodeId} {i : Nat} (hi : i ∈ m.chain n) : i ∈ m.slots := by
  obtain ⟨e, he, rfl⟩ := List.mem_map.1 hi
  exact mem_slots (mem_owned.1 he).1

theorem chain_nodup (hm : m.slots.Nodup) (n : NodeId) : (m.chain n).Nodup := by
  have hfilter : ((m.live.filter (·.source = n)).map (·.handle.slot)).Nodup :=
    hm.sublist (List.filter_sublist.map _)
  rw [chain, owned, List.map_reverse]
  exact List.nodup_reverse.2 hfilter

theorem chain_addEdge (e : Edge) (n : NodeId) :
    (m.addEdge e).chain n = if e.source = n then e.handle.slot :: m.chain n else m.chain n := by
  by_cases h : e.source = n <;> simp [chain, owned, addEdge, h]

/-- Taking an edge out by its handle takes its slot out of the chain of its source. -/
theorem chain_removeEdge (hm : m.slots.Nodup) {e : Edge} (he : e ∈ m.live) (n : NodeId) :
    (m.removeEdge e.handle).chain n = (m.chain n).erase e.handle.slot := by
  have howned : (m.removeEdge e.handle).owned n = (m.owned n).filter (·.handle ≠ e.handle) := by
    simp only [owned, removeEdge, List.filter_reverse, List.filter_filter]
    congr 1
    exact List.filter_congr fun f _ => Bool.and_comm _ _
  rw [(chain_nodup hm n).erase_eq_filter, chain, chain, List.filter_map, howned]
  congr 1
  apply List.filter_congr
  intro f hf
  have hinj := slot_inj hm (mem_owned.1 hf).1 he
  have hsame : f.handle = e.handle ↔ f.handle.slot = e.handle.slot :=
    ⟨fun h => by rw [h], fun h => by rw [hinj h]⟩
  rw [Bool.eq_iff_iff]
  simp [hsame]

@[simp] theorem slots_addEdge (e : Edge) : (m.addEdge e).slots = m.slots ++ [e.handle.slot] := by
  simp [slots, addEdge]

/-- A removal takes out one live edge and nothing else. -/
theorem live_perm_removeEdge (hm : m.slots.Nodup) {e : Edge} (he : e ∈ m.live) :
    m.live.Perm (e :: (m.removeEdge e.handle).live) := by
  have hnodup : m.live.Nodup := List.Nodup.of_map _ hm
  have herase : (m.removeEdge e.handle).live = m.live.erase e := by
    rw [hnodup.erase_eq_filter]
    apply List.filter_congr
    intro f hf
    have hsame : f.handle = e.handle ↔ f = e :=
      ⟨fun h => slot_inj hm hf he (by rw [h]), fun h => by rw [h]⟩
    rw [Bool.eq_iff_iff]
    simp [hsame]
  rw [herase]
  exact List.perm_cons_erase he

@[simp] theorem mem_removeEdge {f : Edge} {h : EdgeHandle} :
    f ∈ (m.removeEdge h).live ↔ f ∈ m.live ∧ f.handle ≠ h := by
  simp [removeEdge]

/-! How an edit changes the links of the live edges. -/

/-- A new edge stands in front of the chain of its source. -/
theorem link_addEdge_new {e : Edge} (hm : m.slots.Nodup) (he : e.handle.slot ∉ m.slots) :
    (m.addEdge e).link e =
      { owner := e.source, target := e.target, label := e.label, direction := e.direction
        previous := none, next := (m.chain e.source).head? } := by
  have hnot : e.handle.slot ∉ m.chain e.source := by
    intro h
    apply he
    exact mem_slots_of_mem_chain h
  have hnodup : (e.handle.slot :: m.chain e.source).Nodup :=
    List.nodup_cons.2 ⟨hnot, chain_nodup hm _⟩
  rw [link, chain_addEdge, if_pos rfl, preceding_head hnodup rfl, following, if_pos rfl]

/-- An old edge notices a new one only at the head of the same chain. -/
theorem link_addEdge_old {e f : Edge} (hm : m.slots.Nodup) (hf : f ∈ m.live)
    (hne : f.handle.slot ≠ e.handle.slot) :
    (m.addEdge e).link f =
      if (m.chain e.source).head? = some f.handle.slot then
        { m.link f with previous := some e.handle.slot }
      else m.link f := by
  by_cases hsource : e.source = f.source
  · rw [link, chain_addEdge, if_pos hsource, hsource]
    by_cases hhead : (m.chain f.source).head? = some f.handle.slot
    · simp [link, following, preceding, hne, hhead]
    · simp [link, following, preceding, hne, hhead]
  · have hhead : (m.chain e.source).head? ≠ some f.handle.slot := by
      intro h
      exact hsource ((mem_chain hm hf).1 (List.mem_of_head? h)).symm
    rw [if_neg hhead, link, chain_addEdge, if_neg hsource]
    rfl

/-- A removal joins the two neighbours of the edge that is taken out. -/
theorem link_removeEdge {e f : Edge} (hm : m.slots.Nodup) (he : e ∈ m.live) (hf : f ∈ m.live)
    (hne : f.handle.slot ≠ e.handle.slot) :
    (m.removeEdge e.handle).link f =
      { m.link f with
        previous := if (m.link e).next = some f.handle.slot then (m.link e).previous
          else (m.link f).previous
        next := if (m.link e).previous = some f.handle.slot then (m.link e).next
          else (m.link f).next } := by
  have hchain := chain_nodup hm e.source
  by_cases hsource : f.source = e.source
  · simp only [link, chain_removeEdge hm he, hsource, following_erase hchain hne,
      preceding_erase hchain hne, following_eq_some_iff hchain]
  · have hmem : f.handle.slot ∉ m.chain e.source := by
      intro h
      apply hsource
      exact (mem_chain hm hf).1 h
    have hnext : (m.link e).next ≠ some f.handle.slot := by
      intro h
      apply hmem
      exact following_mem h
    have hprevious : (m.link e).previous ≠ some f.handle.slot := by
      intro h
      apply hmem
      exact preceding_mem h
    have hkeep : e.handle.slot ∉ m.chain f.source := by
      intro h
      exact hsource ((mem_chain hm he).1 h).symm
    rw [if_neg hnext, if_neg hprevious, link, chain_removeEdge hm he,
      List.erase_of_not_mem hkeep]
    rfl

end Ledger

end LabelGraph
