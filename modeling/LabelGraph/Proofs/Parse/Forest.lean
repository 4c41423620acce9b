import LabelGraph.Proofs.Parse.Stage
import Mathlib.Logic.Relation

/-!
The graph of a parse. However far a parse came and however it ended, its nodes have different
names, which are those of the label map, no edge was ever removed, and labels are the only
sources. The edges of blocks lead from a label to a later one that has no other owner, so they
form a forest; all others have the name of their target.
-/

namespace LabelGraph

namespace Parse

def IsReference (p : Parse) (e : Edge) : Prop :=
  ∃ node, p.graph.node e.target = .ok node ∧ node.name = e.label

/-- The edge leads from the owner of a block to a label that was declared later. -/
structure IsContainment (p : Parse) (e : Edge) : Prop where
  label : p.symbols.Spells e.label Keywords.containsLabel
  direction : e.direction = .outgoing
  target : ∃ node, p.graph.node e.target = .ok node ∧ node.kind = .label
  later : e.source.index < e.target.index

def Inside (p : Parse) (n owner : NodeId) : Prop :=
  ∃ e ∈ p.graph.edges, p.symbols.Spells e.label Keywords.containsLabel ∧ e.target = n ∧
    e.source = owner

structure WellBuilt (p : Parse) : Prop where
  names : p.graph.nodes.toList.Pairwise fun a b => a.name ≠ b.name
  labels : ∀ s n, p.labels[s]? = some n ↔ ∃ node, p.graph.node n = .ok node ∧ node.name = s
  find : ∀ s, p.graph.findNode? s = p.labels[s]?
  slots : ∀ slot ∈ p.graph.slots, slot.isFree = false ∧ slot.generation = 0
  complete : p.graph.edges.length = p.graph.edgeSlotCount
  sources : ∀ e ∈ p.graph.edges, ∃ node, p.graph.node e.source = .ok node ∧ node.kind = .label
  edges : ∀ e ∈ p.graph.edges, p.IsReference e ∨ p.IsContainment e
  references : ∀ e ∈ p.graph.edges, p.IsReference e →
    ¬ p.symbols.Spells e.label Keywords.containsLabel
  owners : ∀ e ∈ p.graph.edges, ∀ f ∈ p.graph.edges,
    p.symbols.Spells e.label Keywords.containsLabel →
    p.symbols.Spells f.label Keywords.containsLabel → e.target = f.target → e = f
  forest : ∀ n, ¬ Relation.TransGen p.Inside n n

namespace Formed

variable {p : Parse} {m : Ledger} (hp : p.Formed m)

include hp

theorem mem_of_node {n : NodeId} {node : Node} (hn : p.graph.node n = .ok node) :
    ∃ r ∈ m.nodes, r.id = n ∧ r.name = node.name ∧ r.kind = node.kind := by
  obtain ⟨r, hr, hid, hname, hkind, -⟩ := hp.dense.shape.mem_of_node hn
  exact ⟨r, hr, hid, hname, hkind⟩

theorem labels_iff (s : Symbol) (n : NodeId) :
    p.labels[s]? = some n ↔ ∃ node, p.graph.node n = .ok node ∧ node.name = s := by
  rw [hp.labels]
  constructor
  · rintro ⟨r, hr, hname, rfl⟩
    obtain ⟨first, hnode⟩ := (hp.node_of_mem hr).1
    exact ⟨_, hnode, hname⟩
  · rintro ⟨node, hnode, rfl⟩
    obtain ⟨r, hr, hid, hname, -⟩ := hp.mem_of_node hnode
    exact ⟨r, hr, hname, hid⟩

theorem names_distinct : p.graph.nodes.toList.Pairwise fun a b => a.name ≠ b.name := by
  have hnames := hp.names_nodup
  rwa [← hp.names_eq, List.Nodup, List.pairwise_map] at hnames

/-- The first node with a name is the only one. -/
theorem findNode?_eq (s : Symbol) : p.graph.findNode? s = p.labels[s]? := by
  cases hlabel : p.labels[s]? with
  | none =>
    have hnone : p.graph.nodes.findIdx? (·.name = s) = none := by
      rw [Array.findIdx?_eq_none_iff]
      intro node hnode
      apply decide_eq_false
      rintro rfl
      apply hp.name_new hlabel
      rw [← hp.names_eq]
      exact List.mem_map_of_mem (Array.mem_toList_iff.2 hnode)
    rw [Graph.findNode?, hnone]
    rfl
  | some n =>
    obtain ⟨node, hnode, hname⟩ := (hp.labels_iff s n).1 hlabel
    have hfound : p.graph.nodes[n.index]? = some node := by
      simp only [Graph.node] at hnode
      split at hnode <;> cases hnode
      assumption
    obtain ⟨hlt, hget⟩ := Array.getElem?_eq_some_iff.1 hfound
    have hfirst : p.graph.nodes.findIdx? (·.name = s) = some n.index := by
      rw [Array.findIdx?_eq_some_iff_getElem]
      refine ⟨hlt, decide_eq_true (hget ▸ hname), ?_⟩
      intro j hj
      have hne := List.pairwise_iff_getElem.1 hp.names_distinct j n.index (by simp; omega)
        (by simpa using hlt) hj
      simpa [hget, hname] using hne
    rw [Graph.findNode?, hfirst]
    rfl

/-- Every slot holds an edge, and was never released. -/
theorem slots_taken {slot : Slot} (hslot : slot ∈ p.graph.slots) :
    slot.isFree = false ∧ slot.generation = 0 := by
  obtain ⟨i, hi⟩ := Array.mem_iff_getElem?.1 hslot
  have hinside := (Array.getElem?_eq_some_iff.1 hi).1
  have htaken : i ∈ m.slots := by
    have hcover := (hp.dense.shape.mem_cover i).1 hinside
    simpa using hcover
  obtain ⟨e, he, rfl⟩ := List.mem_map.1 htaken
  have hholds : p.graph.slots[e.handle.slot]? = _ := hp.dense.shape.holds e he
  rw [hi, Option.some.injEq] at hholds
  subst hholds
  exact ⟨rfl, hp.unreleased e he⟩

theorem label_node {n : NodeId} (hn : m.IsLabel n) :
    ∃ node, p.graph.node n = .ok node ∧ node.kind = .label := by
  obtain ⟨r, hr, rfl, hkind⟩ := hn
  obtain ⟨first, hnode⟩ := (hp.node_of_mem hr).1
  exact ⟨_, hnode, hkind⟩

theorem refers_of_reference {e : Edge} (h : p.IsReference e) : m.Refers e := by
  obtain ⟨node, hnode, hname⟩ := h
  obtain ⟨r, hr, hid, hsame, -⟩ := hp.mem_of_node hnode
  exact ⟨r, hr, hid, hsame.trans hname⟩

/-- An edge of a block leads to a node behind its owner, and so does every way along such
edges. -/
theorem index_lt_of_inside {n owner : NodeId} (h : Relation.TransGen p.Inside n owner) :
    owner.index < n.index := by
  have hstep {n owner : NodeId} (h : p.Inside n owner) : owner.index < n.index := by
    obtain ⟨e, he, hlabel, rfl, rfl⟩ := h
    rw [hp.dense.edges] at he
    rcases hp.edges e he with hrefers | hcontains
    · exact absurd hlabel ((hp.refers_iff he).1 hrefers)
    · exact hcontains.later
  induction h with
  | single h => exact hstep h
  | tail _ h ih => exact Nat.lt_trans (hstep h) ih

theorem wellBuilt : p.WellBuilt where
  names := hp.names_distinct
  labels := hp.labels_iff
  find := hp.findNode?_eq
  slots _ hslot := hp.slots_taken hslot
  complete := by
    rw [hp.dense.edges]
    exact hp.dense.shape.length_cover
  sources e he := hp.label_node (hp.sources e (hp.dense.edges ▸ he))
  edges e he := by
    rcases hp.edges e (hp.dense.edges ▸ he) with ⟨r, hr, hid, hname⟩ | hcontains
    · obtain ⟨first, hnode⟩ := (hp.node_of_mem hr).1
      exact .inl ⟨_, hid ▸ hnode, hname⟩
    · exact .inr ⟨hcontains.label, hcontains.direction, hp.label_node hcontains.target,
        hcontains.later⟩
  references e he hreference :=
    (hp.refers_iff (hp.dense.edges ▸ he)).1 (hp.refers_of_reference hreference)
  owners e he f hf hfirst hsecond htarget := by
    rw [hp.dense.edges] at he hf
    have hsymm : Std.Symm fun e f : Edge => ¬ m.Refers e → ¬ m.Refers f → e.target ≠ f.target :=
      ⟨fun _ _ hne hf he => (hne he hf).symm⟩
    by_contra hne
    have hplain {e : Edge} (he : e ∈ m.live)
        (hlabel : p.symbols.Spells e.label Keywords.containsLabel) : ¬ m.Refers e :=
      fun hrefers => (hp.refers_iff he).1 hrefers hlabel
    exact hp.single.forall he hf hne (hplain he hfirst) (hplain hf hsecond) htarget
  forest n h := Nat.lt_irrefl _ (hp.index_lt_of_inside h)

end Formed

end Parse

/-- After any number of steps, whatever the text and the settings are, the graph of a parse is
well built. -/
theorem parse_wellBuilt (source : List UInt8) (settings : Settings) (table? : Option SymbolTable)
    (htable : ∀ t ∈ table?, t.Interned) (k : Nat) :
    (Parse.step^[k] (.opened source settings table?)).WellBuilt := by
  obtain ⟨m, hp⟩ := Parse.steps_formed htable k
  exact hp.wellBuilt

/-- A text with a label inside a block and an external name that is declared again, which a
NUL ends. -/
theorem parse_wellBuilt_block :
    (∀ t ∈ some SymbolTable.empty, t.Interned) ∧ ∀ k,
      (Parse.step^[k] (.opened ".extern c\na: \x7b b: jmp c\nc:\x00".toUTF8.toList {}
        (some .empty))).WellBuilt := by
  have htable : ∀ t ∈ some SymbolTable.empty, t.Interned := by
    rintro _ ⟨⟩
    exact .empty
  exact ⟨htable, fun k => parse_wellBuilt _ _ _ htable k⟩

end LabelGraph
