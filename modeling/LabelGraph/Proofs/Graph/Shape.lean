import LabelGraph.Proofs.Graph.Ledger

/-!
The shape of a graph that holds what a ledger says. The chain of every node and
the free list are described by lists of slots, and each slot stores the
neighbours that it has in its list. Every slot is in exactly one of these lists.
Each edit keeps the shape, and none of them ever follows a broken link.
-/

namespace LabelGraph

def Slot.mapLink (f : Link → Link) (s : Slot) : Slot :=
  match s.state with
  | .occupied link => { s with state := .occupied (f link) }
  | .free _ => s

namespace Graph

def relink (j : Option Nat) (f : Link → Link) (g : Graph) : Graph :=
  { g with
    slots :=
      match j with
      | some j => g.slots.modify j (Slot.mapLink f)
      | none => g.slots }

def Holds (g : Graph) (e : Edge) (link : Link) : Prop :=
  g.slots[e.handle.slot]? =
    some { generation := e.handle.generation, state := .occupied link }

/-- The graph holds exactly what the ledger says. The slots in `free` are linked
into the free list in this order; those in `spare` are in no list. -/
structure Shape (g : Graph) (m : Ledger) (free spare : List Nat) : Prop where
  node : ∀ i : Nat, g.nodes[i]? =
    m.nodes[i]?.map fun r => { name := r.name, kind := r.kind, first := (m.chain ⟨i⟩).head? }
  nodeId : ∀ (i : Nat) r, m.nodes[i]? = some r → r.id = ⟨i⟩
  nodeSpan : ∀ i : Nat, g.nodeSpans[i]? = m.nodes[i]?.map (·.span)
  holds : ∀ e ∈ m.live, g.Holds e (m.link e)
  slotSpan : ∀ e ∈ m.live, g.slotSpans[e.handle.slot]? = some e.span
  slotSpans : g.slotSpans.size = g.slots.size
  source : ∀ e ∈ m.live, e.source.index < m.nodes.length
  target : ∀ e ∈ m.live, e.target.index < m.nodes.length
  freeSlot : ∀ i ∈ free, g.slots[i]?.map Slot.state = some (.free (following free i))
  freeHead : g.freeHead = free.head?
  cover : (m.slots ++ free ++ spare).Perm (List.range g.slots.size)
  liveEdges : g.liveEdges = m.live.length
  nodeRoom : m.nodes.length ≤ indexCapacity
  slotRoom : g.slots.size ≤ indexCapacity

variable {g : Graph} {m : Ledger} {free spare : List Nat} {i : Nat}

theorem getElem?_relink (j : Option Nat) (f : Link → Link) (g : Graph) (k : Nat) :
    (g.relink j f).slots[k]? =
      if j = some k then g.slots[k]?.map (Slot.mapLink f) else g.slots[k]? := by
  cases j with
  | none => rfl
  | some j =>
      by_cases h : j = k
      · subst h
        simp [relink, Array.getElem?_modify]
      · simp [relink, Array.getElem?_modify, h]

@[simp] theorem size_relink (j : Option Nat) (f : Link → Link) (g : Graph) :
    (g.relink j f).slots.size = g.slots.size := by
  cases j <;> simp [relink]

/-- Two neighbours are joined over the slot between them. -/
theorem getElem?_join (g : Graph) (previous next : Option Nat) (k : Nat) :
    ((g.relink previous fun before => { before with next }).relink next fun behind =>
        { behind with previous }).slots[k]? =
      g.slots[k]?.map (Slot.mapLink fun link =>
        { link with
          previous := if next = some k then previous else link.previous
          next := if previous = some k then next else link.next }) := by
  rw [getElem?_relink, getElem?_relink]
  cases g.slots[k]? with
  | none => simp
  | some slot =>
    obtain ⟨generation, state⟩ := slot
    cases state <;> by_cases hnext : next = some k <;>
      by_cases hprevious : previous = some k <;> simp [Slot.mapLink, hnext, hprevious]

def Occupied (g : Graph) (j : Nat) : Prop :=
  ∃ generation link, g.slots[j]? = some { generation, state := .occupied link }

theorem Occupied.relink {k : Nat} (h : g.Occupied k) (j : Option Nat) (f : Link → Link) :
    (g.relink j f).Occupied k := by
  obtain ⟨generation, link, hslot⟩ := h
  by_cases hj : j = some k
  · exact ⟨generation, f link, by rw [getElem?_relink, if_pos hj, hslot]; rfl⟩
  · exact ⟨generation, link, by rw [getElem?_relink, if_neg hj, hslot]⟩

theorem modifyLink_ok {j : Nat} (h : g.Occupied j) (f : Link → Link) :
    modifyLink j f g = .ok () (g.relink (some j) f) := by
  obtain ⟨generation, link, h⟩ := h
  simp only [modifyLink, h, relink]
  congr 2
  apply Array.ext_getElem?
  intro k
  by_cases hk : j = k
  · subst hk
    have hj := (Array.getElem?_eq_some_iff.1 h).1
    rw [Array.getElem?_setIfInBounds_self_of_lt hj, Array.getElem?_modify, if_pos rfl, h]
    rfl
  · rw [Array.getElem?_setIfInBounds_ne hk, Array.getElem?_modify, if_neg hk]

/-- Changing a link that need not be there and going on succeeds if it leads to an edge. -/
theorem bind_modifyLink {α : Type} {j : Option Nat} (h : ∀ i, j = some i → g.Occupied i)
    (f : Link → Link) (next : Unit → StoreM Graph α) :
    (match j with
      | some i => do
        let r ← modifyLink i f
        next r
      | _ => next ()) g = next () (g.relink j f) := by
  cases j with
  | none => rfl
  | some i => exact bind_of_ok (modifyLink_ok (h i rfl) f)

theorem occupy_ok {i : Nat} {generation : UInt32}
    (h : g.slots[i]?.map Slot.generation = some generation) (link : Link) (span : Span) :
    occupy i link span g = .ok { slot := i, generation }
      { g with
        slots := g.slots.setIfInBounds i { generation, state := .occupied link }
        slotSpans := g.slotSpans.setIfInBounds i span
        liveEdges := g.liveEdges + 1 } := by
  simp only [occupy, h]

namespace Shape

theorem nodup (h : g.Shape m free spare) : (m.slots ++ free ++ spare).Nodup :=
  h.cover.nodup_iff.2 List.nodup_range

theorem slots_nodup (h : g.Shape m free spare) : m.slots.Nodup :=
  (List.nodup_append.1 (List.nodup_append.1 h.nodup).1).1

theorem free_nodup (h : g.Shape m free spare) : free.Nodup :=
  (List.nodup_append.1 (List.nodup_append.1 h.nodup).1).2.1

theorem not_mem_free (h : g.Shape m free spare) {i : Nat} (hi : i ∈ m.slots) : i ∉ free :=
  fun hf => (List.nodup_append.1 (List.nodup_append.1 h.nodup).1).2.2 i hi i hf rfl

theorem not_mem_spare (h : g.Shape m free spare) {i : Nat} (hi : i ∈ m.slots ++ free) :
    i ∉ spare :=
  fun hs => (List.nodup_append.1 h.nodup).2.2 i hi i hs rfl

theorem length_cover (h : g.Shape m free spare) :
    m.live.length + free.length + spare.length = g.slots.size := by
  simpa [Ledger.slots, Nat.add_assoc] using h.cover.length_eq

theorem mem_cover (h : g.Shape m free spare) (i : Nat) :
    i < g.slots.size ↔ i ∈ m.slots ∨ i ∈ free ∨ i ∈ spare := by
  rw [← List.mem_range, ← h.cover.mem_iff]
  simp

theorem size_nodes (h : g.Shape m free spare) : g.nodes.size = m.nodes.length := by
  have hgraph := h.node m.nodes.length
  have hledger := h.node g.nodes.size
  rw [List.getElem?_eq_none (Nat.le_refl _), Option.map_none, Array.getElem?_eq_none_iff] at hgraph
  rw [Array.getElem?_eq_none (Nat.le_refl _), eq_comm, Option.map_eq_none_iff,
    List.getElem?_eq_none_iff] at hledger
  exact Nat.le_antisymm hgraph hledger

theorem size_nodeSpans (h : g.Shape m free spare) : g.nodeSpans.size = m.nodes.length := by
  have hgraph := h.nodeSpan m.nodes.length
  have hledger := h.nodeSpan g.nodeSpans.size
  rw [List.getElem?_eq_none (Nat.le_refl _), Option.map_none, Array.getElem?_eq_none_iff] at hgraph
  rw [Array.getElem?_eq_none (Nat.le_refl _), eq_comm, Option.map_eq_none_iff,
    List.getElem?_eq_none_iff] at hledger
  exact Nat.le_antisymm hgraph hledger

/-- A member of a chain is the slot of a live edge of its node. -/
theorem edge_of_mem_chain {n : NodeId} {i : Nat} (hi : i ∈ m.chain n) :
    ∃ e ∈ m.live, e.source = n ∧ e.handle.slot = i := by
  obtain ⟨e, he, rfl⟩ := List.mem_map.1 hi
  obtain ⟨he, hsource⟩ := Ledger.mem_owned.1 he
  exact ⟨e, he, hsource, rfl⟩

/-- The links of a chain lead to occupied slots. -/
theorem occupied_of_mem_chain (h : g.Shape m free spare) {n : NodeId} {i : Nat}
    (hi : i ∈ m.chain n) : g.Occupied i := by
  obtain ⟨e, he, _, rfl⟩ := edge_of_mem_chain hi
  exact ⟨_, _, h.holds e he⟩

theorem empty : Graph.empty.Shape {} [] [] where
  node _ := rfl
  nodeId _ _ hr := by cases hr
  nodeSpan _ := rfl
  holds _ he := by cases he
  slotSpan _ he := by cases he
  slotSpans := rfl
  source _ he := by cases he
  target _ he := by cases he
  freeSlot _ hi := by cases hi
  freeHead := rfl
  cover := .refl _
  liveEdges := rfl
  nodeRoom := Nat.zero_le _
  slotRoom := Nat.zero_le _

/-! Creating a node. -/

theorem createNode_ok (h : g.Shape m free spare) (hroom : m.nodes.length < indexCapacity)
    (name : Symbol) (kind : NodeKind) (span : Span) :
    ∃ g', createNode name kind span g = .ok ⟨m.nodes.length⟩ g' ∧
      g'.Shape (m.addNode { id := ⟨m.nodes.length⟩, name, kind, span }) free spare := by
  have hsize := h.size_nodes
  have hspans := h.size_nodeSpans
  refine ⟨_, by rw [createNode, if_pos (hsize ▸ hroom), hsize], ?_⟩
  -- No live edge can have the new node as its source.
  have hchain : m.chain ⟨m.nodes.length⟩ = [] := by
    apply List.eq_nil_iff_forall_not_mem.2
    intro i hi
    obtain ⟨e, he, hsource, _⟩ := edge_of_mem_chain hi
    have := h.source e he
    rw [hsource] at this
    exact Nat.lt_irrefl _ this
  have hlookup (i : Nat) :
      (m.nodes ++ [{ id := ⟨m.nodes.length⟩, name, kind, span }])[i]? =
        if i = m.nodes.length then some { id := ⟨m.nodes.length⟩, name, kind, span }
        else m.nodes[i]? := by
    rw [← List.getElem?_toArray, ← List.push_toArray, Array.getElem?_push, List.size_toArray,
      List.getElem?_toArray]
  refine
    { h with
      node := ?_
      nodeId := ?_
      nodeSpan := ?_
      source := fun e he => Nat.lt_of_lt_of_le (h.source e he) (by simp)
      target := fun e he => Nat.lt_of_lt_of_le (h.target e he) (by simp)
      nodeRoom := by simpa using Nat.succ_le_of_lt hroom }
  · intro i
    change _ = (m.nodes ++ [_])[i]?.map fun r : NodeRecord => (⟨_, _, (m.chain ⟨i⟩).head?⟩ : Node)
    rw [hlookup, Array.getElem?_push, hsize]
    split
    · next hi =>
      subst hi
      simp [hchain]
    · exact h.node i
  · intro i r hr
    simp only [Ledger.nodes_addNode, hlookup] at hr
    split at hr
    · next hi =>
      cases hr
      rw [hi]
    · exact h.nodeId i r hr
  · intro i
    simp only [Ledger.nodes_addNode, hlookup, Array.getElem?_push, hspans]
    split
    · rfl
    · exact h.nodeSpan i

theorem createNode_full (h : g.Shape m free spare) (hfull : indexCapacity ≤ m.nodes.length)
    (name : Symbol) (kind : NodeKind) (span : Span) :
    createNode name kind span g = .error (.capacityExceeded .node indexCapacity) g := by
  rw [createNode, if_neg]
  rw [h.size_nodes]
  exact Nat.not_lt.2 hfull

/-! Taking a slot. -/

/-- The slot comes from the head of the free list, or is a new one behind all others. -/
theorem takeSlot_ok (h : g.Shape m free []) (hroom : m.live.length < indexCapacity) :
    ∃ i g' rest, takeSlot g = .ok i g' ∧ g'.Shape m rest [i] ∧ g'.nodes = g.nodes ∧
      (free = i :: rest ∨ free = [] ∧ rest = [] ∧ i = g.slots.size) := by
  cases hfree : free with
  | cons i rest =>
    subst hfree
    have hslot := h.freeSlot i List.mem_cons_self
    have hnot := (List.nodup_cons.1 h.free_nodup).1
    refine ⟨i, { g with freeHead := rest.head? }, rest, ?_, ?_, rfl, .inl rfl⟩
    · simp only [following, if_true] at hslot
      simp only [takeSlot, h.freeHead, List.head?_cons, hslot]
    · refine { h with freeSlot := ?_, freeHead := rfl, cover := ?_ }
      · intro k hk
        have hne : k ≠ i := by
          intro heq
          apply hnot
          exact heq ▸ hk
        simpa [following, hne] using h.freeSlot k (List.mem_cons_of_mem i hk)
      · refine .trans ?_ h.cover
        rw [List.append_nil, List.append_assoc]
        exact List.perm_append_comm.append_left _ |>.trans (by simp)
  | nil =>
    subst hfree
    have hsize : g.slots.size = m.live.length := by simpa using h.length_cover.symm
    refine ⟨g.slots.size,
      { g with slots := g.slots.push .fresh, slotSpans := g.slotSpans.push .zero }, [],
      ?_, ?_, rfl, .inr ⟨rfl, rfl, rfl⟩⟩
    · simp only [takeSlot, h.freeHead, List.head?_nil]
      rw [if_pos (hsize ▸ hroom)]
    · have hold : ∀ e ∈ m.live, e.handle.slot ≠ g.slots.size := by
        intro e he heq
        have := (h.mem_cover e.handle.slot).2 (.inl (Ledger.mem_slots he))
        exact Nat.lt_irrefl _ (heq ▸ this)
      refine
        { h with
          holds := ?_
          slotSpan := ?_
          slotSpans := by simp [h.slotSpans]
          freeSlot := fun _ hk => by cases hk
          freeHead := h.freeHead
          cover := ?_
          slotRoom := by simpa [hsize] using Nat.succ_le_of_lt hroom }
      · intro e he
        simp only [Holds, Array.getElem?_push, if_neg (hold e he)]
        exact h.holds e he
      · intro e he
        simp only [Array.getElem?_push, h.slotSpans, if_neg (hold e he)]
        exact h.slotSpan e he
      · simpa [List.range_succ] using h.cover.append_right [g.slots.size]

theorem takeSlot_full (h : g.Shape m free []) (hfull : indexCapacity ≤ m.live.length) :
    takeSlot g = .error (.capacityExceeded .edge indexCapacity) g := by
  have hcover := h.length_cover
  have hroom := h.slotRoom
  have hnil : free = [] := by
    apply List.eq_nil_of_length_eq_zero
    simp only [List.length_nil] at hcover
    omega
  simp only [takeSlot, h.freeHead, hnil, List.head?_nil]
  rw [if_neg]
  simp only [hnil, List.length_nil] at hcover
  omega

/-! Adding an edge. -/

theorem node_addEdge (h : g.Shape m free spare) (e : Edge) (k : Nat) :
    (g.nodes.modify e.source.index fun node => { node with first := some e.handle.slot })[k]? =
      m.nodes[k]?.map fun r =>
        { name := r.name, kind := r.kind, first := ((m.addEdge e).chain ⟨k⟩).head? } := by
  rw [Array.getElem?_modify, h.node k, Ledger.chain_addEdge]
  by_cases hk : e.source.index = k
  · subst hk
    cases m.nodes[e.source.index]? <;> simp
  · have hne : e.source ≠ ⟨k⟩ := by
      intro heq
      apply hk
      rw [heq]
    rw [if_neg hk, if_neg hne]

/-- A slot that was taken becomes the head of the chain of its node. The edge that was
the head before gets it as its previous one. -/
theorem occupy (h : g.Shape m free [i]) {e : Edge} (hslot : e.handle.slot = i)
    (hsource : e.source.index < m.nodes.length) (htarget : e.target.index < m.nodes.length) :
    Shape
      { g with
        nodes := g.nodes.modify e.source.index fun node => { node with first := some i }
        slots := (g.relink (m.chain e.source).head? fun link =>
            { link with previous := some i }).slots.setIfInBounds i
          { generation := e.handle.generation, state := .occupied ((m.addEdge e).link e) }
        slotSpans := g.slotSpans.setIfInBounds i e.span
        liveEdges := g.liveEdges + 1 }
      (m.addEdge e) free [] := by
  subst hslot
  have hi : e.handle.slot < g.slots.size := (h.mem_cover _).2 (by simp)
  have hfresh : ∀ k ∈ m.slots ++ free, k ≠ e.handle.slot :=
    fun k hk heq => h.not_mem_spare hk (by simp [heq])
  have hslots (k : Nat) (hk : k ≠ e.handle.slot) (slot : Slot) :
      ((g.relink (m.chain e.source).head? fun link =>
        { link with previous := some e.handle.slot }).slots.setIfInBounds e.handle.slot slot)[k]? =
      if (m.chain e.source).head? = some k then
        g.slots[k]?.map (Slot.mapLink fun link => { link with previous := some e.handle.slot })
      else g.slots[k]? := by
    rw [Array.getElem?_setIfInBounds_ne hk.symm, getElem?_relink]
  refine
    { h with
      node := ?_
      holds := ?_
      slotSpan := ?_
      slotSpans := by simp [h.slotSpans]
      source := ?_
      target := ?_
      freeSlot := ?_
      cover := ?_
      liveEdges := by simp [h.liveEdges]
      slotRoom := by simpa using h.slotRoom }
  · exact h.node_addEdge e
  · intro f hf
    rcases List.mem_append.1 hf with hf | hf
    · have hne := hfresh _ (List.mem_append_left _ (Ledger.mem_slots hf))
      have hold : g.slots[f.handle.slot]? = _ := h.holds f hf
      simp only [Holds, hslots _ hne, Ledger.link_addEdge_old h.slots_nodup hf hne]
      by_cases hhead : (m.chain e.source).head? = some f.handle.slot
      · rw [if_pos hhead, if_pos hhead, hold]
        rfl
      · rw [if_neg hhead, if_neg hhead, hold]
    · obtain rfl := List.mem_singleton.1 hf
      exact Array.getElem?_setIfInBounds_self_of_lt (by rwa [size_relink])
  · intro f hf
    rcases List.mem_append.1 hf with hf | hf
    · have hne := hfresh _ (List.mem_append_left _ (Ledger.mem_slots hf))
      rw [Array.getElem?_setIfInBounds_ne hne.symm]
      exact h.slotSpan f hf
    · obtain rfl := List.mem_singleton.1 hf
      exact Array.getElem?_setIfInBounds_self_of_lt (by rwa [h.slotSpans])
  · intro f hf
    rcases List.mem_append.1 hf with hf | hf
    · exact h.source f hf
    · obtain rfl := List.mem_singleton.1 hf
      exact hsource
  · intro f hf
    rcases List.mem_append.1 hf with hf | hf
    · exact h.target f hf
    · obtain rfl := List.mem_singleton.1 hf
      exact htarget
  · intro k hk
    have hhead : (m.chain e.source).head? ≠ some k := by
      intro heq
      exact h.not_mem_free (Ledger.mem_slots_of_mem_chain (List.mem_of_head? heq)) hk
    rw [hslots k (hfresh k (List.mem_append_right _ hk)), if_neg hhead]
    exact h.freeSlot k hk
  · rw [Ledger.slots_addEdge, Array.size_setIfInBounds, size_relink]
    refine .trans ?_ h.cover
    simpa using (List.perm_append_singleton e.handle.slot free).symm.append_left m.slots

theorem requireNode_ok (h : g.Shape m free spare) {n : NodeId}
    (hn : n.index < m.nodes.length) : requireNode n g = .ok () g := by
  rw [requireNode, if_pos (h.size_nodes ▸ hn)]

theorem requireNode_missing (h : g.Shape m free spare) {n : NodeId}
    (hn : ¬ n.index < m.nodes.length) :
    requireNode n g = .error (.invalidIndex .node n.index m.nodes.length) g := by
  rw [requireNode, h.size_nodes, if_neg hn]

/-- An edge between nodes of the graph is added as long as a slot is left for it. -/
theorem addEdge_ok (h : g.Shape m free []) {source target : NodeId}
    (hsource : source.index < m.nodes.length) (htarget : target.index < m.nodes.length)
    (hroom : m.live.length < indexCapacity) (label : Symbol) (direction : Direction)
    (span : Span) :
    ∃ handle g' rest, addEdge source target label direction span g = .ok handle g' ∧
      g'.Shape (m.addEdge { handle, source, target, label, direction, span }) rest [] ∧
      (free = handle.slot :: rest ∨ free = [] ∧ rest = [] ∧ handle.slot = g.slots.size) := by
  obtain ⟨i, g₁, rest, htake, h₁, hnodes, hfree⟩ := h.takeSlot_ok hroom
  have hi : i < g₁.slots.size := (h₁.mem_cover i).2 (by simp)
  have hnot : i ∉ m.slots := by
    intro hi
    exact h₁.not_mem_spare (List.mem_append_left _ hi) (by simp)
  let e : Edge :=
    { handle := { slot := i, generation := g₁.slots[i].generation }, source, target, label,
      direction, span }
  have hnext : g₁.nodes[source.index]?.bind Node.first = (m.chain source).head? := by
    rw [h₁.node, List.getElem?_eq_getElem hsource]
    rfl
  have hhead : ∀ j, (m.chain source).head? = some j → g₁.Occupied j := by
    intro j hj
    exact h₁.occupied_of_mem_chain (List.mem_of_head? hj)
  have hslot : (g₁.relink (m.chain source).head? fun link =>
      { link with previous := some i }).slots[i]?.map Slot.generation =
        some g₁.slots[i].generation := by
    rw [getElem?_relink, if_neg, Array.getElem?_eq_getElem hi]
    · rfl
    · intro hhead
      apply hnot
      exact Ledger.mem_slots_of_mem_chain (List.mem_of_head? hhead)
  have hlink : (m.addEdge e).link e = _ := Ledger.link_addEdge_new h.slots_nodup hnot
  refine ⟨e.handle, _, rest, ?_, h₁.occupy rfl hsource htarget, hfree⟩
  simp only [addEdge]
  rw [bind_of_ok (h.requireNode_ok hsource), bind_of_ok (h.requireNode_ok htarget),
    bind_of_ok htake, bind_get, hnext]
  refine (bind_modifyLink hhead _ _).trans ?_
  rw [bind_of_ok (occupy_ok hslot _ _), ← hlink]
  rfl

theorem addEdge_badSource (h : g.Shape m free spare) {source : NodeId}
    (hsource : ¬ source.index < m.nodes.length) (target : NodeId) (label : Symbol)
    (direction : Direction) (span : Span) :
    addEdge source target label direction span g =
      .error (.invalidIndex .node source.index m.nodes.length) g := by
  simp only [addEdge]
  exact bind_of_error (h.requireNode_missing hsource)

theorem addEdge_badTarget (h : g.Shape m free spare) {source target : NodeId}
    (hsource : source.index < m.nodes.length) (htarget : ¬ target.index < m.nodes.length)
    (label : Symbol) (direction : Direction) (span : Span) :
    addEdge source target label direction span g =
      .error (.invalidIndex .node target.index m.nodes.length) g := by
  simp only [addEdge]
  rw [bind_of_ok (h.requireNode_ok hsource)]
  exact bind_of_error (h.requireNode_missing htarget)

theorem addEdge_full (h : g.Shape m free []) {source target : NodeId}
    (hsource : source.index < m.nodes.length) (htarget : target.index < m.nodes.length)
    (hfull : indexCapacity ≤ m.live.length) (label : Symbol) (direction : Direction)
    (span : Span) :
    addEdge source target label direction span g =
      .error (.capacityExceeded .edge indexCapacity) g := by
  simp only [addEdge]
  rw [bind_of_ok (h.requireNode_ok hsource), bind_of_ok (h.requireNode_ok htarget)]
  exact bind_of_error (h.takeSlot_full hfull)

/-! Removing an edge. -/

theorem liveLink_of_mem (h : g.Shape m free spare) {e : Edge} (he : e ∈ m.live) :
    g.liveLink e.handle = .ok (m.link e) := by
  have hslot : g.slots[e.handle.slot]? = _ := h.holds e he
  simp [liveLink, hslot, Slot.link?]

/-- A handle is refused unless it belongs to a live edge. -/
theorem liveLink_of_not_mem (h : g.Shape m free []) {handle : EdgeHandle}
    (hnot : ∀ e ∈ m.live, e.handle ≠ handle) :
    ∃ cause, g.liveLink handle = .error cause := by
  simp only [liveLink]
  split
  · exact ⟨_, rfl⟩
  · next slot hslot =>
    split
    · exact ⟨_, rfl⟩
    · next link hlink =>
      split
      · next hgeneration =>
        exfalso
        have hinside : handle.slot < g.slots.size := (Array.getElem?_eq_some_iff.1 hslot).1
        rcases (h.mem_cover _).1 hinside with hlive | hfree | hspare
        · obtain ⟨e, he, heq⟩ := List.mem_map.1 hlive
          have hold : g.slots[e.handle.slot]? = _ := h.holds e he
          rw [heq, hslot] at hold
          cases hold
          apply hnot e he
          cases h : e.handle
          cases handle
          simp_all
        · have hold := h.freeSlot _ hfree
          rw [hslot] at hold
          simp [Slot.link?, Option.some.inj hold] at hlink
        · cases hspare
      · exact ⟨_, rfl⟩

theorem node_removeEdge (h : g.Shape m free spare) {e : Edge} (he : e ∈ m.live) (k : Nat) :
    (match (m.link e).previous with
      | some _ => g.nodes
      | none => g.nodes.modify e.source.index fun node =>
          { node with first := (m.link e).next })[k]? =
      m.nodes[k]?.map fun r =>
        { name := r.name, kind := r.kind
          first := ((m.removeEdge e.handle).chain ⟨k⟩).head? } := by
  have hnodup := h.slots_nodup
  have hmem : e.handle.slot ∈ m.chain e.source := (Ledger.mem_chain hnodup he).2 rfl
  have hhead : (m.link e).previous = none ↔ (m.chain e.source).head? = some e.handle.slot :=
    preceding_eq_none_iff (Ledger.chain_nodup hnodup e.source) hmem
  rw [Ledger.chain_removeEdge hnodup he, head?_erase]
  by_cases hk : e.source.index = k
  · subst hk
    cases hprevious : (m.link e).previous with
    | none =>
      rw [if_pos (hhead.1 hprevious), Array.getElem?_modify, if_pos rfl, h.node]
      cases m.nodes[e.source.index]? <;> rfl
    | some j =>
      rw [if_neg fun heq => by simp [hhead.2 heq] at hprevious]
      exact h.node _
  · have hout : e.handle.slot ∉ m.chain ⟨k⟩ := by
      intro hin
      apply hk
      exact congrArg NodeId.index ((Ledger.mem_chain hnodup he).1 hin)
    rw [if_neg fun heq => hout (List.mem_of_head? heq)]
    cases (m.link e).previous with
    | none =>
      rw [Array.getElem?_modify, if_neg hk]
      exact h.node k
    | some j => exact h.node k

/-- The two neighbours of the edge are joined and its slot becomes the first free one.
Without a previous edge the node gets the next one as its newest. -/
theorem release (h : g.Shape m free []) {e : Edge} (he : e ∈ m.live) :
    Shape
      { g with
        nodes :=
          match (m.link e).previous with
          | some _ => g.nodes
          | none => g.nodes.modify e.source.index fun node => { node with first := (m.link e).next }
        slots := ((g.relink (m.link e).previous fun before =>
            { before with next := (m.link e).next }).relink (m.link e).next fun behind =>
              { behind with previous := (m.link e).previous }).slots.modify e.handle.slot
          fun slot => slot.release g.freeHead
        slotSpans := g.slotSpans.setIfInBounds e.handle.slot .zero
        freeHead := some e.handle.slot
        liveEdges := g.liveEdges - 1 }
      (m.removeEdge e.handle) (e.handle.slot :: free) [] := by
  have hnodup := h.slots_nodup
  have hperm := Ledger.live_perm_removeEdge hnodup he
  have hother : ∀ f ∈ (m.removeEdge e.handle).live,
      f ∈ m.live ∧ f.handle.slot ≠ e.handle.slot := by
    intro f hf
    obtain ⟨hf, hne⟩ := Ledger.mem_removeEdge.1 hf
    exact ⟨hf, fun heq => hne (by rw [Ledger.slot_inj hnodup hf he heq])⟩
  have hslots (k : Nat) (hk : k ≠ e.handle.slot) :
      (((g.relink (m.link e).previous fun before =>
        { before with next := (m.link e).next }).relink (m.link e).next fun behind =>
          { behind with previous := (m.link e).previous }).slots.modify e.handle.slot
        fun slot => slot.release g.freeHead)[k]? =
      g.slots[k]?.map (Slot.mapLink fun link =>
        { link with
          previous := if (m.link e).next = some k then (m.link e).previous else link.previous
          next := if (m.link e).previous = some k then (m.link e).next else link.next }) := by
    rw [Array.getElem?_modify, if_neg hk.symm, getElem?_join]
  refine
    { h with
      node := ?_
      holds := ?_
      slotSpan := ?_
      slotSpans := by simp [h.slotSpans]
      source := fun f hf => h.source f (hother f hf).1
      target := fun f hf => h.target f (hother f hf).1
      freeSlot := ?_
      freeHead := rfl
      cover := ?_
      liveEdges := by simp [h.liveEdges, hperm.length_eq]
      slotRoom := by simpa using h.slotRoom }
  · exact h.node_removeEdge he
  · intro f hf
    obtain ⟨hf, hne⟩ := hother f hf
    have hold : g.slots[f.handle.slot]? = _ := h.holds f hf
    rw [Holds, hslots _ hne, hold, Ledger.link_removeEdge hnodup he hf hne]
    rfl
  · intro f hf
    obtain ⟨hf, hne⟩ := hother f hf
    rw [Array.getElem?_setIfInBounds_ne hne.symm]
    exact h.slotSpan f hf
  · intro k hk
    rcases List.mem_cons.1 hk with rfl | hk
    · have hinside : e.handle.slot < g.slots.size :=
        (h.mem_cover _).2 (.inl (Ledger.mem_slots he))
      rw [Array.getElem?_modify, if_pos rfl, Array.getElem?_eq_getElem (by simpa [size_relink])]
      simp [Slot.release, following, h.freeHead]
    · have hne : k ≠ e.handle.slot := by
        intro heq
        exact h.not_mem_free (Ledger.mem_slots he) (heq ▸ hk)
      have hold := h.freeSlot k hk
      rw [hslots k hne, following, if_neg hne, ← hold]
      cases hslot : g.slots[k]? with
      | none => rfl
      | some slot =>
        rw [hslot] at hold
        simp [Slot.mapLink, Option.some.inj hold]
  · have hcover := h.cover
    simp only [List.append_nil, Array.size_modify, size_relink] at hcover ⊢
    exact (List.perm_middle.trans ((hperm.map _).symm.append_right free)).trans hcover

theorem removeEdge_ok (h : g.Shape m free []) {e : Edge} (he : e ∈ m.live) :
    ∃ g', removeEdge e.handle g = .ok () g' ∧
      g'.Shape (m.removeEdge e.handle) (e.handle.slot :: free) [] := by
  refine ⟨_, ?_, h.release he⟩
  have hlive : requireLive e.handle g = .ok (m.link e) g := by
    simp only [requireLive, h.liveLink_of_mem he]
  have hneighbour : ∀ j ∈ m.chain e.source, g.Occupied j := by
    intro j hj
    exact h.occupied_of_mem_chain hj
  have hnext : ∀ j, (m.link e).next = some j → g.Occupied j := by
    intro j hj
    apply hneighbour j
    exact following_mem hj
  simp only [removeEdge]
  rw [bind_of_ok hlive]
  cases hprevious : (m.link e).previous with
  | none =>
    refine (bind_modify _ _).trans ?_
    refine (bind_modifyLink ?_ _ _).trans rfl
    exact hnext
  | some j =>
    refine (bind_of_ok (modifyLink_ok (hneighbour j (preceding_mem hprevious)) _)).trans ?_
    exact bind_modifyLink (fun i hi => (hnext i hi).relink _ _) _ _

theorem removeEdge_refused (h : g.Shape m free []) {handle : EdgeHandle}
    (hnot : ∀ e ∈ m.live, e.handle ≠ handle) :
    ∃ cause, removeEdge handle g = .error cause g := by
  obtain ⟨cause, hcause⟩ := h.liveLink_of_not_mem hnot
  refine ⟨cause, ?_⟩
  simp only [removeEdge]
  exact bind_of_error (by simp only [requireLive, hcause])

end Shape

end Graph

end LabelGraph
