import LabelGraph.Graph.Check
import LabelGraph.Proofs.Graph.Refinement
import Mathlib.Data.List.Nodup

/-!
The links of a graph fit together after every run of edits. The check accepts a graph whose
chains and whose free list, taken together, lead through every slot once; the shape that
each edit keeps is of this kind. The edits themselves follow links and look into tables, and
are written out here a second time with a test in front of each such access: on no run does
a test fail.
-/

namespace LabelGraph

namespace Graph

variable {g : Graph} {owner : NodeId} {before start : Option Nat} {l : List Nat}
  {seen : Array Bool}

/-- The links lead from `start` through the slots of the list and end there. Each of these
slots is occupied, owned by `owner` and linked back to the one before it. -/
inductive Chained (g : Graph) (owner : NodeId) :
    (before start : Option Nat) → (slots : List Nat) → Prop
  | done {before : Option Nat} : Chained g owner before none []
  | slot {before : Option Nat} {i generation link rest} :
      g.slots[i]? = some { generation, state := .occupied link } →
      link.owner = owner → link.previous = before →
      Chained g owner (some i) link.next rest →
      Chained g owner before (some i) (i :: rest)

/-- The free slots of the list are linked in this order. -/
inductive Vacant (g : Graph) : (start : Option Nat) → (slots : List Nat) → Prop
  | done : Vacant g none []
  | slot {i next rest} :
      g.slots[i]?.map Slot.state = some (.free next) →
      Vacant g next rest →
      Vacant g (some i) (i :: rest)

def marked (seen : Array Bool) (slots : List Nat) : Array Bool :=
  slots.foldl (fun seen i => seen.setIfInBounds i true) seen

theorem marked_append (seen : Array Bool) (first later : List Nat) :
    marked seen (first ++ later) = marked (marked seen first) later :=
  List.foldl_append

@[simp] theorem size_marked (seen : Array Bool) (slots : List Nat) :
    (marked seen slots).size = seen.size := by
  induction slots generalizing seen with
  | nil => rfl
  | cons i slots ih => exact (ih _).trans Array.size_setIfInBounds

theorem getElem?_marked (seen : Array Bool) (slots : List Nat) (k : Nat) :
    (marked seen slots)[k]? =
      if k ∈ slots then seen[k]?.map fun _ => true else seen[k]? := by
  induction slots generalizing seen with
  | nil => rfl
  | cons i slots ih =>
      have hlater : (marked seen (i :: slots))[k]? = _ := ih (seen.setIfInBounds i true)
      rw [hlater, Array.getElem?_setIfInBounds]
      by_cases hi : i = k
      · subst hi
        by_cases hinside : i < seen.size <;> simp [hinside]
      · simp [hi, Ne.symm hi]

/-- A slot that is not in the list is as it was. -/
theorem unseen_marked {first later : List Nat} (hnodup : (first ++ later).Nodup)
    (hunseen : ∀ i ∈ first ++ later, seen[i]? = some false) :
    ∀ i ∈ later, (marked seen first)[i]? = some false := by
  intro i hi
  have hnot : i ∉ first := by
    intro hfirst
    exact (List.nodup_append.1 hnodup).2.2 i hfirst i hi rfl
  rw [getElem?_marked, if_neg hnot]
  exact hunseen i (List.mem_append_right _ hi)

/-! The check passes over such lists. -/

theorem markChain_ok (h : g.Chained owner before start l) (hnodup : l.Nodup)
    (hunseen : ∀ i ∈ l, seen[i]? = some false) :
    g.markChain owner seen before start = .ok (marked seen l) := by
  induction h generalizing seen with
  | done =>
      rw [markChain]
      rfl
  | @slot before i generation link rest hslot howner hback _ ih =>
      have hlink : g.slots[i]?.bind Slot.link? = some link := by
        rw [hslot]
        rfl
      have hi : seen[i]? = some false := hunseen i List.mem_cons_self
      have hmarked : ∀ k ∈ rest, (marked seen [i])[k]? = some false :=
        unseen_marked hnodup hunseen
      have hrest := ih (List.nodup_cons.1 hnodup).2 hmarked
      rw [markChain, hlink]
      simp only
      split
      · rw [if_pos ⟨howner, hback⟩]
        exact hrest
      · next hseen => exact absurd hi hseen

theorem markFree_ok (h : g.Vacant start l) (hnodup : l.Nodup)
    (hunseen : ∀ i ∈ l, seen[i]? = some false) (count : Nat) :
    g.markFree seen count start = .ok (marked seen l, count + l.length) := by
  induction h generalizing seen count with
  | done =>
      rw [markFree]
      rfl
  | @slot i next rest hslot _ ih =>
      have hi : seen[i]? = some false := hunseen i List.mem_cons_self
      have hmarked : ∀ k ∈ rest, (marked seen [i])[k]? = some false :=
        unseen_marked hnodup hunseen
      have hrest := ih (List.nodup_cons.1 hnodup).2 hmarked (count + 1)
      have hcount : count + (i :: rest).length = count + 1 + rest.length := by
        rw [List.length_cons, Nat.add_assoc, Nat.add_comm 1]
      rw [markFree, hslot, hcount]
      simp only
      split
      · exact hrest
      · next hseen => exact absurd hi hseen

theorem markNodes_ok (chain : NodeId → List Nat) (nodes : List Node) (i : Nat)
    (hchain : ∀ k node, nodes[k]? = some node →
      g.Chained ⟨i + k⟩ none node.first (chain ⟨i + k⟩))
    (hnodup : ((List.range' i nodes.length).flatMap fun k => chain ⟨k⟩).Nodup)
    (hunseen : ∀ k ∈ (List.range' i nodes.length).flatMap fun k => chain ⟨k⟩,
      seen[k]? = some false) :
    g.markNodes seen i nodes =
      .ok (marked seen ((List.range' i nodes.length).flatMap fun k => chain ⟨k⟩)) := by
  induction nodes generalizing seen i with
  | nil => rfl
  | cons node nodes ih =>
      rw [List.length_cons, List.range'_succ, List.flatMap_cons] at hnodup hunseen ⊢
      have hfirst : g.markChain ⟨i⟩ seen none node.first = .ok (marked seen (chain ⟨i⟩)) := by
        apply markChain_ok (hchain 0 node rfl) (List.nodup_append.1 hnodup).1
        intro k hk
        exact hunseen k (List.mem_append_left _ hk)
      have hlater : ∀ k later, nodes[k]? = some later →
          g.Chained ⟨i + 1 + k⟩ none later.first (chain ⟨i + 1 + k⟩) := by
        intro k later hk
        rw [Nat.add_assoc, Nat.add_comm 1 k]
        exact hchain (k + 1) later hk
      simp only [markNodes, hfirst]
      rw [ih (i + 1) hlater (List.nodup_append.1 hnodup).2.1 (unseen_marked hnodup hunseen),
        marked_append]

/-- The chains of the nodes and the free list lead through every slot once, and the
occupied slots are counted. -/
structure Consistent (g : Graph) (chain : NodeId → List Nat) (free : List Nat) : Prop where
  chained : ∀ i node, g.nodes[i]? = some node → g.Chained ⟨i⟩ none node.first (chain ⟨i⟩)
  vacant : g.Vacant g.freeHead free
  cover : (((List.range g.nodes.size).flatMap fun i => chain ⟨i⟩) ++ free).Perm
    (List.range g.slots.size)
  count : free.length + g.liveEdges = g.slots.size

theorem Consistent.check {chain : NodeId → List Nat} {free : List Nat}
    (h : g.Consistent chain free) : g.check = .ok () := by
  have hnodup := h.cover.nodup_iff.2 List.nodup_range
  have hunseen : ∀ i ∈ ((List.range g.nodes.size).flatMap fun i => chain ⟨i⟩) ++ free,
      (Array.replicate g.slots.size false)[i]? = some false := by
    intro i hi
    have hinside := List.mem_range.1 (h.cover.mem_iff.1 hi)
    rw [Array.getElem?_replicate, if_pos hinside]
  have hchains : ∀ i ∈ (List.range g.nodes.size).flatMap fun i => chain ⟨i⟩,
      (Array.replicate g.slots.size false)[i]? = some false := by
    intro i hi
    exact hunseen i (List.mem_append_left _ hi)
  have hnodes := markNodes_ok chain g.nodes.toList 0 (by simpa using h.chained)
    (by simpa [← List.range_eq_range'] using (List.nodup_append.1 hnodup).1)
    (by simpa only [Array.length_toList, ← List.range_eq_range'] using hchains)
  have hfree := markFree_ok h.vacant (List.nodup_append.1 hnodup).2.1
    (unseen_marked hnodup hunseen) 0
  -- Every slot is in one of the lists, so it has its mark.
  have hseen : (marked (Array.replicate g.slots.size false)
      (((List.range g.nodes.size).flatMap fun i => chain ⟨i⟩) ++ free)).findIdx? (· == false) =
        none := by
    rw [Array.findIdx?_eq_none_iff]
    intro mark hmark
    obtain ⟨i, hi⟩ := Array.mem_iff_getElem?.1 hmark
    have hinside : i < g.slots.size := by
      have := (Array.getElem?_eq_some_iff.1 hi).1
      simpa using this
    rw [getElem?_marked, if_pos (h.cover.mem_iff.2 (List.mem_range.2 hinside)),
      Array.getElem?_replicate, if_pos hinside] at hi
    cases hi
    rfl
  rw [Array.length_toList, ← List.range_eq_range'] at hnodes
  simp only [Graph.check, hnodes, bind, Except.bind, hfree, ← marked_append, hseen]
  rw [if_pos (by rw [Nat.zero_add]; exact h.count)]

/-! The shape of a graph is consistent. -/

/-- Slots that store their neighbours in a list are linked in the order of the list. -/
theorem chained_of_neighbours (hnodup : l.Nodup)
    (hlinks : ∀ i ∈ l, ∃ generation link,
      g.slots[i]? = some { generation, state := .occupied link } ∧ link.owner = owner ∧
        link.previous = (preceding l i).or before ∧ link.next = following l i) :
    g.Chained owner before l.head? l := by
  induction l generalizing before with
  | nil => exact .done
  | cons i l ih =>
      have hrest := (List.nodup_cons.1 hnodup).2
      obtain ⟨generation, link, hslot, howner, hback, hnext⟩ := hlinks i List.mem_cons_self
      rw [preceding_head hnodup rfl] at hback
      rw [following, if_pos rfl] at hnext
      refine .slot hslot howner hback ?_
      rw [hnext]
      apply ih hrest
      intro k hk
      have hne : k ≠ i := by
        intro heq
        exact (List.nodup_cons.1 hnodup).1 (heq ▸ hk)
      obtain ⟨generation, link, hslot, howner, hback, hnext⟩ :=
        hlinks k (List.mem_cons_of_mem i hk)
      refine ⟨generation, link, hslot, howner, ?_, ?_⟩
      · rw [hback, preceding]
        by_cases hhead : l.head? = some k
        · rw [if_pos hhead, preceding_head hrest hhead]
          rfl
        · rw [if_neg hhead]
          cases hpreceding : preceding l k with
          | none => exact absurd ((preceding_eq_none_iff hrest hk).1 hpreceding) hhead
          | some j => rfl
      · rw [hnext, following, if_neg hne]

theorem vacant_of_following (hnodup : l.Nodup)
    (hslots : ∀ i ∈ l, g.slots[i]?.map Slot.state = some (.free (following l i))) :
    g.Vacant l.head? l := by
  induction l with
  | nil => exact .done
  | cons i l ih =>
      have hslot := hslots i List.mem_cons_self
      rw [following, if_pos rfl] at hslot
      apply Vacant.slot hslot
      apply ih (List.nodup_cons.1 hnodup).2
      intro k hk
      have hne : k ≠ i := by
        intro heq
        exact (List.nodup_cons.1 hnodup).1 (heq ▸ hk)
      have hslot := hslots k (List.mem_cons_of_mem i hk)
      rwa [following, if_neg hne] at hslot

namespace Shape

variable {m : Ledger} {free spare : List Nat}

/-- Every live edge is owned by one node. -/
theorem owned_perm (h : g.Shape m free spare) :
    ((List.range m.nodes.length).flatMap fun i => m.owned ⟨i⟩).Perm m.live := by
  have hlive : m.live.Nodup := List.Nodup.of_map _ h.slots_nodup
  have howned : ((List.range m.nodes.length).flatMap fun i => m.owned ⟨i⟩).Nodup := by
    rw [List.nodup_flatMap]
    refine ⟨fun i _ => List.nodup_reverse.2 (hlive.filter _), ?_⟩
    apply List.nodup_range.imp
    intro i j hne e hi hj
    rw [Ledger.mem_owned] at hi hj
    exact hne (congrArg NodeId.index (hi.2.symm.trans hj.2))
  apply (List.perm_ext_iff_of_nodup howned hlive).2
  intro e
  rw [List.mem_flatMap]
  constructor
  · rintro ⟨i, -, he⟩
    exact (Ledger.mem_owned.1 he).1
  · intro he
    exact ⟨e.source.index, List.mem_range.2 (h.source e he), Ledger.mem_owned.2 ⟨he, rfl⟩⟩

/-- The chains of the nodes have the slots of all live edges. -/
theorem chains_perm (h : g.Shape m free spare) :
    ((List.range m.nodes.length).flatMap fun i => m.chain ⟨i⟩).Perm m.slots := by
  have hslots := h.owned_perm.map (·.handle.slot)
  rwa [List.map_flatMap] at hslots

theorem consistent (h : g.Shape m free []) : g.Consistent m.chain free where
  chained i node hnode := by
    have hledger := h.node i
    rw [hnode, eq_comm, Option.map_eq_some_iff] at hledger
    obtain ⟨r, -, rfl⟩ := hledger
    apply chained_of_neighbours (Ledger.chain_nodup h.slots_nodup ⟨i⟩)
    intro k hk
    obtain ⟨e, he, hsource, rfl⟩ := edge_of_mem_chain hk
    refine ⟨_, _, h.holds e he, hsource, ?_, ?_⟩
    · rw [Option.or_none, Ledger.link, hsource]
    · rw [Ledger.link, hsource]
  vacant := by
    rw [h.freeHead]
    exact vacant_of_following h.free_nodup h.freeSlot
  cover := by
    rw [h.size_nodes]
    have hcover := h.cover
    rw [List.append_nil] at hcover
    exact (h.chains_perm.append_right free).trans hcover
  count := by
    have hlength := h.length_cover
    rw [h.liveEdges, Nat.add_comm]
    simpa using hlength

end Shape

/-! The edits with a test in front of each access to a table. -/

/-- Goes on if the test holds, and reports slot `i` if it fails. -/
def demand (test : Graph → Prop) [DecidablePred test] (i : Nat) : StoreM Graph Unit := fun g =>
  if test g then .ok () g else .error (.brokenLink i) g

theorem bind_demand {α : Type} {test : Graph → Prop} [DecidablePred test] (h : test g) (i : Nat)
    (next : Unit → StoreM Graph α) : (demand test i >>= next) g = next () g :=
  bind_of_ok (by rw [demand, if_pos h])

/-- Adds an edge. The tests are those that `takeSlot` and `modifyLink` lack. -/
def addEdgeTested (source target : NodeId) (label : Symbol) (direction : Direction)
    (span : Span) : StoreM Graph EdgeHandle := do
  requireNode source
  requireNode target
  let i ← takeSlot
  demand (fun g => source.index < g.nodes.size) i
  let next := (← get).nodes[source.index]?.bind Node.first
  if let some j := next then
    modifyLink j fun link => { link with previous := some i }
  demand (fun g => i < g.slots.size ∧ i < g.slotSpans.size) i
  let handle ← occupy i { owner := source, target, label, direction, previous := none, next } span
  demand (fun g => source.index < g.nodes.size) i
  setFirst source (some i)
  return handle

/-- Removes an edge. The tests are those that `modifyLink` lacks, and that there is an edge
to be counted down. -/
def removeEdgeTested (h : EdgeHandle) : StoreM Graph Unit := do
  let link ← requireLive h
  match link.previous with
  | some j => modifyLink j fun before => { before with next := link.next }
  | none =>
    demand (fun g => link.owner.index < g.nodes.size) h.slot
    setFirst link.owner link.next
  if let some j := link.next then
    modifyLink j fun behind => { behind with previous := link.previous }
  demand (fun g => h.slot < g.slots.size ∧ h.slot < g.slotSpans.size) h.slot
  demand (fun g => 0 < g.liveEdges) h.slot
  releaseSlot h.slot

namespace Shape

variable {m : Ledger} {free : List Nat}

/-- Adding an edge passes all tests. -/
theorem addEdgeTested_eq (h : g.Shape m free []) (source target : NodeId) (label : Symbol)
    (direction : Direction) (span : Span) :
    addEdgeTested source target label direction span g =
      addEdge source target label direction span g := by
  simp only [addEdge, addEdgeTested]
  by_cases hsource : source.index < m.nodes.length
  case neg =>
    have hmissing := h.requireNode_missing hsource
    exact (bind_of_error hmissing).trans (bind_of_error hmissing).symm
  by_cases htarget : target.index < m.nodes.length
  case neg =>
    have hmissing := h.requireNode_missing htarget
    rw [bind_of_ok (h.requireNode_ok hsource), bind_of_ok (h.requireNode_ok hsource)]
    exact (bind_of_error hmissing).trans (bind_of_error hmissing).symm
  rw [bind_of_ok (h.requireNode_ok hsource), bind_of_ok (h.requireNode_ok hsource),
    bind_of_ok (h.requireNode_ok htarget), bind_of_ok (h.requireNode_ok htarget)]
  by_cases hroom : m.live.length < indexCapacity
  case neg =>
    have hfull := h.takeSlot_full (Nat.le_of_not_lt hroom)
    exact (bind_of_error hfull).trans (bind_of_error hfull).symm
  obtain ⟨i, g₁, rest, htake, h₁, -, -⟩ := h.takeSlot_ok hroom
  have hi : i < g₁.slots.size := (h₁.mem_cover i).2 (by simp)
  have hnode : source.index < g₁.nodes.size := by rwa [h₁.size_nodes]
  have hnext : g₁.nodes[source.index]?.bind Node.first = (m.chain source).head? := by
    rw [h₁.node, List.getElem?_eq_getElem hsource]
    rfl
  have hhead : ∀ j, (m.chain source).head? = some j → g₁.Occupied j := by
    intro j hj
    exact h₁.occupied_of_mem_chain (List.mem_of_head? hj)
  rw [bind_of_ok htake, bind_of_ok htake, bind_demand hnode, bind_get, bind_get, hnext]
  refine (bind_modifyLink hhead _ _).trans (.trans ?_ (bind_modifyLink hhead _ _).symm)
  -- The slot is inside both of its tables, also after the change to its neighbour.
  have hinside : i < (g₁.relink (m.chain source).head? fun link =>
      { link with previous := some i }).slots.size := by rwa [size_relink]
  have hspan : i < g₁.slotSpans.size := by rwa [h₁.slotSpans]
  refine (bind_demand ⟨hinside, hspan⟩ _ _).trans ?_
  have hgeneration := congrArg (Option.map Slot.generation) (Array.getElem?_eq_getElem hinside)
  rw [bind_of_ok (occupy_ok hgeneration _ _), bind_of_ok (occupy_ok hgeneration _ _),
    bind_demand hnode]

/-- Removing an edge passes all tests. -/
theorem removeEdgeTested_eq (h : g.Shape m free []) (handle : EdgeHandle) :
    removeEdgeTested handle g = removeEdge handle g := by
  simp only [removeEdge, removeEdgeTested]
  by_cases hlive : ∃ e ∈ m.live, e.handle = handle
  case neg =>
    have hnot : ∀ e ∈ m.live, e.handle ≠ handle := by simpa using hlive
    obtain ⟨cause, hcause⟩ := h.liveLink_of_not_mem hnot
    have hrefused : requireLive handle g = .error cause g := by simp only [requireLive, hcause]
    exact (bind_of_error hrefused).trans (bind_of_error hrefused).symm
  obtain ⟨e, he, rfl⟩ := hlive
  have hfound : requireLive e.handle g = .ok (m.link e) g := by
    simp only [requireLive, h.liveLink_of_mem he]
  have hneighbour : ∀ j ∈ m.chain e.source, g.Occupied j := by
    intro j hj
    exact h.occupied_of_mem_chain hj
  have hnext : ∀ j, (m.link e).next = some j → g.Occupied j := by
    intro j hj
    apply hneighbour j
    exact following_mem hj
  have hnode : (m.link e).owner.index < g.nodes.size := by
    rw [h.size_nodes]
    exact h.source e he
  have hinside : e.handle.slot < g.slots.size := (h.mem_cover _).2 (.inl (Ledger.mem_slots he))
  have hspan : e.handle.slot < g.slotSpans.size := by rwa [h.slotSpans]
  have hcounted : 0 < g.liveEdges := by
    rw [h.liveEdges]
    exact List.length_pos_of_mem he
  rw [bind_of_ok hfound, bind_of_ok hfound]
  cases hprevious : (m.link e).previous with
  | none =>
    refine (bind_demand hnode _ _).trans ?_
    refine (bind_modify _ _).trans (.trans ?_ (bind_modify _ _).symm)
    refine (bind_modifyLink ?_ _ _).trans (.trans ?_ (bind_modifyLink ?_ _ _).symm)
    · exact hnext
    · refine (bind_demand ⟨?_, hspan⟩ _ _).trans (bind_demand hcounted _ _)
      rwa [size_relink]
    · exact hnext
  | some j =>
    have hbefore := modifyLink_ok (hneighbour j (preceding_mem hprevious)) fun before =>
      { before with next := (m.link e).next }
    have hbehind : ∀ i, (m.link e).next = some i → (g.relink (some j) fun before =>
        { before with next := (m.link e).next }).Occupied i := by
      intro i hi
      exact (hnext i hi).relink _ _
    refine (bind_of_ok hbefore).trans (.trans ?_ (bind_of_ok hbefore).symm)
    refine (bind_modifyLink hbehind _ _).trans (.trans ?_ (bind_modifyLink hbehind _ _).symm)
    refine (bind_demand ⟨?_, hspan⟩ _ _).trans (bind_demand hcounted _ _)
    rwa [size_relink, size_relink]

end Shape

/-! No call reports a broken link, be it granted or refused. -/

theorem liveLink_unbroken (g : Graph) (handle : EdgeHandle) (slot : Nat) :
    g.liveLink handle ≠ .error (.brokenLink slot) := by
  intro hcause
  simp only [liveLink] at hcause
  split at hcause
  · cases hcause
  · split at hcause
    · cases hcause
    · split at hcause <;> cases hcause

namespace Shape

variable {m : Ledger} {free : List Nat}

theorem addEdge_unbroken (h : g.Shape m free []) (source target : NodeId) (label : Symbol)
    (direction : Direction) (span : Span) (slot : Nat) (g' : Graph) :
    addEdge source target label direction span g ≠ .error (.brokenLink slot) g' := by
  intro hcall
  by_cases hsource : source.index < m.nodes.length
  case neg =>
    rw [h.addEdge_badSource hsource] at hcall
    cases hcall
  by_cases htarget : target.index < m.nodes.length
  case neg =>
    rw [h.addEdge_badTarget hsource htarget] at hcall
    cases hcall
  by_cases hroom : m.live.length < indexCapacity
  · obtain ⟨_, _, _, hadd, -⟩ := h.addEdge_ok hsource htarget hroom label direction span
    rw [hadd] at hcall
    cases hcall
  · rw [h.addEdge_full hsource htarget (Nat.le_of_not_lt hroom)] at hcall
    cases hcall

theorem removeEdge_unbroken (h : g.Shape m free []) (handle : EdgeHandle) (slot : Nat)
    (g' : Graph) : removeEdge handle g ≠ .error (.brokenLink slot) g' := by
  intro hcall
  by_cases hlive : ∃ e ∈ m.live, e.handle = handle
  · obtain ⟨e, he, rfl⟩ := hlive
    obtain ⟨_, hremove, -⟩ := h.removeEdge_ok he
    rw [hremove] at hcall
    cases hcall
  · have hnot : ∀ e ∈ m.live, e.handle ≠ handle := by simpa using hlive
    obtain ⟨cause, hcause⟩ := h.liveLink_of_not_mem hnot
    have hrefused : requireLive handle g = .error cause g := by simp only [requireLive, hcause]
    simp only [removeEdge] at hcall
    rw [bind_of_error hrefused] at hcall
    cases hcall
    exact liveLink_unbroken g handle slot hcause

end Shape

end Graph

namespace Edit

open LabelGraph.Graph

def call : Edit → StoreM Graph Unit
  | createNode name kind span => discard (Graph.createNode name kind span)
  | addEdge source target label direction span =>
    discard (Graph.addEdge source target label direction span)
  | removeEdge handle => Graph.removeEdge handle

/-- The call of an edit, with the tests. A new node needs none. -/
def callTested : Edit → StoreM Graph Unit
  | createNode name kind span => discard (Graph.createNode name kind span)
  | addEdge source target label direction span =>
    discard (Graph.addEdgeTested source target label direction span)
  | removeEdge handle => Graph.removeEdgeTested handle

variable {g : Graph} {m : Ledger} {free : List Nat}

theorem callTested_eq (h : g.Shape m free []) (edit : Edit) :
    edit.callTested g = edit.call g := by
  cases edit with
  | createNode name kind span => rfl
  | addEdge source target label direction span =>
    have htested := h.addEdgeTested_eq source target label direction span
    simp only [callTested, call]
    cases hcall : Graph.addEdge source target label direction span g with
    | ok handle g' =>
      exact (discard_of_ok (htested.trans hcall)).trans (discard_of_ok hcall).symm
    | error cause g' =>
      exact (discard_of_error (htested.trans hcall)).trans (discard_of_error hcall).symm
  | removeEdge handle => exact h.removeEdgeTested_eq handle

theorem call_unbroken (h : g.Shape m free []) (edit : Edit) (slot : Nat) (g' : Graph) :
    edit.call g ≠ .error (.brokenLink slot) g' := by
  intro hcall
  cases edit with
  | createNode name kind span =>
    by_cases hroom : m.nodes.length < indexCapacity
    · obtain ⟨_, hcreate, -⟩ := h.createNode_ok hroom name kind span
      exact absurd (hcall.symm.trans (discard_of_ok hcreate)) nofun
    · have hfull := h.createNode_full (Nat.le_of_not_lt hroom) name kind span
      exact absurd (hcall.symm.trans (discard_of_error hfull)) nofun
  | addEdge source target label direction span =>
    cases hadd : Graph.addEdge source target label direction span g with
    | ok handle g' => exact absurd (hcall.symm.trans (discard_of_ok hadd)) nofun
    | error cause g' =>
      cases hcall.symm.trans (discard_of_error hadd)
      exact h.addEdge_unbroken source target label direction span slot _ hadd
  | removeEdge handle => exact h.removeEdge_unbroken handle slot g' hcall

/-- After any calls the check accepts the graph, and the tables of the places are as long as
those beside them. The live edges do not outnumber the slots. The next call, whatever it is,
never follows a broken link, never looks past the end of a table, and has an edge to count
down where it counts one down. -/
theorem run_consistent (edits : List Edit) :
    let g := (run edits).1
    g.check = .ok () ∧ g.nodeSpans.size = g.nodes.size ∧ g.slotSpans.size = g.slots.size ∧
      g.liveEdges ≤ g.slots.size ∧
      ∀ edit : Edit, edit.callTested g = edit.call g ∧
        ∀ slot g', edit.call g ≠ .error (.brokenLink slot) g' := by
  intro g
  obtain ⟨free, hshape⟩ := run_shape edits
  have hspans : g.nodeSpans.size = g.nodes.size := by
    rw [hshape.size_nodeSpans, hshape.size_nodes]
  have hlive : g.liveEdges ≤ g.slots.size := by
    rw [← hshape.consistent.count]
    exact Nat.le_add_left ..
  refine ⟨hshape.consistent.check, hspans, hshape.slotSpans, hlive, ?_⟩
  intro edit
  exact ⟨callTested_eq hshape edit, call_unbroken hshape edit⟩

end Edit

end LabelGraph
