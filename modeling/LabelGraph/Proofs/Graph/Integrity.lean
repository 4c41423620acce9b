import LabelGraph.Proofs.Graph.Consistency

/-!
What the check of the links says about a graph. A graph here is any value whatever: its heads
and links may run in circles, into each other, out of the tables, or from one node to the
edges of another. The check ends on all of them, and where it accepts, the marks that it set
lead back to the chains and to the free list that it followed.
-/

namespace LabelGraph.Graph

variable {g : Graph} {owner : NodeId} {before start : Option Nat} {seen seen' : Array Bool}

/-- The slots of the list are those that were met between two states of the marks. None had
a mark before, and none was met twice. -/
structure Met (seen seen' : Array Bool) (slots : List Nat) : Prop where
  nodup : slots.Nodup
  unseen : ∀ i ∈ slots, seen[i]? = some false
  marks : seen' = marked seen slots

namespace Met

theorem nil (seen : Array Bool) : Met seen seen [] where
  nodup := List.nodup_nil
  unseen := nofun
  marks := rfl

theorem single {i : Nat} (h : seen[i]? = some false) :
    Met seen (seen.setIfInBounds i true) [i] where
  nodup := List.nodup_singleton i
  unseen := by simpa using h
  marks := rfl

/-- A slot without a mark had none before either, so the later slots are new. -/
theorem append {first later : List Nat} {middle : Array Bool} (h : Met seen middle first)
    (hlater : Met middle seen' later) : Met seen seen' (first ++ later) := by
  have hnew : ∀ i ∈ later, i ∉ first ∧ seen[i]? = some false := by
    intro i hi
    have hunseen := hlater.unseen i hi
    rw [h.marks, getElem?_marked] at hunseen
    split at hunseen
    · cases hseen : seen[i]? <;> simp [hseen] at hunseen
    · next hnot => exact ⟨hnot, hunseen⟩
  refine ⟨h.nodup.append hlater.nodup ?_, ?_, ?_⟩
  · intro i hi hi'
    exact (hnew i hi').1 hi
  · intro i hi
    rcases List.mem_append.1 hi with hi | hi
    · exact h.unseen i hi
    · exact (hnew i hi).2
  · rw [hlater.marks, h.marks, marked_append]

end Met

/-! Where a walk ends well, there is a list that it followed. -/

theorem chained_of_markChain (h : g.markChain owner seen before start = .ok seen') :
    ∃ l, g.Chained owner before start l ∧ Met seen seen' l := by
  fun_induction Graph.markChain g owner seen before start with
  | case1 seen before =>
    cases h
    exact ⟨[], .done, .nil _⟩
  | case2 => cases h
  | case3 seen before i link hlink hunseen hfits ih =>
    obtain ⟨l, hchained, hmet⟩ := ih h
    obtain ⟨⟨generation, state⟩, hslot, hstate⟩ := Option.bind_eq_some_iff.1 hlink
    cases state with
    | free next => cases hstate
    | occupied link' =>
      cases hstate
      exact ⟨i :: l, .slot hslot hfits.1 hfits.2 hchained, (Met.single hunseen).append hmet⟩
  | case4 => cases h
  | case5 => cases h

theorem vacant_of_markFree {count total : Nat}
    (h : g.markFree seen count start = .ok (seen', total)) :
    ∃ l, g.Vacant start l ∧ Met seen seen' l ∧ total = count + l.length := by
  fun_induction Graph.markFree g seen count start with
  | case1 seen count =>
    cases h
    exact ⟨[], .done, .nil _, rfl⟩
  | case2 seen count i next hslot hunseen ih =>
    obtain ⟨l, hvacant, hmet, rfl⟩ := ih h
    refine ⟨i :: l, .slot hslot hvacant, (Met.single hunseen).append hmet, ?_⟩
    rw [List.length_cons, Nat.add_assoc, Nat.add_comm 1]
  | case3 => cases h
  | case4 => cases h

theorem chained_of_markNodes {nodes : List Node} {i : Nat}
    (h : g.markNodes seen i nodes = .ok seen') :
    ∃ chain : NodeId → List Nat,
      (∀ k node, nodes[k]? = some node →
        g.Chained ⟨i + k⟩ none node.first (chain ⟨i + k⟩)) ∧
      Met seen seen' ((List.range' i nodes.length).flatMap fun k => chain ⟨k⟩) := by
  induction nodes generalizing seen i with
  | nil =>
    cases h
    exact ⟨fun _ => [], nofun, .nil _⟩
  | cons node nodes ih =>
    simp only [markNodes] at h
    split at h
    case h_2 => cases h
    next middle hfirst =>
      obtain ⟨l, hl, hmet⟩ := chained_of_markChain hfirst
      obtain ⟨chain, hchain, hlater⟩ := ih h
      have hother : ∀ k, i < k → Function.update chain ⟨i⟩ l ⟨k⟩ = chain ⟨k⟩ := by
        intro k hk
        apply Function.update_of_ne
        intro heq
        exact Nat.ne_of_gt hk (congrArg NodeId.index heq)
      refine ⟨Function.update chain ⟨i⟩ l, ?_, ?_⟩
      · rintro (_ | k) node' hnode
        · cases hnode
          rwa [Nat.add_zero, Function.update_self]
        · have hchained := hchain k node' hnode
          rwa [Nat.add_assoc, Nat.add_comm 1, ← hother (i + (k + 1)) (by omega)] at hchained
      · have hsame : ((List.range' (i + 1) nodes.length).flatMap fun k =>
            Function.update chain ⟨i⟩ l ⟨k⟩) =
            (List.range' (i + 1) nodes.length).flatMap fun k => chain ⟨k⟩ :=
          List.flatMap_congr fun k hk => hother k (List.mem_range'_1.1 hk).1
        rw [List.length_cons, List.range'_succ, List.flatMap_cons, Function.update_self, hsame]
        exact hmet.append hlater

/-! What the lists say about the slots on them. -/

theorem Chained.link_isSome {slots : List Nat} (h : g.Chained owner before start slots) :
    ∀ i ∈ slots, (g.slots[i]?.bind Slot.link?).isSome = true := by
  induction h with
  | done => nofun
  | slot hslot _ _ _ ih =>
    intro k hk
    rcases List.mem_cons.1 hk with rfl | hk
    · rw [hslot]
      rfl
    · exact ih k hk

theorem Vacant.link_isNone {slots : List Nat} (h : g.Vacant start slots) :
    ∀ i ∈ slots, ¬ (g.slots[i]?.bind Slot.link?).isSome = true := by
  induction h with
  | done => nofun
  | @slot i next rest hstate _ ih =>
    intro k hk
    rcases List.mem_cons.1 hk with rfl | hk
    · obtain ⟨⟨generation, state⟩, hslot, rfl⟩ := Option.map_eq_some_iff.1 hstate
      rw [hslot]
      exact Bool.false_ne_true
    · exact ih k hk

def occupiedCount (g : Graph) : Nat := g.slots.countP fun slot => slot.link?.isSome

theorem occupiedCount_eq (g : Graph) :
    g.occupiedCount =
      (List.range g.slots.size).countP fun i => (g.slots[i]?.bind Slot.link?).isSome := by
  have hslots : g.slots.toList.map (fun slot => slot.link?.isSome) =
      (List.range g.slots.size).map fun i => (g.slots[i]?.bind Slot.link?).isSome := by
    apply List.ext_getElem (by simp)
    intro i hi _
    have hinside : i < g.slots.size := by simpa using hi
    simp [hinside]
  have hcount := congrArg (List.countP id) hslots
  rw [List.countP_map, List.countP_map] at hcount
  rw [occupiedCount, ← Array.countP_toList]
  exact hcount

/-- Of the slots, each once, those of the chains hold an edge and the free ones hold none. -/
theorem length_add_occupiedCount {chain : NodeId → List Nat} {free : List Nat}
    (hchained : ∀ i node, g.nodes[i]? = some node →
      g.Chained ⟨i⟩ none node.first (chain ⟨i⟩))
    (hvacant : g.Vacant g.freeHead free)
    (hcover : (((List.range g.nodes.size).flatMap fun i => chain ⟨i⟩) ++ free).Perm
      (List.range g.slots.size)) :
    free.length + g.occupiedCount = g.slots.size := by
  have hoccupied : ∀ k ∈ (List.range g.nodes.size).flatMap fun i => chain ⟨i⟩,
      (g.slots[k]?.bind Slot.link?).isSome = true := by
    intro k hk
    obtain ⟨i, hi, hk⟩ := List.mem_flatMap.1 hk
    have hnode := Array.getElem?_eq_getElem (List.mem_range.1 hi)
    exact (hchained i _ hnode).link_isSome k hk
  have hlength := hcover.length_eq
  rw [List.length_append, List.length_range] at hlength
  rw [occupiedCount_eq, ← hcover.countP_eq, List.countP_append,
    List.countP_eq_length.2 hoccupied, List.countP_eq_zero.2 hvacant.link_isNone,
    Nat.add_zero, Nat.add_comm]
  exact hlength

/-- Where no mark is missing, the slots that were met are all the slots. -/
theorem Met.perm_range {slots : List Nat} {n : Nat}
    (h : Met (Array.replicate n false) seen slots)
    (hall : seen.findIdx? (· == false) = none) : slots.Perm (List.range n) := by
  apply (List.perm_ext_iff_of_nodup h.nodup List.nodup_range).2
  intro i
  rw [List.mem_range]
  constructor
  · intro hi
    simpa using (Array.getElem?_eq_some_iff.1 (h.unseen i hi)).1
  · intro hi
    by_contra hnot
    have hmark : seen[i]? = some false := by
      rw [h.marks, getElem?_marked, if_neg hnot, Array.getElem?_replicate, if_pos hi]
    have := Array.findIdx?_eq_none_iff.1 hall false (Array.mem_iff_getElem?.2 ⟨i, hmark⟩)
    cases this

theorem consistent_of_check (h : g.check = .ok ()) :
    ∃ chain free, g.Consistent chain free := by
  simp only [check, bind, Except.bind] at h
  split at h
  case h_1 => cases h
  next seen hnodes =>
  split at h
  case h_1 => cases h
  next result hfree =>
  obtain ⟨seen', total⟩ := result
  split at h
  case h_1 => cases h
  next hall =>
  split at h
  case isFalse => cases h
  next hcount =>
  obtain ⟨chain, hchained, hchains⟩ := chained_of_markNodes hnodes
  obtain ⟨free, hvacant, hmet, rfl⟩ := vacant_of_markFree hfree
  have hcover := (hchains.append hmet).perm_range hall
  refine ⟨chain, free, ?_, hvacant, ?_, ?_⟩
  · simpa using hchained
  · rwa [Array.length_toList, ← List.range_eq_range'] at hcover
  · rwa [Nat.zero_add] at hcount

/-- The check answers on any graph, and it accepts the graph just when there are chains and a
free list such that the chain of each node starts at its head and goes through occupied
slots of this node, each linked back to the one before it, the free list starts at its head
and goes through free slots, all of them together go through every slot once, and as many
edges are counted as slots are occupied. -/
theorem check_eq_ok_iff (g : Graph) :
    g.check = .ok () ↔ ∃ (chain : NodeId → List Nat) (free : List Nat),
      (∀ i node, g.nodes[i]? = some node → g.Chained ⟨i⟩ none node.first (chain ⟨i⟩)) ∧
      g.Vacant g.freeHead free ∧
      (((List.range g.nodes.size).flatMap fun i => chain ⟨i⟩) ++ free).Perm
        (List.range g.slots.size) ∧
      g.liveEdges = g.occupiedCount := by
  constructor
  · intro h
    obtain ⟨chain, free, hconsistent⟩ := consistent_of_check h
    have hoccupied := length_add_occupiedCount hconsistent.chained hconsistent.vacant
      hconsistent.cover
    refine ⟨chain, free, hconsistent.chained, hconsistent.vacant, hconsistent.cover, ?_⟩
    exact Nat.add_left_cancel (hconsistent.count.trans hoccupied.symm)
  · rintro ⟨chain, free, hchained, hvacant, hcover, hlive⟩
    have hoccupied := length_add_occupiedCount hchained hvacant hcover
    exact Consistent.check ⟨hchained, hvacant, hcover, by rwa [hlive]⟩

end LabelGraph.Graph
