import LabelGraph.Graph.Basic

/-!
Whether the links of a graph fit together. The check visits the chain of every
node and then the free list, and marks each slot it meets. No slot may be met
twice, and none may be left over. It ends on any links whatever, because each
step marks one more slot.
-/

namespace LabelGraph.Graph

def corrupt (g : Graph) (slot : Nat) : StoreError :=
  .invalidIndex .edge slot g.slots.size

theorem count_mark {seen : Array Bool} {i : Nat} (h : seen[i]? = some false) :
    (seen.setIfInBounds i true).count false < seen.count false := by
  obtain ⟨inside, unseen⟩ := Array.getElem?_eq_some_iff.1 h
  have pos : 0 < seen.count false :=
    Array.count_pos_iff.2 (unseen ▸ Array.getElem_mem inside)
  have marked : (seen.set i true inside).count false = seen.count false - 1 := by
    rw [Array.count_set, unseen]
    rfl
  rw [Array.setIfInBounds, dif_pos inside, marked]
  exact Nat.sub_one_lt_of_lt pos

/-- Marks the slots of a chain from slot `i` on. Each must be occupied, unmarked,
owned by `owner`, and linked back to the slot before it. -/
def markChain (g : Graph) (owner : NodeId) (seen : Array Bool) (before : Option Nat) :
    Option Nat → Except StoreError (Array Bool)
  | none => .ok seen
  | some i =>
    match g.slots[i]?.bind Slot.link? with
    | none => .error (g.corrupt i)
    | some link =>
      match _unseen : seen[i]? with
      | some false =>
        if link.owner = owner ∧ link.previous = before then
          g.markChain owner (seen.setIfInBounds i true) (some i) link.next
        else .error (g.corrupt i)
      | _ => .error (g.corrupt i)
termination_by seen.count false
decreasing_by exact count_mark _unseen

/-- Marks the slots of the free list from slot `i` on, and counts them. -/
def markFree (g : Graph) (seen : Array Bool) (count : Nat) :
    Option Nat → Except StoreError (Array Bool × Nat)
  | none => .ok (seen, count)
  | some i =>
    match g.slots[i]?.map Slot.state with
    | some (.free next) =>
      match _unseen : seen[i]? with
      | some false => g.markFree (seen.setIfInBounds i true) (count + 1) next
      | _ => .error (g.corrupt i)
    | _ => .error (g.corrupt i)
termination_by seen.count false
decreasing_by exact count_mark _unseen

/-- Marks the chains of the nodes, which are numbered from `i` on. -/
def markNodes (g : Graph) (seen : Array Bool) (i : Nat) :
    List Node → Except StoreError (Array Bool)
  | [] => .ok seen
  | node :: nodes =>
    match g.markChain ⟨i⟩ seen none node.first with
    | .ok seen => g.markNodes seen (i + 1) nodes
    | .error e => .error e

/-- Accepts the graph, or reports the first slot that is out of place. -/
def check (g : Graph) : Except StoreError Unit := do
  let seen ← g.markNodes (Array.replicate g.slots.size false) 0 g.nodes.toList
  let (seen, free) ← g.markFree seen 0 g.freeHead
  match seen.findIdx? (· == false) with
  | some orphan => .error (g.corrupt orphan)
  | none =>
    if free + g.liveEdges = g.slots.size then .ok () else .error (g.corrupt g.slots.size)

end LabelGraph.Graph
