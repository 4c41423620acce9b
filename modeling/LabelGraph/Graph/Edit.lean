import LabelGraph.Graph.Basic

/-!
The three operations that change a graph. Every one of them checks its arguments
first and hands the graph back as it was if it refuses them. After the checks a
link that leads to a missing slot, or to one in the wrong state, is reported as
broken instead of being followed.
-/

namespace LabelGraph.Graph

def requireNode (n : NodeId) : StoreM Graph Unit := fun g =>
  if n.index < g.nodes.size then .ok () g
  else .error (.invalidIndex .node n.index g.nodes.size) g

def createNode (name : Symbol) (kind : NodeKind) (span : Span) : StoreM Graph NodeId := fun g =>
  if g.nodes.size < indexCapacity then
    let n : NodeId := ⟨g.nodes.size⟩
    .ok n
      { g with
        nodes := g.nodes.push { name, kind, first := none }
        nodeSpans := g.nodeSpans.push span }
  else .error (.capacityExceeded .node indexCapacity) g

/-- Takes the slot that was freed last. Without a free slot it appends one. -/
def takeSlot : StoreM Graph Nat := fun g =>
  match g.freeHead with
  | some i =>
    match g.slots[i]?.map Slot.state with
    | some (.free next) => .ok i { g with freeHead := next }
    | _ => .error (.brokenLink i) g
  | none =>
    let i := g.slots.size
    if i < indexCapacity then
      .ok i { g with slots := g.slots.push .fresh, slotSpans := g.slotSpans.push .zero }
    else .error (.capacityExceeded .edge indexCapacity) g

def modifyLink (i : Nat) (f : Link → Link) : StoreM Graph Unit := fun g =>
  match g.slots[i]? with
  | some { generation, state := .occupied link } =>
    let slot : Slot := { generation, state := .occupied (f link) }
    .ok () { g with slots := g.slots.setIfInBounds i slot }
  | _ => .error (.brokenLink i) g

/-- Makes `slot` the newest in the chain of node `n`. -/
def setFirst (n : NodeId) (slot : Option Nat) : StoreM Graph Unit :=
  modify fun g => { g with nodes := g.nodes.modify n.index fun node => { node with first := slot } }

def occupy (i : Nat) (link : Link) (span : Span) : StoreM Graph EdgeHandle := fun g =>
  match g.slots[i]?.map Slot.generation with
  | some generation =>
    let slot : Slot := { generation, state := .occupied link }
    .ok { slot := i, generation }
      { g with
        slots := g.slots.setIfInBounds i slot
        slotSpans := g.slotSpans.setIfInBounds i span
        liveEdges := g.liveEdges + 1 }
  | none => .error (.brokenLink i) g

/-- Adds an edge in front of the chain of `source`. -/
def addEdge (source target : NodeId) (label : Symbol) (direction : Direction) (span : Span) :
    StoreM Graph EdgeHandle := do
  requireNode source
  requireNode target
  let i ← takeSlot
  let next := (← get).nodes[source.index]?.bind Node.first
  if let some j := next then
    modifyLink j fun link => { link with previous := some i }
  let handle ← occupy i { owner := source, target, label, direction, previous := none, next } span
  setFirst source (some i)
  return handle

def requireLive (h : EdgeHandle) : StoreM Graph Link := fun g =>
  match g.liveLink h with
  | .ok link => .ok link g
  | .error e => .error e g

def releaseSlot (i : Nat) : StoreM Graph Unit :=
  modify fun g =>
    let head := g.freeHead
    { g with
      slots := g.slots.modify i fun slot => slot.release head
      slotSpans := g.slotSpans.setIfInBounds i .zero
      freeHead := some i
      liveEdges := g.liveEdges - 1 }

/-- Takes an edge out of its chain and frees its slot. -/
def removeEdge (h : EdgeHandle) : StoreM Graph Unit := do
  let link ← requireLive h
  match link.previous with
  | some j => modifyLink j fun before => { before with next := link.next }
  | none => setFirst link.owner link.next
  if let some j := link.next then
    modifyLink j fun behind => { behind with previous := link.previous }
  releaseSlot h.slot

end LabelGraph.Graph
