import LabelGraph.Store.Symbols
import LabelGraph.Text.Position

/-!
The graph of a source text. Nodes are numbered in the order of their creation
and stay. Edges live in slots that are used again after a removal; the free slots
form a list of their own, from one free slot to the next. The edges of a node form
a chain through their slots, newest first, linked both ways. A slot counts how
often it was released, and an edge handle carries that count, so a handle that
outlives its edge is told apart from the edge that took the slot.

Where nodes and edges stand in the text is kept in tables beside the slabs.
-/

namespace LabelGraph

structure NodeId where
  index : Nat
deriving DecidableEq, Repr, Hashable, Inhabited

instance : ToString NodeId where
  toString n := s!"#{n.index}"

structure EdgeHandle where
  slot : Nat
  generation : UInt32
deriving DecidableEq, Repr, Inhabited

instance : ToString EdgeHandle where
  toString h := s!"e{h.slot}@{h.generation}"

/-- What a node was created by. -/
inductive NodeKind where
  | label
  | external
deriving DecidableEq, Repr

instance : ToString NodeKind where
  toString
    | .label => "label"
    | .external => "extern"

/-- The direction of an edge as its owner sees it. -/
inductive Direction where
  | incoming
  | outgoing
deriving DecidableEq, Repr

namespace Direction

def name : Direction → String
  | incoming => "in"
  | outgoing => "out"

def arrow : Direction → String
  | incoming => "<-"
  | outgoing => "->"

end Direction

/-- A node, with the slot of its newest edge. -/
structure Node where
  name : Symbol
  kind : NodeKind
  first : Option Nat
deriving DecidableEq, Repr

/-- The fields of an edge, and its neighbours in the chain of its owner. -/
structure Link where
  owner : NodeId
  target : NodeId
  label : Symbol
  direction : Direction
  previous : Option Nat
  next : Option Nat
deriving DecidableEq, Repr

inductive SlotState where
  | occupied (link : Link)
  | free (next : Option Nat)
deriving DecidableEq, Repr

structure Slot where
  generation : UInt32
  state : SlotState
deriving DecidableEq, Repr

namespace Slot

def fresh : Slot := { generation := 0, state := .free none }

def link? (s : Slot) : Option Link :=
  match s.state with
  | .occupied link => some link
  | .free _ => none

def isFree (s : Slot) : Bool := s.link?.isNone

/-- Frees the slot. Handles to it are stale from now on. -/
def release (s : Slot) (next : Option Nat) : Slot :=
  { generation := s.generation + 1, state := .free next }

end Slot

structure Graph where
  nodes : Array Node := #[]
  nodeSpans : Array Span := #[]
  slots : Array Slot := #[]
  slotSpans : Array Span := #[]
  freeHead : Option Nat := none
  liveEdges : Nat := 0
deriving DecidableEq, Repr

/-- A live edge as it is handed out. -/
structure Edge where
  handle : EdgeHandle
  source : NodeId
  target : NodeId
  label : Symbol
  direction : Direction
  span : Span
deriving DecidableEq, Repr

structure GraphStats where
  nodes : Nat
  liveEdges : Nat
  freeSlots : Nat
  edgeSlots : Nat
deriving DecidableEq, Repr

namespace Graph

def empty : Graph := {}

instance : Inhabited Graph := ⟨empty⟩

def nodeCount (g : Graph) : Nat := g.nodes.size

def edgeCount (g : Graph) : Nat := g.liveEdges

def edgeSlotCount (g : Graph) : Nat := g.slots.size

def freeSlotCount (g : Graph) : Nat := g.slots.size - g.liveEdges

def stats (g : Graph) : GraphStats :=
  { nodes := g.nodeCount, liveEdges := g.edgeCount, freeSlots := g.freeSlotCount,
    edgeSlots := g.edgeSlotCount }

def node (g : Graph) (n : NodeId) : Except StoreError Node :=
  match g.nodes[n.index]? with
  | some node => .ok node
  | none => .error (.invalidIndex .node n.index g.nodes.size)

def nodeSpan (g : Graph) (n : NodeId) : Except StoreError Span :=
  match g.nodeSpans[n.index]? with
  | some span => .ok span
  | none => .error (.invalidIndex .node n.index g.nodes.size)

/-- The link behind a handle, if the handle names an edge that is live now. -/
def liveLink (g : Graph) (h : EdgeHandle) : Except StoreError Link :=
  match g.slots[h.slot]? with
  | none => .error (.invalidIndex .edge h.slot g.slots.size)
  | some slot =>
    match slot.link? with
    | none => .error (.doubleFree h.slot)
    | some link =>
      if slot.generation = h.generation then .ok link
      else .error (.staleHandle h.slot h.generation slot.generation)

def edge (g : Graph) (h : EdgeHandle) : Except StoreError Edge :=
  match g.liveLink h with
  | .error e => .error e
  | .ok link =>
    match g.slotSpans[h.slot]? with
    | none => .error (.brokenLink h.slot)
    | some span =>
      .ok
        { handle := h, source := link.owner, target := link.target, label := link.label,
          direction := link.direction, span }

def containsEdge (g : Graph) (h : EdgeHandle) : Bool :=
  (g.liveLink h).isOk

/-- Whether a slot is free. There is no answer past the last slot. -/
def isSlotFree? (g : Graph) (slot : Nat) : Option Bool :=
  g.slots[slot]?.map Slot.isFree

/-- The live edges in the order of their slots. -/
def edges (g : Graph) : List Edge :=
  g.slots.toList.zipIdx.filterMap fun (slot, i) =>
    (g.edge { slot := i, generation := slot.generation }).toOption

def findNode? (g : Graph) (name : Symbol) : Option NodeId :=
  (g.nodes.findIdx? (·.name = name)).map NodeId.mk

/-- The handles of the edges in direction `d` along a chain, after those already
found. The walk ends after `steps` slots, so that it ends on any links. -/
def walk (g : Graph) (d : Direction) (found : Array EdgeHandle) :
    (steps : Nat) → (slot : Option Nat) → Array EdgeHandle
  | _, none => found
  | 0, some _ => found
  | steps + 1, some i =>
    match g.slots[i]? with
    | none => found
    | some slot =>
      match slot.link? with
      | none => found
      | some link =>
        let found :=
          if link.direction = d then found.push { slot := i, generation := slot.generation }
          else found
        g.walk d found steps link.next

/-- The edges of a node in one direction, newest first. A chain never visits a
slot twice, so the number of slots is enough steps. -/
def edgesOf (g : Graph) (n : NodeId) (d : Direction) : Except StoreError (Array EdgeHandle) :=
  match g.node n with
  | .error e => .error e
  | .ok node => .ok (g.walk d #[] g.slots.size node.first)

end Graph

end LabelGraph
