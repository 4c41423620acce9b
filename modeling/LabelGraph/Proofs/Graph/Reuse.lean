import LabelGraph.Proofs.Graph.Refusal
import Mathlib.Data.List.Induction
import Mathlib.Order.Bounds.Basic
import Mathlib.Order.MinMax

/-!
Slots are used again before there are new ones. The free list is a stack: a removal puts its
slot on top, and an edge that is added takes the slot on top. A slot is appended only while
every other one is occupied, so there are never more slots than there once were live edges at
the same time, and removing and adding edges in turn uses up no room.
-/

namespace LabelGraph

namespace Graph

variable {g : Graph} {m : Ledger} {free past : List Nat} {i : Nat}

/-- The slots of the free list are found in its order among those that were freed, which are
listed with the latest one first. -/
def Stacked (past free : List Nat) : Prop :=
  ∀ rest, rest <:+ free → past.find? (· ∈ rest) = rest.head?

namespace Stacked

theorem nil : Stacked [] [] := by
  intro rest hrest
  rw [List.suffix_nil.1 hrest]
  rfl

theorem push (h : Stacked past free) (hi : i ∉ free) : Stacked (i :: past) (i :: free) := by
  intro rest hrest
  rcases List.suffix_cons_iff.1 hrest with rfl | hrest
  · simp
  · have hnot : i ∉ rest := fun hmem => hi (hrest.subset hmem)
    rw [List.find?_cons_of_neg (by simpa using hnot)]
    exact h rest hrest

theorem pop (h : Stacked past (i :: free)) : Stacked past free :=
  fun rest hrest => h rest (hrest.trans (List.suffix_cons i free))

theorem mem_past (h : Stacked past free) (hi : i ∈ free) : i ∈ past := by
  obtain ⟨first, rest, rfl⟩ := List.append_of_mem hi
  exact List.mem_of_find?_eq_some (h (i :: rest) (List.suffix_append first _))

end Stacked

namespace Shape

theorem edgeSlotCount_eq (h : g.Shape m free []) :
    g.edgeSlotCount = m.live.length + free.length :=
  h.length_cover.symm

/-- An edge that is added takes the slot at the head of the free list, or the one behind all
others. -/
theorem slot_of_addEdge (h : g.Shape m free []) {source target : NodeId} {label : Symbol}
    {direction : Direction} {span : Span} {handle : EdgeHandle} {g' : Graph}
    (hadd : addEdge source target label direction span g = .ok handle g') :
    handle.slot = free.head?.getD g.edgeSlotCount := by
  have hgranted : source.index < m.nodes.length ∧ target.index < m.nodes.length ∧
      m.live.length < indexCapacity :=
    (h.granted_iff (.addEdge source target label direction span)).1 ⟨handle, g', hadd⟩
  obtain ⟨hsource, htarget, hroom⟩ := hgranted
  obtain ⟨_, _, rest, hcall, -, hslot⟩ := h.addEdge_ok hsource htarget hroom label direction span
  cases hadd.symm.trans hcall
  rcases hslot with rfl | ⟨rfl, -, hslot⟩
  · rfl
  · exact hslot

/-- Between nodes of the graph an edge is added unless the live edges take up all the room,
and then it is refused for this. -/
theorem addEdge_capacity (h : g.Shape m free []) {source target : NodeId}
    (hsource : source.index < g.nodeCount) (htarget : target.index < g.nodeCount)
    (label : Symbol) (direction : Direction) (span : Span) :
    (g.edgeCount = indexCapacity ∧
      addEdge source target label direction span g =
        .error (.capacityExceeded .edge indexCapacity) g) ∨
    (g.edgeCount ≠ indexCapacity ∧
      ∃ handle g', addEdge source target label direction span g = .ok handle g') := by
  have hcount : g.nodeCount = m.nodes.length := h.size_nodes
  have hlive : g.edgeCount = m.live.length := h.liveEdges
  have hslots := h.edgeSlotCount_eq
  have hmost : g.edgeSlotCount ≤ indexCapacity := h.slotRoom
  rw [hcount] at hsource htarget
  by_cases hroom : m.live.length < indexCapacity
  · obtain ⟨handle, g', -, hcall, -⟩ := h.addEdge_ok hsource htarget hroom label direction span
    exact .inr ⟨by omega, handle, g', hcall⟩
  · exact .inl ⟨by omega, h.addEdge_full hsource htarget (Nat.not_lt.1 hroom) _ _ _⟩

end Shape

end Graph

namespace Edit

open LabelGraph.Graph

variable {g : Graph} {m : Ledger} {free past : List Nat}

def freed? (g : Graph) : Edit → Option Nat
  | removeEdge h =>
    match Graph.removeEdge h g with
    | .ok _ _ => some h.slot
    | .error _ _ => none
  | _ => none

def freed : List Edit → Graph × Ledger → List Nat
  | [], _ => []
  | edit :: edits, state => (edit.freed? state.1).toList ++ freed edits (edit.perform state)

/-- The slots that a run has freed, the latest one first. -/
def freedSlots (edits : List Edit) : List Nat := (freed edits (Graph.empty, {})).reverse

theorem freed_append (first later : List Edit) (state : Graph × Ledger) :
    freed (first ++ later) state = freed first state ++ freed later (performAll first state) := by
  induction first generalizing state with
  | nil => rfl
  | cons edit first ih =>
    rw [List.cons_append, freed, freed, ih, List.append_assoc]
    rfl

theorem freedSlots_concat (edits : List Edit) (edit : Edit) :
    freedSlots (edits ++ [edit]) = (edit.freed? (run edits).1).toList ++ freedSlots edits := by
  have hrun : performAll edits (Graph.empty, {}) = run edits := rfl
  rw [freedSlots, freed_append, List.reverse_append, hrun, freed, freed, List.append_nil]
  cases edit.freed? (run edits).1 <;> rfl

/-- A call keeps the free list a stack. It makes a new slot exactly if there are more live
edges then than there were slots. -/
theorem perform_stacked (h : g.Shape m free []) (hpast : Stacked past free) (edit : Edit) :
    ∃ free', (edit.perform (g, m)).1.Shape (edit.perform (g, m)).2 free' [] ∧
      Stacked ((edit.freed? g).toList ++ past) free' ∧
      (edit.perform (g, m)).1.edgeSlotCount =
        max g.edgeSlotCount (edit.perform (g, m)).1.edgeCount := by
  have hsize := h.edgeSlotCount_eq
  have hlive : g.edgeCount = m.live.length := h.liveEdges
  rcases h.perform_cases edit with ⟨hgranted, -, -⟩ | ⟨-, hrefused, hsame⟩
  case inr =>
    have hnone : edit.freed? g = none := by
      cases edit with
      | removeEdge handle =>
        cases hcall : Graph.removeEdge handle g with
        | ok _ g' => exact absurd ⟨g', hcall⟩ hrefused
        | error cause g' => simp only [freed?, hcall]
      | _ => rfl
    rw [hsame, hnone]
    refine ⟨free, h, hpast, (max_eq_left ?_).symm⟩
    change g.edgeCount ≤ g.edgeSlotCount
    omega
  cases edit with
  | createNode name kind span =>
    obtain ⟨g', hcall, h'⟩ := h.createNode_ok hgranted name kind span
    have hsize' : g'.edgeSlotCount = m.live.length + free.length := h'.edgeSlotCount_eq
    have hlive' : g'.edgeCount = m.live.length := h'.liveEdges
    simp only [perform, hcall]
    exact ⟨free, h', hpast, by omega⟩
  | addEdge source target label direction span =>
    obtain ⟨hsource, htarget, hroom⟩ := hgranted
    obtain ⟨handle, g', rest, hcall, h', hslot⟩ :=
      h.addEdge_ok hsource htarget hroom label direction span
    have hsize' := h'.edgeSlotCount_eq
    have hlive' : g'.edgeCount = _ := h'.liveEdges
    rw [Ledger.live_addEdge, List.length_append, List.length_singleton] at hsize' hlive'
    simp only [perform, hcall]
    rcases hslot with rfl | ⟨rfl, rfl, -⟩
    · rw [List.length_cons] at hsize
      exact ⟨rest, h', hpast.pop, by omega⟩
    · rw [List.length_nil] at hsize hsize'
      exact ⟨[], h', hpast, by omega⟩
  | removeEdge handle =>
    obtain ⟨e, he, rfl⟩ := hgranted
    obtain ⟨g', hcall, h'⟩ := h.removeEdge_ok he
    have hsize' := h'.edgeSlotCount_eq
    have hlive' : g'.edgeCount = _ := h'.liveEdges
    have hlength := (Ledger.live_perm_removeEdge h.slots_nodup he).length_eq
    rw [List.length_cons] at hlength hsize'
    simp only [perform, freed?, hcall]
    exact ⟨_, h', hpast.push (h.not_mem_free (Ledger.mem_slots he)), by omega⟩

theorem run_concat (edits : List Edit) (edit : Edit) :
    run (edits ++ [edit]) = edit.perform (run edits) := by
  rw [run_append]
  rfl

theorem run_stacked (edits : List Edit) :
    ∃ free, (run edits).1.Shape (run edits).2 free [] ∧ Stacked (freedSlots edits) free := by
  induction edits using List.reverseRecOn with
  | nil => exact ⟨[], Shape.empty, .nil⟩
  | append_singleton edits edit ih =>
    obtain ⟨free, hshape, hstacked⟩ := ih
    obtain ⟨free', hshape', hstacked', -⟩ := perform_stacked hshape hstacked edit
    rw [run_concat, freedSlots_concat]
    exact ⟨free', hshape', hstacked'⟩

/-- There are as many slots as there were live edges at most. -/
theorem run_peak (edits : List Edit) :
    IsGreatest {count | ∃ first, first <+: edits ∧ count = (run first).1.edgeCount}
      (run edits).1.edgeSlotCount := by
  induction edits using List.reverseRecOn with
  | nil =>
    refine ⟨⟨[], List.prefix_rfl, rfl⟩, ?_⟩
    rintro count ⟨first, hfirst, rfl⟩
    rw [List.prefix_nil.1 hfirst]
    exact Nat.le_refl 0
  | append_singleton edits edit ih =>
    obtain ⟨⟨top, htop, hreached⟩, hbound⟩ := ih
    obtain ⟨free, hshape, hstacked⟩ := run_stacked edits
    obtain ⟨-, -, -, hsize⟩ := perform_stacked hshape hstacked edit
    rw [run_concat, hsize]
    constructor
    · rcases max_choice (run edits).1.edgeSlotCount (edit.perform (run edits)).1.edgeCount with
        hmax | hmax
      · exact ⟨top, htop.trans (List.prefix_append edits _), hmax.trans hreached⟩
      · exact ⟨edits ++ [edit], List.prefix_rfl, by rw [run_concat]; exact hmax⟩
    · rintro count ⟨first, hfirst, rfl⟩
      rcases List.prefix_concat_iff.1 hfirst with rfl | hfirst
      · rw [run_concat]
        exact le_max_right ..
      · exact (hbound ⟨first, hfirst, rfl⟩).trans (le_max_left ..)

/-- After any calls there are as many slots as there were live edges at the same time at
most. The free slots are among those that were freed. An edge that is added takes the slot
freed last of those that are still free, and one behind all others only if none is free.
Between nodes of the graph it is refused exactly while all the slots that there can be hold
live edges. -/
theorem run_reuse (edits : List Edit) :
    let g := (run edits).1
    IsGreatest {count | ∃ first, first <+: edits ∧ count = (run first).1.edgeCount}
      g.edgeSlotCount ∧
    (∀ i, g.isSlotFree? i = some true → i ∈ freedSlots edits) ∧
    ∀ (source target : NodeId) (label : Symbol) (direction : Direction) (span : Span),
      let call := Graph.addEdge source target label direction span g
      (∀ h g', call = .ok h g' →
        h.slot = ((freedSlots edits).find? fun i => g.isSlotFree? i = some true).getD
          g.edgeSlotCount) ∧
      (source.index < g.nodeCount → target.index < g.nodeCount →
        ((∃ kind capacity g', call = .error (.capacityExceeded kind capacity) g') ↔
          g.edgeCount = indexCapacity) ∧
        ((∃ h g', call = .ok h g') ↔ g.edgeCount ≠ indexCapacity)) := by
  intro g
  obtain ⟨free, hshape, hstacked⟩ := run_stacked edits
  refine ⟨run_peak edits, ?_, ?_⟩
  · intro i hi
    exact hstacked.mem_past ((hshape.isSlotFree_iff i).1 hi)
  intro source target label direction span call
  constructor
  · intro h g' hadd
    have hfree : (fun i => decide (g.isSlotFree? i = some true)) = fun i => decide (i ∈ free) := by
      funext i
      exact decide_eq_decide.2 (hshape.isSlotFree_iff i)
    rw [hfree, hstacked free List.suffix_rfl]
    exact hshape.slot_of_addEdge hadd
  · intro hsource htarget
    rcases hshape.addEdge_capacity hsource htarget label direction span with
      ⟨hfull, hcall⟩ | ⟨hroom, h, g', hcall⟩
    · have hcall : call = _ := hcall
      exact ⟨iff_of_true ⟨_, _, _, hcall⟩ hfull,
        iff_of_false (by simp [hcall]) (not_not_intro hfull)⟩
    · have hcall : call = _ := hcall
      exact ⟨iff_of_false (by simp [hcall]) hroom, iff_of_true ⟨h, g', hcall⟩ hroom⟩

/-- Of three edges the first and then the second are removed. The next one takes the slot of
the second. -/
theorem run_reuse_second :
    let edge : Edit := .addEdge ⟨0⟩ ⟨0⟩ ⟨1⟩ .outgoing .zero
    let edits : List Edit :=
      [.createNode ⟨0⟩ .label .zero, edge, edge, edge, .removeEdge ⟨0, 0⟩, .removeEdge ⟨1, 0⟩]
    freedSlots edits = [1, 0] ∧ (run edits).1.edgeSlotCount = 3 ∧
      ∃ h g', Graph.addEdge ⟨0⟩ ⟨0⟩ ⟨1⟩ .outgoing .zero (run edits).1 = .ok h g' ∧
        h.slot = 1 := by
  intro edge edits
  obtain ⟨-, -, hcalls⟩ := run_reuse edits
  obtain ⟨hslot, hcapacity⟩ := hcalls ⟨0⟩ ⟨0⟩ ⟨1⟩ .outgoing .zero
  have hroom : (run edits).1.edgeCount ≠ indexCapacity := by decide
  obtain ⟨h, g', hadd⟩ := (hcapacity (by decide) (by decide)).2.2 hroom
  refine ⟨by decide, by decide, h, g', hadd, ?_⟩
  have hfound : ((freedSlots edits).find? fun i =>
      (run edits).1.isSlotFree? i = some true).getD (run edits).1.edgeSlotCount = 1 := by decide
  exact (hslot h g' hadd).trans hfound

end Edit

end LabelGraph
