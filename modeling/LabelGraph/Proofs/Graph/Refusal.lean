import LabelGraph.Proofs.Graph.Consistency
import LabelGraph.Proofs.Graph.Generation

/-!
Which calls are refused, and why. The cause can be read off the sizes of the graph and the
state of one slot, and each refused call has exactly one. It leaves the graph as it was. A
removal that is granted leaves all other edges as they were.
-/

namespace LabelGraph

namespace Graph

inductive Unfit (g : Graph) (h : EdgeHandle) : StoreError → Prop
  | outside :
      g.edgeSlotCount ≤ h.slot → Unfit g h (.invalidIndex .edge h.slot g.edgeSlotCount)
  | free :
      g.isSlotFree? h.slot = some true → Unfit g h (.doubleFree h.slot)
  | stale {current : UInt32} :
      g.isSlotFree? h.slot = some false → g.generation? h.slot = some current →
      current ≠ h.generation → Unfit g h (.staleHandle h.slot h.generation current)

/-- Why a call is refused. The source of an edge is looked at before its target, and both
before the slots. -/
inductive Refuses (g : Graph) : Edit → StoreError → Prop
  | nodesFull {name kind span} :
      g.nodeCount = indexCapacity →
      Refuses g (.createNode name kind span) (.capacityExceeded .node indexCapacity)
  | badSource {source target : NodeId} {label direction span} :
      g.nodeCount ≤ source.index →
      Refuses g (.addEdge source target label direction span)
        (.invalidIndex .node source.index g.nodeCount)
  | badTarget {source target : NodeId} {label direction span} :
      source.index < g.nodeCount → g.nodeCount ≤ target.index →
      Refuses g (.addEdge source target label direction span)
        (.invalidIndex .node target.index g.nodeCount)
  | slotsFull {source target : NodeId} {label direction span} :
      source.index < g.nodeCount → target.index < g.nodeCount →
      (∀ slot, g.isSlotFree? slot ≠ some true) → g.edgeSlotCount = indexCapacity →
      Refuses g (.addEdge source target label direction span)
        (.capacityExceeded .edge indexCapacity)
  | unfit {h cause} : g.Unfit h cause → Refuses g (.removeEdge h) cause

variable {g g' : Graph} {h : EdgeHandle} {cause : StoreError}

theorem Unfit.rejects (hunfit : g.Unfit h cause) : g.Rejects h cause := by
  apply rejects_of_liveLink
  cases hunfit with
  | outside hpast => simp only [liveLink, Array.getElem?_eq_none hpast, edgeSlotCount]
  | free hfree =>
    obtain ⟨slot, hslot, hfree⟩ := Option.map_eq_some_iff.1 hfree
    have hnone : slot.link? = none := by simpa [Slot.isFree] using hfree
    simp only [liveLink, hslot, hnone]
  | stale hfree hgeneration hne =>
    obtain ⟨slot, hslot, hfree⟩ := Option.map_eq_some_iff.1 hfree
    obtain ⟨link, hlink⟩ : ∃ link, slot.link? = some link := by
      rw [← Option.isSome_iff_exists]
      simpa [Slot.isFree] using hfree
    rw [generation?, hslot] at hgeneration
    cases hgeneration
    simp only [liveLink, hslot, hlink, if_neg hne]

theorem Rejects.unique {cause' : StoreError} (h₁ : g.Rejects h cause) (h₂ : g.Rejects h cause') :
    cause = cause' := by
  have heq := h₁.edge.symm.trans h₂.edge
  cases heq
  rfl

namespace Shape

variable {m : Ledger} {free : List Nat} {e : Edge}

/-- A handle is taken for one to a live edge unless something speaks against it. -/
theorem accepts_or_unfit (hg : g.Shape m free []) (h : EdgeHandle) :
    g.Accepts h ∨ ∃ cause, g.Unfit h cause := by
  cases hgeneration : g.generation? h.slot with
  | none =>
    have hpast : g.edgeSlotCount ≤ h.slot := by
      rwa [generation?, Option.map_eq_none_iff, Array.getElem?_eq_none_iff] at hgeneration
    exact .inr ⟨_, .outside hpast⟩
  | some current =>
    obtain ⟨isFree, hfree, -, haccepts, -⟩ := hg.answer hgeneration
    cases isFree with
    | true => exact .inr ⟨_, .free hfree⟩
    | false =>
      by_cases hcurrent : current = h.generation
      · exact .inl (haccepts rfl hcurrent)
      · exact .inr ⟨_, .stale hfree hgeneration hcurrent⟩

theorem rejects_iff (hg : g.Shape m free []) (h : EdgeHandle) (cause : StoreError) :
    g.Rejects h cause ↔ g.Unfit h cause := by
  refine ⟨fun hrejects => ?_, Unfit.rejects⟩
  rcases hg.accepts_or_unfit h with haccepts | ⟨cause', hunfit⟩
  · exact absurd hrejects haccepts.not_rejects
  · exact hrejects.unique hunfit.rejects ▸ hunfit

theorem accepts_iff (hg : g.Shape m free []) (h : EdgeHandle) :
    g.Accepts h ↔ ∀ cause, ¬ g.Unfit h cause := by
  constructor
  · intro haccepts cause hunfit
    exact haccepts.not_rejects hunfit.rejects
  · intro hfit
    rcases hg.accepts_or_unfit h with haccepts | ⟨cause, hunfit⟩
    · exact haccepts
    · exact absurd hunfit (hfit cause)

theorem isSlotFree_iff (hg : g.Shape m free []) (i : Nat) :
    g.isSlotFree? i = some true ↔ i ∈ free := by
  constructor
  · intro hfree
    obtain ⟨slot, hslot, hfree⟩ := Option.map_eq_some_iff.1 hfree
    rcases (hg.mem_cover i).1 (Array.getElem?_eq_some_iff.1 hslot).1 with hlive | hin | hspare
    · obtain ⟨e, he, rfl⟩ := List.mem_map.1 hlive
      have hholds : g.slots[e.handle.slot]? = _ := hg.holds e he
      rw [hslot] at hholds
      cases hholds
      cases hfree
    · exact hin
    · cases hspare
  · intro hin
    obtain ⟨slot, hslot, hstate⟩ := Option.map_eq_some_iff.1 (hg.freeSlot i hin)
    rw [isSlotFree?, hslot, Option.map_some, Slot.isFree, Slot.link?, hstate]
    rfl

/-- The live edges take up all the room there is exactly if no slot is free and no new one
can be had. -/
theorem full_iff (hg : g.Shape m free []) :
    indexCapacity ≤ m.live.length ↔
      (∀ slot, g.isSlotFree? slot ≠ some true) ∧ g.edgeSlotCount = indexCapacity := by
  have hcover := hg.length_cover
  have hroom := hg.slotRoom
  rw [List.length_nil, Nat.add_zero] at hcover
  have hnone : (∀ slot, g.isSlotFree? slot ≠ some true) ↔ free = [] := by
    simp only [ne_eq, hg.isSlotFree_iff, List.eq_nil_iff_forall_not_mem]
  rw [hnone, ← List.length_eq_zero_iff, edgeSlotCount]
  omega

theorem edge_ok_iff (hg : g.Shape m free []) :
    g.edge h = .ok e ↔ e ∈ m.live ∧ e.handle = h := by
  constructor
  · intro hedge
    by_cases hlive : ∃ f ∈ m.live, f.handle = h
    · obtain ⟨f, hf, rfl⟩ := hlive
      rw [hg.edge_of_mem hf] at hedge
      cases hedge
      exact ⟨hf, rfl⟩
    · obtain ⟨cause, hcause⟩ := hg.liveLink_of_not_mem fun f hf heq => hlive ⟨f, hf, heq⟩
      rw [(rejects_of_liveLink hcause).edge] at hedge
      cases hedge
  · rintro ⟨he, rfl⟩
    exact hg.edge_of_mem he

/-- A removal takes away one edge. All others are found as before. -/
theorem edge_removeEdge (hg : g.Shape m free []) (hremove : removeEdge h g = .ok () g')
    (h' : EdgeHandle) (e : Edge) : g'.edge h' = .ok e ↔ h' ≠ h ∧ g.edge h' = .ok e := by
  have hlive : ∃ f ∈ m.live, f.handle = h :=
    (hg.granted_iff (.removeEdge h)).1 ⟨g', hremove⟩
  obtain ⟨f, hf, rfl⟩ := hlive
  obtain ⟨g'', hcall, hshape⟩ := hg.removeEdge_ok hf
  cases hremove.symm.trans hcall
  rw [hshape.edge_ok_iff, hg.edge_ok_iff, Ledger.mem_removeEdge]
  constructor
  · rintro ⟨⟨he, hne⟩, rfl⟩
    exact ⟨hne, he, rfl⟩
  · rintro ⟨hne, he, rfl⟩
    exact ⟨⟨he, hne⟩, rfl⟩

/-- A call for which there is a cause is refused for this one. -/
theorem call_refused (hg : g.Shape m free []) {edit : Edit} (hrefuses : g.Refuses edit cause) :
    edit.call g = .error cause g := by
  have hcount : g.nodeCount = m.nodes.length := hg.size_nodes
  cases hrefuses with
  | nodesFull hfull =>
    have hroom : indexCapacity ≤ m.nodes.length := Nat.le_of_eq (hfull.symm.trans hcount)
    exact discard_of_error (hg.createNode_full hroom _ _ _)
  | badSource hsource =>
    rw [hcount] at hsource ⊢
    exact discard_of_error (hg.addEdge_badSource (Nat.not_lt.2 hsource) _ _ _ _)
  | badTarget hsource htarget =>
    rw [hcount] at hsource htarget ⊢
    exact discard_of_error (hg.addEdge_badTarget hsource (Nat.not_lt.2 htarget) _ _ _)
  | slotsFull hsource htarget hnone hsize =>
    rw [hcount] at hsource htarget
    have hfull := hg.full_iff.2 ⟨hnone, hsize⟩
    exact discard_of_error (hg.addEdge_full hsource htarget hfull _ _ _)
  | unfit hunfit => exact hunfit.rejects.remove

/-- A call is granted unless there is a cause against it. -/
theorem refuses_or_granted (hg : g.Shape m free []) (edit : Edit) :
    (∃ cause, g.Refuses edit cause) ∨ ∃ g', edit.call g = .ok () g' := by
  have hcount : g.nodeCount = m.nodes.length := hg.size_nodes
  cases edit with
  | createNode name kind span =>
    by_cases hroom : m.nodes.length < indexCapacity
    · obtain ⟨g', hcall, -⟩ := hg.createNode_ok hroom name kind span
      exact .inr ⟨g', discard_of_ok hcall⟩
    · have hfull := Nat.le_antisymm hg.nodeRoom (Nat.not_lt.1 hroom)
      exact .inl ⟨_, .nodesFull (hcount.trans hfull)⟩
  | addEdge source target label direction span =>
    by_cases hsource : source.index < g.nodeCount
    case neg => exact .inl ⟨_, .badSource (Nat.not_lt.1 hsource)⟩
    by_cases htarget : target.index < g.nodeCount
    case neg => exact .inl ⟨_, .badTarget hsource (Nat.not_lt.1 htarget)⟩
    by_cases hroom : m.live.length < indexCapacity
    · obtain ⟨handle, g', -, hcall, -⟩ :=
        hg.addEdge_ok (hcount ▸ hsource) (hcount ▸ htarget) hroom label direction span
      exact .inr ⟨g', discard_of_ok hcall⟩
    · obtain ⟨hnone, hsize⟩ := hg.full_iff.1 (Nat.not_lt.1 hroom)
      exact .inl ⟨_, .slotsFull hsource htarget hnone hsize⟩
  | removeEdge h =>
    rcases hg.accepts_or_unfit h with haccepts | ⟨cause, hunfit⟩
    · exact .inr haccepts.remove
    · exact .inl ⟨cause, .unfit hunfit⟩

theorem call_error_iff (hg : g.Shape m free []) (edit : Edit) (cause : StoreError) (g' : Graph) :
    edit.call g = .error cause g' ↔ g.Refuses edit cause ∧ g' = g := by
  constructor
  · intro hcall
    rcases hg.refuses_or_granted edit with ⟨cause', hrefuses⟩ | ⟨g'', hgranted⟩
    · cases hcall.symm.trans (hg.call_refused hrefuses)
      exact ⟨hrefuses, rfl⟩
    · cases hcall.symm.trans hgranted
  · rintro ⟨hrefuses, rfl⟩
    exact hg.call_refused hrefuses

end Shape

end Graph

namespace Edit

open LabelGraph.Graph

/-- After any calls, the next one fails exactly for the cause that speaks against it and then
leaves the graph as it is. Reading an edge, asking for it and removing it agree on every
handle, given out or not: it is refused exactly for the cause that speaks against it, and
accepted if there is none. A removal that is granted leaves every other edge as it is. -/
theorem run_refusals (edits : List Edit) :
    let g := (run edits).1
    (∀ (edit : Edit) (cause : StoreError) (g' : Graph),
      edit.call g = .error cause g' ↔ g.Refuses edit cause ∧ g' = g) ∧
    (∀ (h : EdgeHandle) (cause : StoreError), g.Rejects h cause ↔ g.Unfit h cause) ∧
    (∀ h : EdgeHandle, g.Accepts h ↔ ∀ cause, ¬ g.Unfit h cause) ∧
    ∀ (h : EdgeHandle) (g' : Graph), Graph.removeEdge h g = .ok () g' →
      ∀ (h' : EdgeHandle) (e : Edge), g'.edge h' = .ok e ↔ h' ≠ h ∧ g.edge h' = .ok e := by
  intro g
  obtain ⟨free, hshape⟩ := run_shape edits
  refine ⟨hshape.call_error_iff, hshape.rejects_iff, hshape.accepts_iff, ?_⟩
  intro h g' hremove
  exact hshape.edge_removeEdge hremove

/-- The older of two edges is removed. The other one stays, and the handle of the removed one
is refused from then on. -/
theorem run_refusals_older :
    let edits : List Edit :=
      [.createNode ⟨0⟩ .label .zero, .addEdge ⟨0⟩ ⟨0⟩ ⟨1⟩ .outgoing .zero,
        .addEdge ⟨0⟩ ⟨0⟩ ⟨2⟩ .incoming .zero]
    let newer : Edge := ⟨⟨1, 0⟩, ⟨0⟩, ⟨0⟩, ⟨2⟩, .incoming, .zero⟩
    ∃ g', Graph.removeEdge ⟨0, 0⟩ (run edits).1 = .ok () g' ∧ g'.edge ⟨1, 0⟩ = .ok newer ∧
      ∀ e, g'.edge ⟨0, 0⟩ ≠ .ok e := by
  intro edits newer
  obtain ⟨-, -, -, hframe⟩ := run_refusals edits
  have hremove : ∃ g', Graph.removeEdge ⟨0, 0⟩ (run edits).1 = .ok () g' := ⟨_, rfl⟩
  obtain ⟨g', hremove⟩ := hremove
  refine ⟨g', hremove, (hframe _ g' hremove ⟨1, 0⟩ newer).2 ⟨by decide, rfl⟩, ?_⟩
  intro e he
  exact ((hframe _ g' hremove ⟨0, 0⟩ e).1 he).1 rfl

end Edit

end LabelGraph
