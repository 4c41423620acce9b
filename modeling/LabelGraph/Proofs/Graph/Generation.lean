import LabelGraph.Proofs.Graph.Refinement
import Mathlib.Algebra.GroupWithZero.Nat

/-!
Stale handles. Every release of a slot counts its generation on by one and nothing else
does, so the generation of a slot says how often it was released since a handle to it was
given out. The count comes round after all values of a generation. Only there is a handle
to an edge that was removed taken for one to the edge that is in its slot by then.
-/

namespace LabelGraph

namespace Graph

variable {g g' g'' : Graph} {i : Nat} {generation : UInt32}

def generation? (g : Graph) (i : Nat) : Option UInt32 := g.slots[i]?.map Slot.generation

def SameGenerations (g g' : Graph) : Prop :=
  ∀ i generation, g.generation? i = some generation → g'.generation? i = some generation

theorem SameGenerations.refl (g : Graph) : g.SameGenerations g := fun _ _ h => h

theorem SameGenerations.trans (h : g.SameGenerations g') (h' : g'.SameGenerations g'') :
    g.SameGenerations g'' :=
  fun i generation hi => h' i generation (h i generation hi)

/-- Putting another state into a slot keeps all generations. -/
theorem SameGenerations.of_set {slot : Slot} (h : g.generation? i = some slot.generation)
    (hslots : g'.slots = g.slots.setIfInBounds i slot) : g.SameGenerations g' := by
  intro k generation hk
  rw [generation?, hslots]
  by_cases hi : i = k
  · subst hi
    obtain ⟨_, hslot, -⟩ := Option.map_eq_some_iff.1 h
    rw [Array.getElem?_setIfInBounds_self_of_lt (Array.getElem?_eq_some_iff.1 hslot).1]
    rwa [h] at hk
  · rw [Array.getElem?_setIfInBounds_ne hi]
    exact hk

/-! Granted calls. -/

section Granted

variable {n : NodeId} {source target : NodeId} {name label : Symbol} {kind : NodeKind}
  {direction : Direction} {span : Span} {f : Link → Link} {link : Link} {handle : EdgeHandle}

theorem requireNode_same (h : requireNode n g = .ok () g') : g.SameGenerations g' := by
  rw [requireNode] at h
  split at h
  · cases h
    exact .refl g
  · cases h

theorem createNode_same (h : createNode name kind span g = .ok n g') : g.SameGenerations g' := by
  rw [createNode] at h
  split at h
  · cases h
    exact .refl g
  · cases h

theorem takeSlot_same (h : takeSlot g = .ok i g') : g.SameGenerations g' := by
  rw [takeSlot] at h
  split at h
  · split at h
    · cases h
      exact .refl g
    · cases h
  · simp only at h
    split at h
    · cases h
      intro k generation hk
      obtain ⟨slot, hslot, heq⟩ := Option.map_eq_some_iff.1 hk
      have hlt := (Array.getElem?_eq_some_iff.1 hslot).1
      rw [generation?, Array.getElem?_push, if_neg (Nat.ne_of_lt hlt), hslot, Option.map_some, heq]
    · cases h

theorem modifyLink_same (h : modifyLink i f g = .ok () g') : g.SameGenerations g' := by
  rw [modifyLink] at h
  split at h
  · next generation link hslot =>
    cases h
    refine .of_set ?_ rfl
    rw [generation?, hslot]
    rfl
  · cases h

/-- The same for a change that is made only where there is a slot to be changed. -/
theorem bind_modifyLink_same {α : Type} {a : α} {j : Option Nat} {next : Unit → StoreM Graph α}
    (h : (match j with
      | some i => do
        let r ← modifyLink i f
        next r
      | _ => next ()) g = .ok a g') :
    ∃ g₁, g.SameGenerations g₁ ∧ next () g₁ = .ok a g' := by
  cases j with
  | none => exact ⟨g, .refl g, h⟩
  | some i =>
    obtain ⟨_, g₁, hlink, h⟩ := bind_ok_iff.1 h
    exact ⟨g₁, modifyLink_same hlink, h⟩

theorem occupy_same (h : occupy i link span g = .ok handle g') : g.SameGenerations g' := by
  rw [occupy] at h
  split at h
  · next generation hslot =>
    cases h
    refine .of_set ?_ rfl
    exact hslot
  · cases h

theorem setFirst_same {slot : Option Nat} (h : setFirst n slot g = .ok () g') :
    g.SameGenerations g' := by
  cases h
  exact .refl g

theorem requireLive_same (h : requireLive handle g = .ok link g') : g.SameGenerations g' := by
  rw [requireLive] at h
  split at h
  · cases h
    exact .refl g
  · cases h

theorem addEdge_same (h : addEdge source target label direction span g = .ok handle g') :
    g.SameGenerations g' := by
  simp only [addEdge] at h
  obtain ⟨_, g₁, hsource, h⟩ := bind_ok_iff.1 h
  obtain ⟨_, g₂, htarget, h⟩ := bind_ok_iff.1 h
  obtain ⟨slot, g₃, htake, h⟩ := bind_ok_iff.1 h
  rw [bind_get] at h
  obtain ⟨g₄, hnext, h⟩ := bind_modifyLink_same h
  obtain ⟨_, g₅, hoccupy, h⟩ := bind_ok_iff.1 h
  obtain ⟨_, g₆, hfirst, h⟩ := bind_ok_iff.1 h
  cases h
  exact (requireNode_same hsource).trans <| (requireNode_same htarget).trans <|
    (takeSlot_same htake).trans <| hnext.trans <| (occupy_same hoccupy).trans (setFirst_same hfirst)

/-- A removal counts the generation of its own slot on, and no other. -/
theorem removeEdge_generation (h : removeEdge handle g = .ok () g')
    (hi : g.generation? i = some generation) :
    g'.generation? i = some (if handle.slot = i then generation + 1 else generation) := by
  simp only [removeEdge] at h
  obtain ⟨link, g₁, hlive, h⟩ := bind_ok_iff.1 h
  have hsame : ∃ g₂, g₁.SameGenerations g₂ ∧ releaseSlot handle.slot g₂ = .ok () g' := by
    cases hprevious : link.previous with
    | none =>
      rw [hprevious] at h
      obtain ⟨_, g₂, hfirst, h⟩ := bind_ok_iff.1 h
      obtain ⟨g₃, hbehind, h⟩ := bind_modifyLink_same h
      exact ⟨g₃, (setFirst_same hfirst).trans hbehind, h⟩
    | some j =>
      rw [hprevious] at h
      obtain ⟨_, g₂, hbefore, h⟩ := bind_ok_iff.1 h
      obtain ⟨g₃, hbehind, h⟩ := bind_modifyLink_same h
      exact ⟨g₃, (modifyLink_same hbefore).trans hbehind, h⟩
  obtain ⟨g₂, hsame, hrelease⟩ := hsame
  obtain ⟨slot, hslot, rfl⟩ :=
    Option.map_eq_some_iff.1 (((requireLive_same hlive).trans hsame) i generation hi)
  cases hrelease
  rw [generation?, Array.getElem?_modify, hslot]
  split <;> rfl

/-! A new slot. -/

theorem requireNode_unchanged (h : requireNode n g = .ok () g') : g' = g := by
  rw [requireNode] at h
  split at h <;> cases h
  rfl

/-- Without a free slot there is a new one, which was never released. -/
theorem takeSlot_fresh (hfree : g.freeHead = none) (h : takeSlot g = .ok i g') :
    i = g.slots.size ∧ g'.generation? i = some 0 := by
  simp only [takeSlot, hfree] at h
  split at h
  · cases h
    exact ⟨rfl, by simp [generation?, Slot.fresh]⟩
  · cases h

theorem occupy_generation {generation : UInt32} (hi : g.generation? i = some generation)
    (h : occupy i link span g = .ok handle g') : handle = ⟨i, generation⟩ := by
  rw [generation?] at hi
  simp only [occupy, hi] at h
  cases h
  rfl

/-- Without a free slot an edge gets a new one. -/
theorem addEdge_fresh (hfree : g.freeHead = none)
    (h : addEdge source target label direction span g = .ok handle g') :
    handle = ⟨g.slots.size, 0⟩ := by
  simp only [addEdge] at h
  obtain ⟨_, g₁, hsource, h⟩ := bind_ok_iff.1 h
  obtain ⟨_, g₂, htarget, h⟩ := bind_ok_iff.1 h
  obtain ⟨slot, g₃, htake, h⟩ := bind_ok_iff.1 h
  rw [requireNode_unchanged htarget, requireNode_unchanged hsource] at htake
  obtain ⟨rfl, hgeneration⟩ := takeSlot_fresh hfree htake
  rw [bind_get] at h
  obtain ⟨g₄, hnext, h⟩ := bind_modifyLink_same h
  obtain ⟨_, g₅, hoccupy, h⟩ := bind_ok_iff.1 h
  obtain ⟨_, g₆, hfirst, h⟩ := bind_ok_iff.1 h
  cases h
  exact occupy_generation (hnext _ _ hgeneration) hoccupy

end Granted

/-! What a graph answers to a handle. -/

structure Accepts (g : Graph) (h : EdgeHandle) : Prop where
  edge : ∃ e, g.edge h = .ok e
  contains : g.containsEdge h = true
  remove : ∃ g', removeEdge h g = .ok () g'

/-- The handle is refused for this cause, and the graph stays as it is. -/
structure Rejects (g : Graph) (h : EdgeHandle) (cause : StoreError) : Prop where
  edge : g.edge h = .error cause
  contains : g.containsEdge h = false
  remove : removeEdge h g = .error cause g

theorem rejects_of_liveLink {h : EdgeHandle} {cause : StoreError}
    (hlive : g.liveLink h = .error cause) : g.Rejects h cause where
  edge := by simp only [Graph.edge, hlive]
  contains := by
    rw [containsEdge, hlive]
    rfl
  remove := by
    simp only [removeEdge]
    exact bind_of_error (by simp only [requireLive, hlive])

theorem Accepts.not_rejects {h : EdgeHandle} {cause : StoreError} (haccepts : g.Accepts h) :
    ¬ g.Rejects h cause := by
  intro hrejects
  have hcontains := haccepts.contains
  rw [hrejects.contains] at hcontains
  cases hcontains

namespace Shape

variable {m : Ledger} {free : List Nat} {h : EdgeHandle} {e : Edge}

theorem accepts (hg : g.Shape m free []) (he : e ∈ m.live) : g.Accepts e.handle where
  edge := ⟨e, hg.edge_of_mem he⟩
  contains := by
    rw [containsEdge, hg.liveLink_of_mem he]
    rfl
  remove := by
    obtain ⟨g', hremove, -⟩ := hg.removeEdge_ok he
    exact ⟨g', hremove⟩

/-- The state of the slot and its generation alone tell what the graph answers. -/
theorem answer (hg : g.Shape m free []) (hslot : g.generation? h.slot = some generation) :
    ∃ isFree, g.isSlotFree? h.slot = some isFree ∧
      (isFree = true → g.Rejects h (.doubleFree h.slot)) ∧
      (isFree = false → generation = h.generation → g.Accepts h) ∧
      (isFree = false → generation ≠ h.generation →
        g.Rejects h (.staleHandle h.slot h.generation generation)) := by
  obtain ⟨slot, hfound, rfl⟩ := Option.map_eq_some_iff.1 hslot
  refine ⟨slot.isFree, by rw [isSlotFree?, hfound]; rfl, ?_, ?_, ?_⟩
  · intro hfree
    have hnone : slot.link? = none := by simpa [Slot.isFree] using hfree
    exact rejects_of_liveLink (by simp only [liveLink, hfound, hnone])
  · intro hfree hgeneration
    have hinside := (Array.getElem?_eq_some_iff.1 hfound).1
    rcases (hg.mem_cover h.slot).1 hinside with hlive | hin | hspare
    · obtain ⟨e, he, hsame⟩ := List.mem_map.1 hlive
      have hholds : g.slots[e.handle.slot]? = _ := hg.holds e he
      rw [hsame, hfound] at hholds
      cases hholds
      have hhandle : e.handle = h := by
        cases hh : e.handle
        cases h
        simp_all
      exact hhandle ▸ hg.accepts he
    · have hstate := hg.freeSlot h.slot hin
      rw [hfound, Option.map_some, Option.some.injEq] at hstate
      simp [Slot.isFree, Slot.link?, hstate] at hfree
    · cases hspare
  · intro hfree hgeneration
    obtain ⟨link, hlink⟩ : ∃ link, slot.link? = some link := by
      rw [← Option.isSome_iff_exists]
      simpa [Slot.isFree] using hfree
    exact rejects_of_liveLink (by simp only [liveLink, hfound, hlink, if_neg hgeneration])

end Shape

end Graph

namespace Edit

open LabelGraph.Graph

variable {g : Graph} {m : Ledger} {free : List Nat} {slot : Nat} {generation : UInt32}

def frees (slot : Nat) (g : Graph) : Edit → Bool
  | removeEdge h =>
    match Graph.removeEdge h g with
    | .ok _ _ => h.slot = slot
    | .error _ _ => false
  | _ => false

def releases (slot : Nat) : List Edit → Graph × Ledger → Nat
  | [], _ => 0
  | edit :: edits, state =>
    (if edit.frees slot state.1 then 1 else 0) + releases slot edits (edit.perform state)

/-- A call counts the generation of a slot on exactly if it releases the slot. -/
theorem perform_generation (h : g.Shape m free []) (edit : Edit)
    (hslot : g.generation? slot = some generation) :
    (edit.perform (g, m)).1.generation? slot =
      some (if edit.frees slot g then generation + 1 else generation) := by
  rcases h.perform_cases edit with ⟨-, hgranted, -⟩ | ⟨-, hrefused, hsame⟩
  · cases edit with
    | createNode name kind span =>
      obtain ⟨n, g', hcall⟩ := hgranted
      simp only [perform, hcall]
      exact createNode_same hcall slot generation hslot
    | addEdge source target label direction span =>
      obtain ⟨handle, g', hcall⟩ := hgranted
      simp only [perform, hcall]
      exact addEdge_same hcall slot generation hslot
    | removeEdge handle =>
      obtain ⟨g', hcall⟩ := hgranted
      simp only [perform, frees, hcall, decide_eq_true_eq]
      exact removeEdge_generation hcall hslot
  · have hnot : edit.frees slot g = false := by
      cases edit with
      | removeEdge handle =>
        cases hcall : Graph.removeEdge handle g with
        | ok _ g' => exact absurd ⟨g', hcall⟩ hrefused
        | error cause g' => simp only [frees, hcall]
      | _ => rfl
    rw [hsame, hnot]
    exact hslot

/-- The generation of a slot counts its releases, as far as it can count. -/
theorem performAll_generation (edits : List Edit) {state : Graph × Ledger}
    (h : state.1.Shape state.2 free []) (hslot : state.1.generation? slot = some generation) :
    (performAll edits state).1.generation? slot =
      some (generation + UInt32.ofNat (releases slot edits state)) := by
  induction edits generalizing state free generation with
  | nil =>
      have hzero : generation + UInt32.ofNat 0 = generation := UInt32.add_zero generation
      rw [releases, hzero]
      exact hslot
  | cons edit edits ih =>
      obtain ⟨free', h'⟩ := h.perform edit
      apply (ih h' (perform_generation h edit hslot)).trans
      rw [releases, UInt32.ofNat_add, ← UInt32.add_assoc]
      split
      · rfl
      · exact congrArg (fun g => some (g + _)) (UInt32.add_zero generation).symm

/-- The count comes back to where it was after whole rounds and only then. -/
theorem generation_eq_iff (generation : UInt32) (count : Nat) :
    generation + UInt32.ofNat count = generation ↔ 2 ^ 32 ∣ count := by
  have hlt := generation.toNat_lt
  rw [← UInt32.toNat_inj, UInt32.toNat_add, UInt32.toNat_ofNat', Nat.add_mod_mod]
  omega

/-- An edge that is added has the generation of its slot. -/
theorem generation_of_addEdge (first : List Edit) {source target : NodeId} {label : Symbol}
    {direction : Direction} {span : Span} {h : EdgeHandle}
    (hadd : Graph.addEdge source target label direction span (run first).1 = .ok h g) :
    (run (first ++ [.addEdge source target label direction span])).1.generation? h.slot =
      some h.generation := by
  obtain ⟨free, hshape⟩ := run_shape (first ++ [.addEdge source target label direction span])
  have hrun : run (first ++ [.addEdge source target label direction span]) =
      (g, (run first).2.addEdge ⟨h, source, target, label, direction, span⟩) := by
    rw [run_append, performAll, List.foldl_cons, List.foldl_nil]
    simp only [perform, hadd]
  rw [hrun] at hshape ⊢
  have hlive : ⟨h, source, target, label, direction, span⟩ ∈
      ((run first).2.addEdge ⟨h, source, target, label, direction, span⟩).live :=
    List.mem_append_right _ (List.mem_singleton_self _)
  have hslot : g.slots[h.slot]? = _ := hshape.holds _ hlive
  rw [generation?, hslot]
  rfl

/-- A handle that was given out with an edge is accepted at a later point exactly if its slot is
occupied and was released a multiple of `2 ^ 32` times since. A free slot is reported as such, and
an occupied one with the generation that its releases brought it to. -/
theorem run_handle (first later : List Edit) {source target : NodeId} {label : Symbol}
    {direction : Direction} {span : Span} {h : EdgeHandle} {g : Graph}
    (hadd : Graph.addEdge source target label direction span (run first).1 = .ok h g) :
    let start := run (first ++ [.addEdge source target label direction span])
    let count := releases h.slot later start
    let now := (run (first ++ .addEdge source target label direction span :: later)).1
    ∃ isFree, now.isSlotFree? h.slot = some isFree ∧
      (now.Accepts h ↔ isFree = false ∧ 2 ^ 32 ∣ count) ∧
      (isFree = true → now.Rejects h (.doubleFree h.slot)) ∧
      (isFree = false → ¬ 2 ^ 32 ∣ count →
        now.Rejects h (.staleHandle h.slot h.generation
          (UInt32.ofNat ((h.generation.toNat + count) % 2 ^ 32)))) ∧
      (0 < count → count < 2 ^ 32 → ¬ now.Accepts h) := by
  intro start count now
  have hnow : run (first ++ .addEdge source target label direction span :: later) =
      performAll later start := by
    rw [← run_append, List.append_assoc, List.singleton_append]
  obtain ⟨free, hstart⟩ := run_shape (first ++ [.addEdge source target label direction span])
  obtain ⟨free', hshape⟩ :=
    run_shape (first ++ .addEdge source target label direction span :: later)
  have hgeneration : now.generation? h.slot = some (h.generation + UInt32.ofNat count) := by
    have hissued := generation_of_addEdge first hadd
    exact (congrArg (fun state => state.1.generation? h.slot) hnow).trans
      (performAll_generation later hstart hissued)
  have hcurrent : h.generation + UInt32.ofNat count =
      UInt32.ofNat ((h.generation.toNat + count) % 2 ^ 32) := by
    rw [← UInt32.toNat_inj, UInt32.toNat_add, UInt32.toNat_ofNat', UInt32.toNat_ofNat']
    omega
  have hround := generation_eq_iff h.generation count
  obtain ⟨isFree, hfree, hempty, hsame, hother⟩ := hshape.answer hgeneration
  have haccepts : now.Accepts h ↔ isFree = false ∧ 2 ^ 32 ∣ count := by
    constructor
    · intro hlive
      cases isFree with
      | true => exact absurd (hempty rfl) hlive.not_rejects
      | false =>
        refine ⟨rfl, Classical.byContradiction fun hcount => ?_⟩
        exact hlive.not_rejects (hother rfl fun heq => hcount (hround.1 heq))
    · rintro ⟨hoccupied, hcount⟩
      exact hsame hoccupied (hround.2 hcount)
  refine ⟨isFree, hfree, haccepts, hempty, ?_, ?_⟩
  · intro hoccupied hcount
    rw [← hcurrent]
    exact hother hoccupied fun heq => hcount (hround.1 heq)
  · intro hpos hlt hlive
    exact absurd (Nat.le_of_dvd hpos (haccepts.1 hlive).2) (Nat.not_le.2 hlt)

/-- The second edge takes the slot of the first one, whose handle is stale then. -/
theorem run_handle_reused :
    let first : List Edit := [.createNode ⟨0⟩ .label .zero]
    let later : List Edit :=
      [.removeEdge ⟨0, 0⟩, .addEdge ⟨0⟩ ⟨0⟩ ⟨1⟩ .incoming .zero]
    let start := run (first ++ [.addEdge ⟨0⟩ ⟨0⟩ ⟨1⟩ .outgoing .zero])
    let now := (run (first ++ .addEdge ⟨0⟩ ⟨0⟩ ⟨1⟩ .outgoing .zero :: later)).1
    (∃ g, Graph.addEdge ⟨0⟩ ⟨0⟩ ⟨1⟩ .outgoing .zero (run first).1 = .ok ⟨0, 0⟩ g) ∧
      releases 0 later start = 1 ∧ now.isSlotFree? 0 = some false ∧
      now.Rejects ⟨0, 0⟩ (.staleHandle 0 0 1) := by
  intro first later start now
  have hadd : ∃ g, Graph.addEdge ⟨0⟩ ⟨0⟩ ⟨1⟩ .outgoing .zero (run first).1 = .ok ⟨0, 0⟩ g :=
    ⟨_, rfl⟩
  refine ⟨hadd, ?_⟩
  obtain ⟨g, hadd⟩ := hadd
  obtain ⟨isFree, hfree, -, -, hstale, -⟩ := run_handle first later hadd
  have hcount : releases 0 later start = 1 := by decide
  have hoccupied : now.isSlotFree? 0 = some false := by decide
  refine ⟨hcount, hoccupied, ?_⟩
  have hstale := hstale (Option.some.inj (hfree.symm.trans hoccupied)) (by rw [hcount]; decide)
  rw [hcount] at hstale
  exact hstale

end Edit

end LabelGraph
