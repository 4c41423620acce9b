/-!
Why an operation on the symbol table or the graph is refused.
-/

namespace LabelGraph

/-- The number of nodes, edge slots and symbols that can be told apart. -/
def indexCapacity : Nat := 65536

/-- The three separate spaces of indices. -/
inductive IndexKind where
  | node
  | edge
  | symbol
deriving DecidableEq, Repr

instance : ToString IndexKind where
  toString
    | .node => "node"
    | .edge => "edge"
    | .symbol => "symbol"

/-- The first four causes are answers to a request. A broken link is not: it says
that the storage itself leads to a slot that is missing or in the wrong state. -/
inductive StoreError where
  | invalidIndex (kind : IndexKind) (index allocated : Nat)
  | staleHandle (slot : Nat) (generation current : UInt32)
  | doubleFree (slot : Nat)
  | capacityExceeded (kind : IndexKind) (capacity : Nat)
  | brokenLink (slot : Nat)
deriving DecidableEq, Repr

namespace StoreError

def name : StoreError → String
  | invalidIndex .. => "InvalidIndex"
  | staleHandle .. => "StaleHandle"
  | doubleFree _ => "DoubleFree"
  | capacityExceeded .. => "CapacityExceeded"
  | brokenLink _ => "BrokenLink"

def message : StoreError → String
  | invalidIndex kind index allocated =>
    s!"{kind} index {index} is out of range ({allocated} allocated)"
  | staleHandle slot generation current =>
    s!"edge handle {slot}@{generation} is stale (slot is at generation {current})"
  | doubleFree slot => s!"edge slot {slot} is already free"
  | capacityExceeded kind capacity => s!"{kind} capacity of {capacity} exhausted"
  | brokenLink slot => s!"edge slot {slot} is linked in the wrong state"

def isCapacity : StoreError → Bool
  | capacityExceeded .. => true
  | _ => false

end StoreError

/-- An operation on a store of type `σ`. It hands the store back also when it is
refused. -/
abbrev StoreM (σ : Type) := EStateM StoreError σ

/-! A sequence of two operations, taken apart and put together. -/

section Sequence

variable {ε σ α β : Type} {x : EStateM ε σ α} {f : α → EStateM ε σ β} {s t : σ}

theorem bind_of_ok {a : α} (h : x s = .ok a t) : (x >>= f) s = f a t := by
  simp only [bind, EStateM.bind, h]

theorem bind_of_error {e : ε} (h : x s = .error e t) : (x >>= f) s = .error e t := by
  simp only [bind, EStateM.bind, h]

/-- A sequence of operations succeeds if both of its parts do. -/
theorem bind_ok_iff {b : β} :
    (x >>= f) s = .ok b t ↔ ∃ a r, x s = .ok a r ∧ f a r = .ok b t := by
  cases h : x s with
  | ok a r =>
    rw [bind_of_ok h]
    exact ⟨fun hf => ⟨a, r, rfl, hf⟩, fun ⟨_, _, hx, hf⟩ => by cases hx; exact hf⟩
  | error e r => simp [bind_of_error h]

/-- A sequence of operations fails if its first part does, or the second behind it. -/
theorem bind_error_iff {e : ε} :
    (x >>= f) s = .error e t ↔
      x s = .error e t ∨ ∃ a r, x s = .ok a r ∧ f a r = .error e t := by
  cases h : x s with
  | ok a r =>
    rw [bind_of_ok h]
    refine ⟨fun hf => .inr ⟨a, r, rfl, hf⟩, ?_⟩
    intro hf
    obtain hx | ⟨_, _, hx, hf⟩ := hf
    · cases hx
    · cases hx
      exact hf
  | error e r => simp [bind_of_error h]

@[simp] theorem bind_get (f : σ → EStateM ε σ β) : (get >>= f) s = f s s := rfl

@[simp] theorem bind_modify (g : σ → σ) (f : PUnit → EStateM ε σ β) :
    (modify g >>= f) s = f ⟨⟩ (g s) := rfl

theorem discard_of_ok {a : α} (h : x s = .ok a t) : discard x s = .ok () t :=
  bind_of_ok h

theorem discard_of_error {e : ε} (h : x s = .error e t) : discard x s = .error e t :=
  bind_of_error h

end Sequence

end LabelGraph
