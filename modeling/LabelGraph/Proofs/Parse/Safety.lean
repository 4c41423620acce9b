import LabelGraph.Proofs.Parse.Formed

/-!
The operations of a parse keep the form of its graph, whether they succeed or end the parse,
and an operation on the storage fails for no other reason than that there are too many symbols
or edges.
-/

namespace LabelGraph

/-- The second ledger, with its symbols, holds all that the first one does. New edges are
references or lead to new nodes. -/
structure Ledger.Adds (m : Ledger) (t : SymbolTable) (m' : Ledger) (u : SymbolTable) : Prop where
  nodes : m.nodes <+: m'.nodes
  live : ∃ more, m'.live = m.live ++ more ∧
    ∀ e ∈ more, m'.Refers e ∨ m.nodes.length ≤ e.target.index
  symbols : t.Extends u

namespace Ledger.Adds

variable {m m' : Ledger} {t u v : SymbolTable}

theorem refl (m : Ledger) (t : SymbolTable) : m.Adds t m t :=
  ⟨List.prefix_rfl, ⟨[], by simp, by simp⟩, .refl _⟩

theorem with_symbols (h : m.Adds t m' u) (hextends : u.Extends v) : m.Adds t m' v :=
  ⟨h.nodes, h.live, h.symbols.trans hextends⟩

theorem addNode (h : m.Adds t m' u) (r : NodeRecord) : m.Adds t (m'.addNode r) u := by
  obtain ⟨more, hlive, hnew⟩ := h.live
  refine ⟨h.nodes.trans (List.prefix_append ..), ⟨more, hlive, ?_⟩, h.symbols⟩
  intro e he
  exact (hnew e he).imp_left (·.mono (List.prefix_append ..))

theorem addEdge (h : m.Adds t m' u) {e : Edge}
    (he : m'.Refers e ∨ m.nodes.length ≤ e.target.index) : m.Adds t (m'.addEdge e) u := by
  obtain ⟨more, hlive, hnew⟩ := h.live
  refine ⟨h.nodes, ⟨more ++ [e], ?_, ?_⟩, h.symbols⟩
  · rw [← List.append_assoc, ← hlive]
    rfl
  · intro f hf
    rcases List.mem_append.1 hf with hf | hf
    · exact hnew f hf
    · rwa [List.mem_singleton.1 hf]

end Ledger.Adds

/-- No token of the action spells the label of the edges of blocks. -/
def Action.Plain (a : Action) : Prop := ∀ t ∈ a.tokens, t.text ≠ Keywords.containsLabel

namespace Parse

/-- A formed state that was reached from another one. -/
structure Progress (p₀ : Parse) (m₀ : Ledger) (p : Parse) (m : Ledger) : Prop where
  formed : p.Formed m
  adds : m₀.Adds p₀.symbols m p.symbols

theorem Progress.refl {p : Parse} {m : Ledger} (h : p.Formed m) : Progress p m p m :=
  ⟨h, .refl m p.symbols⟩

/-! The actions. -/

section Actions

variable {p q : Parse} {m m' : Ledger} {a : Action} {cause : Fatal}

theorem progress_stable (p₀ : Parse) (m₀ : Ledger) :
    Stable Action.Plain
      (fun t nodes r => (∃ record ∈ nodes, record.id = r.scope ∧ record.kind = .label) ∧
        ∃ word, t.Spells r.name word) (Progress p₀ m₀) where
  sound h := h.formed.toSound
  place rest previous phase h := ⟨h.formed.with_place rest previous phase, h.adds⟩
  symbols h hintern :=
    ⟨h.formed.with_symbols hintern,
      h.adds.with_symbols (SymbolTable.intern_ok h.formed.symbols hintern).2.2⟩
  diagnostics diagnostics h := ⟨h.formed.with_diagnostics diagnostics, h.adds⟩
  scope h hr hkind :=
    ⟨h.formed.with_scope (by rintro _ ⟨⟩; exact ⟨_, hr, rfl, hkind⟩), h.adds⟩
  push span h := ⟨h.formed.push_block span, h.adds⟩
  pop h hback := ⟨h.formed.pop_block hback, h.adds⟩
  node h hplain hcreates hword hnew hgraph := by
    refine ⟨h.formed.with_node hword ?_ hnew hgraph, h.adds.addNode _⟩
    cases hcreates <;> exact hplain _ List.mem_cons_self
  inside {_ m _ s span _ owner _} h₀ howner h hcontains hgraph := by
    obtain ⟨block, hback, hblock⟩ := Option.bind_eq_some_iff.1 howner
    have hsource := h₀.formed.blockLabels block (Array.mem_of_back? hback) owner hblock
    have hnode : (m.addNode ⟨⟨m.nodes.length⟩, s, .label, span⟩).IsLabel ⟨m.nodes.length⟩ :=
      ⟨_, List.mem_append_right _ (List.mem_singleton_self _), rfl, rfl⟩
    have hlater := h₀.adds.nodes.length_le
    refine ⟨h.formed.with_edge rfl (hsource.mono (List.prefix_append ..)) (.inr ⟨?_, ?_⟩) hgraph,
      h.adds.addEdge (.inr hlater)⟩
    · exact ⟨hcontains, rfl, hnode, h₀.formed.label_lt hsource⟩
    · exact fun _ => h₀.formed.target_ne
  made h _ hword hscope := ⟨h.formed.scopeLabel _ hscope, _, hword⟩
  edge h hr htarget hgraph := by
    obtain ⟨record, hrecord, hname, rfl⟩ := (h.formed.labels _ _).1 htarget
    exact ⟨h.formed.with_edge rfl hr.1 (.inl ⟨record, hrecord, rfl, hname⟩) hgraph,
      h.adds.addEdge (.inl ⟨record, hrecord, rfl, hname⟩)⟩
  wait h hr := hr.2.elim fun _ hword => ⟨h.formed.with_pending hr.1 hword, h.adds⟩
  waiting h r hr := ⟨h.formed.pendingLabels r hr, (h.formed.pending r hr).2⟩
  taken h := ⟨h.formed.without_pending, h.adds⟩

/-- There is always room for the node of a new name. -/
theorem Halt.lawful (h : Halt p m a cause q m') (hp : p.Formed m) : cause.Lawful := by
  cases h with
  | node hintern hnew hfull =>
    have hword := (SymbolTable.intern_ok hp.symbols hintern).2.1
    have hroom := (hp.with_symbols hintern).node_room hword hnew
    exact absurd hroom (Nat.not_lt.2 hfull)
  | tooMany => exact .of_ne (by simp)
  | word => exact Fatal.IsFull.lawful ⟨_, _, rfl, .inl rfl⟩
  | containsWord => exact Fatal.IsFull.lawful ⟨_, _, rfl, .inl rfl⟩
  | containsEdge => exact Fatal.IsFull.lawful ⟨_, _, rfl, .inr rfl⟩
  | edge => exact Fatal.IsFull.lawful ⟨_, _, rfl, .inr rfl⟩

end Actions

end Parse

end LabelGraph
