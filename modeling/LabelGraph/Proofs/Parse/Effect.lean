import LabelGraph.Proofs.Graph.Growth
import LabelGraph.Proofs.Parse.Change

/-!
What an action does to the state of a parse, stated once for all of its cases: what it does
if it succeeds, and if it fails, why it does and what it has done before. The graph is
described by its ledger, and nothing is ever taken out of it. What keeps a state consistent is
stated for each part of it that an action can change, and so is the room that an action takes up.
-/

namespace LabelGraph

/-- The index space of the symbols or that of the edges is used up. -/
def StoreError.IsFull (e : StoreError) : Prop :=
  e = .capacityExceeded .symbol indexCapacity ∨ e = .capacityExceeded .edge indexCapacity

namespace Fatal

def IsFull (cause : Fatal) : Prop := ∃ e span, cause = .storage e span ∧ e.IsFull

/-- If the cause is one of the storage, an index space other than that of the nodes is full. -/
def Lawful (cause : Fatal) : Prop := ∀ e span, cause = .storage e span → e.IsFull

theorem Lawful.of_ne {cause : Fatal} (h : ∀ e span, cause ≠ .storage e span) : cause.Lawful :=
  fun e span heq => absurd heq (h e span)

theorem IsFull.lawful {cause : Fatal} (h : cause.IsFull) : cause.Lawful := by
  obtain ⟨e, span, rfl, he⟩ := h
  intro e' span' heq
  cases heq
  exact he

end Fatal

namespace Parse

/-- The ledger is that of the graph, and every handle kept beside the graph names
something that is there. -/
structure Sound (p : Parse) (m : Ledger) : Prop where
  dense : p.graph.Dense m
  symbols : p.symbols.Valid
  labels : ∀ s n, p.labels[s]? = some n ↔ ∃ r ∈ m.nodes, r.name = s ∧ r.id = n
  names : ∀ r ∈ m.nodes, ∃ word, p.symbols.Spells r.name word
  scope : ∀ n, p.scope = some n → n.index < m.nodes.length
  blocks : ∀ b ∈ p.blocks, ∀ n, b.owner = some n → n.index < m.nodes.length
  pending : ∀ r ∈ p.pending, r.scope.index < m.nodes.length ∧
    ∃ word, p.symbols.Spells r.name word

/-- The action finds a fault, and the table of symbols is `t` then. -/
inductive Faulty (p : Parse) (m : Ledger) : Action → Diagnostic → SymbolTable → Prop where
  | label {name colon : Token} {s : Symbol} {t : SymbolTable} {r : NodeRecord}
    (hintern : SymbolTable.intern name.text p.symbols = .ok s t) (hr : r ∈ m.nodes)
    (hname : r.name = s) :
    Faulty p m (.declareLabel name colon)
      (duplicateName name.text r.span (name.span.join colon.span)) t
  | external {name : Token} {s : Symbol} {t : SymbolTable} {r : NodeRecord}
    (hintern : SymbolTable.intern name.text p.symbols = .ok s t) (hr : r ∈ m.nodes)
    (hname : r.name = s) :
    Faulty p m (.declareExternal name) (duplicateName name.text r.span name.span) t
  | outside {name : Token} {d : Direction} {s : Symbol} {t : SymbolTable}
    (hintern : SymbolTable.intern name.text p.symbols = .ok s t) (hscope : p.scope = none) :
    Faulty p m (.refer name d) (outsideLabel name) t
  | deep {brace : Token} (hdeep : p.settings.maxBlockDepth.toNat ≤ p.blocks.size) :
    Faulty p m (.openBlock brace) (tooDeep p.settings.maxBlockDepth brace) p.symbols
  | unmatched {brace : Token} (hnone : p.blocks.back? = none) :
    Faulty p m (.closeBlock brace) (unmatchedBrace brace) p.symbols
  | reject {t : Token} {wanted : Wanted} :
    Faulty p m (.reject t wanted) (unexpected t wanted) p.symbols

inductive Effect (p : Parse) (m : Ledger) : Action → Parse → Ledger → Prop where
  | intern {word : Token} {s : Symbol} {t : SymbolTable}
    (hintern : SymbolTable.intern word.text p.symbols = .ok s t) :
    Effect p m (.intern word) { p with symbols := t } m
  | newLabel {name colon : Token} {s : Symbol} {t : SymbolTable} {g : Graph}
    (hintern : SymbolTable.intern name.text p.symbols = .ok s t)
    (hnew : p.labels[s]? = none) (howner : p.blocks.back?.bind Block.owner = none)
    (hnode : g.Dense (m.addNode ⟨⟨m.nodes.length⟩, s, .label, name.span.join colon.span⟩)) :
    Effect p m (.declareLabel name colon)
      { p with
        symbols := t, graph := g, labels := p.labels.insert s ⟨m.nodes.length⟩
        scope := some ⟨m.nodes.length⟩ }
      (m.addNode ⟨⟨m.nodes.length⟩, s, .label, name.span.join colon.span⟩)
  | newLabelInside {name colon : Token} {s contains : Symbol} {t u : SymbolTable} {g h : Graph}
    {owner : NodeId}
    (hintern : SymbolTable.intern name.text p.symbols = .ok s t)
    (hnew : p.labels[s]? = none) (howner : p.blocks.back?.bind Block.owner = some owner)
    (hcontains : SymbolTable.intern Keywords.containsLabel t = .ok contains u)
    (hnode : g.Dense (m.addNode ⟨⟨m.nodes.length⟩, s, .label, name.span.join colon.span⟩))
    (hedge : h.Dense
      ((m.addNode ⟨⟨m.nodes.length⟩, s, .label, name.span.join colon.span⟩).addEdge
        ⟨⟨m.live.length, 0⟩, owner, ⟨m.nodes.length⟩, contains, .outgoing,
          name.span.join colon.span⟩)) :
    Effect p m (.declareLabel name colon)
      { p with
        symbols := u, graph := h, labels := p.labels.insert s ⟨m.nodes.length⟩
        scope := some ⟨m.nodes.length⟩ }
      ((m.addNode ⟨⟨m.nodes.length⟩, s, .label, name.span.join colon.span⟩).addEdge
        ⟨⟨m.live.length, 0⟩, owner, ⟨m.nodes.length⟩, contains, .outgoing,
          name.span.join colon.span⟩)
  | oldLabel {name colon : Token} {s : Symbol} {t : SymbolTable} {r : NodeRecord}
    (hintern : SymbolTable.intern name.text p.symbols = .ok s t) (hr : r ∈ m.nodes)
    (hname : r.name = s) :
    Effect p m (.declareLabel name colon)
      { p with
        symbols := t
        diagnostics := p.diagnostics.push
          (duplicateName name.text r.span (name.span.join colon.span))
        scope := if r.kind = .label then some r.id else p.scope } m
  | newExternal {name : Token} {s : Symbol} {t : SymbolTable} {g : Graph}
    (hintern : SymbolTable.intern name.text p.symbols = .ok s t) (hnew : p.labels[s]? = none)
    (hnode : g.Dense (m.addNode ⟨⟨m.nodes.length⟩, s, .external, name.span⟩)) :
    Effect p m (.declareExternal name)
      { p with symbols := t, graph := g, labels := p.labels.insert s ⟨m.nodes.length⟩ }
      (m.addNode ⟨⟨m.nodes.length⟩, s, .external, name.span⟩)
  | oldExternal {name : Token} {s : Symbol} {t : SymbolTable} {r : NodeRecord}
    (hintern : SymbolTable.intern name.text p.symbols = .ok s t) (hr : r ∈ m.nodes)
    (hname : r.name = s) :
    Effect p m (.declareExternal name)
      { p with
        symbols := t
        diagnostics := p.diagnostics.push (duplicateName name.text r.span name.span) } m
  | outside {name : Token} {d : Direction} {s : Symbol} {t : SymbolTable}
    (hintern : SymbolTable.intern name.text p.symbols = .ok s t) (hscope : p.scope = none) :
    Effect p m (.refer name d)
      { p with symbols := t, diagnostics := p.diagnostics.push (outsideLabel name) } m
  | linked {name : Token} {d : Direction} {s : Symbol} {t : SymbolTable} {g : Graph}
    {scope target : NodeId}
    (hintern : SymbolTable.intern name.text p.symbols = .ok s t) (hscope : p.scope = some scope)
    (htarget : p.labels[s]? = some target)
    (hedge : g.Dense (m.addEdge ⟨⟨m.live.length, 0⟩, scope, target, s, d, name.span⟩)) :
    Effect p m (.refer name d) { p with symbols := t, graph := g }
      (m.addEdge ⟨⟨m.live.length, 0⟩, scope, target, s, d, name.span⟩)
  | queued {name : Token} {d : Direction} {s : Symbol} {t : SymbolTable} {scope : NodeId}
    (hintern : SymbolTable.intern name.text p.symbols = .ok s t) (hscope : p.scope = some scope)
    (hnone : p.labels[s]? = none) :
    Effect p m (.refer name d)
      { p with symbols := t, pending := p.pending.push ⟨scope, s, d, name.span⟩ } m
  | openBlock {brace : Token} :
    Effect p m (.openBlock brace)
      { p with
        diagnostics :=
          if p.settings.maxBlockDepth.toNat ≤ p.blocks.size then
            p.diagnostics.push (tooDeep p.settings.maxBlockDepth brace)
          else p.diagnostics
        blocks := p.blocks.push { owner := p.scope, span := brace.span } } m
  | closeBlock {brace : Token} {block : Block} (hblock : p.blocks.back? = some block) :
    Effect p m (.closeBlock brace) { p with blocks := p.blocks.pop, scope := block.owner } m
  | unmatched {brace : Token} (hnone : p.blocks.back? = none) :
    Effect p m (.closeBlock brace)
      { p with diagnostics := p.diagnostics.push (unmatchedBrace brace) } m
  | reject {t : Token} {wanted : Wanted} :
    Effect p m (.reject t wanted)
      { p with diagnostics := p.diagnostics.push (unexpected t wanted) } m

/-- Why an action fails, and what it has done until then. -/
inductive Halt (p : Parse) (m : Ledger) : Action → Fatal → Parse → Ledger → Prop where
  | word {a : Action} {span : Span} (hfull : indexCapacity ≤ p.symbols.size) :
    Halt p m a (.storage (.capacityExceeded .symbol indexCapacity) span) p m
  | node {a : Action} {word : String} {s : Symbol} {t : SymbolTable} {span : Span}
    (hintern : SymbolTable.intern word p.symbols = .ok s t) (hnew : p.labels[s]? = none)
    (hfull : indexCapacity ≤ m.nodes.length) :
    Halt p m a (.storage (.capacityExceeded .node indexCapacity) span) { p with symbols := t } m
  | containsWord {name colon : Token} {s : Symbol} {t : SymbolTable} {g : Graph}
    (hintern : SymbolTable.intern name.text p.symbols = .ok s t) (hnew : p.labels[s]? = none)
    (hnode : g.Dense (m.addNode ⟨⟨m.nodes.length⟩, s, .label, name.span.join colon.span⟩))
    (hfull : indexCapacity ≤ t.size) :
    Halt p m (.declareLabel name colon)
      (.storage (.capacityExceeded .symbol indexCapacity) (name.span.join colon.span))
      { p with symbols := t, graph := g, labels := p.labels.insert s ⟨m.nodes.length⟩ }
      (m.addNode ⟨⟨m.nodes.length⟩, s, .label, name.span.join colon.span⟩)
  | containsEdge {name colon : Token} {s contains : Symbol} {t u : SymbolTable} {g : Graph}
    (hintern : SymbolTable.intern name.text p.symbols = .ok s t) (hnew : p.labels[s]? = none)
    (hcontains : SymbolTable.intern Keywords.containsLabel t = .ok contains u)
    (hnode : g.Dense (m.addNode ⟨⟨m.nodes.length⟩, s, .label, name.span.join colon.span⟩))
    (hfull : indexCapacity ≤ m.live.length) :
    Halt p m (.declareLabel name colon)
      (.storage (.capacityExceeded .edge indexCapacity) (name.span.join colon.span))
      { p with symbols := u, graph := g, labels := p.labels.insert s ⟨m.nodes.length⟩ }
      (m.addNode ⟨⟨m.nodes.length⟩, s, .label, name.span.join colon.span⟩)
  | edge {name : Token} {d : Direction} {s : Symbol} {t : SymbolTable}
    (hintern : SymbolTable.intern name.text p.symbols = .ok s t)
    (hfull : indexCapacity ≤ m.live.length) :
    Halt p m (.refer name d) (.storage (.capacityExceeded .edge indexCapacity) name.span)
      { p with symbols := t } m
  | tooMany {a : Action} {d : Diagnostic} {t : SymbolTable} {limit : UInt32}
    (hfaulty : Faulty p m a d t) (hlimit : p.settings.maxDiagnostics = some limit) :
    Halt p m a (.tooMany d.span) { p with symbols := t, diagnostics := p.diagnostics.push d } m

theorem Faulty.interned {p : Parse} {m : Ledger} {a : Action} {d : Diagnostic} {t : SymbolTable}
    (h : Faulty p m a d t) :
    t = p.symbols ∨ ∃ word s, SymbolTable.intern word p.symbols = .ok s t := by
  cases h with
  | label hintern => exact .inr ⟨_, _, hintern⟩
  | external hintern => exact .inr ⟨_, _, hintern⟩
  | outside hintern => exact .inr ⟨_, _, hintern⟩
  | _ => exact .inl rfl

/-- There is room for `n` more symbols, nodes and edges. -/
structure Room (t : SymbolTable) (m : Ledger) (n : Nat) : Prop where
  symbols : t.size + n ≤ indexCapacity
  nodes : m.nodes.length + n ≤ indexCapacity
  edges : m.live.length + n ≤ indexCapacity

/-- Where there should be room for `n` more of everything there is not, or the limit on
diagnostics is reached. -/
def AtLimit (p : Parse) (m : Ledger) (n : Nat) (cause : Fatal) : Prop :=
  (∃ error span, cause = .storage error span ∧ error.isCapacity ∧ ¬ Room p.symbols m n) ∨
    ∃ span limit, cause = .tooMany span ∧ p.settings.maxDiagnostics = some limit

section Room

variable {t u : SymbolTable} {m m' : Ledger} {n k : Nat} {p q : Parse} {cause : Fatal}

theorem Room.mono (h : Room t m n) (hle : k ≤ n) : Room t m k where
  symbols := Nat.le_trans (Nat.add_le_add_left hle _) h.symbols
  nodes := Nat.le_trans (Nat.add_le_add_left hle _) h.nodes
  edges := Nat.le_trans (Nat.add_le_add_left hle _) h.edges

theorem Room.intern (h : Room t m (n + 1)) {word : String} {s : Symbol}
    (hintern : SymbolTable.intern word t = .ok s u) : Room u m n where
  symbols := by
    have hsize := SymbolTable.intern_size hintern
    have hroom := h.symbols
    omega
  nodes := (h.mono (Nat.le_succ n)).nodes
  edges := (h.mono (Nat.le_succ n)).edges

theorem Room.addNode (h : Room t m (n + 1)) (r : NodeRecord) : Room t (m.addNode r) n where
  symbols := (h.mono (Nat.le_succ n)).symbols
  nodes := by
    have hroom := h.nodes
    simp
    omega
  edges := (h.mono (Nat.le_succ n)).edges

theorem Room.addEdge (h : Room t m (n + 1)) (e : Edge) : Room t (m.addEdge e) n where
  symbols := (h.mono (Nat.le_succ n)).symbols
  nodes := (h.mono (Nat.le_succ n)).nodes
  edges := by
    have hroom := h.edges
    simp
    omega

/-- An effect takes up room for at most four things. -/
theorem Effect.room {a : Action} (h : Effect p m a q m') (hroom : Room p.symbols m (n + 4)) :
    Room q.symbols m' n := by
  have hone := hroom.mono (Nat.add_le_add_left (by decide : 1 ≤ 4) n)
  have htwo := hroom.mono (Nat.add_le_add_left (by decide : 2 ≤ 4) n)
  cases h with
  | intern hintern => exact hone.intern hintern
  | newLabel hintern => exact (htwo.intern hintern).addNode _
  | newLabelInside hintern _ _ hcontains =>
    exact (((hroom.intern hintern).intern hcontains).addNode _).addEdge _
  | oldLabel hintern => exact hone.intern hintern
  | newExternal hintern => exact (htwo.intern hintern).addNode _
  | oldExternal hintern => exact hone.intern hintern
  | outside hintern => exact hone.intern hintern
  | linked hintern => exact (htwo.intern hintern).addEdge _
  | queued hintern => exact hone.intern hintern
  | _ => exact hroom.mono (Nat.le_add_right n 4)

theorem AtLimit.of_room (h : q.AtLimit m' k cause) (hsettings : q.settings = p.settings)
    (hroom : Room p.symbols m n → Room q.symbols m' k) : p.AtLimit m n cause := by
  rcases h with ⟨error, span, rfl, hcapacity, hfull⟩ | ⟨span, limit, rfl, hlimit⟩
  · exact .inl ⟨error, span, rfl, hcapacity, fun h => hfull (hroom h)⟩
  · exact .inr ⟨span, limit, rfl, hsettings ▸ hlimit⟩

theorem AtLimit.mono (h : p.AtLimit m k cause) (hle : k ≤ n) : p.AtLimit m n cause :=
  h.of_room rfl fun hroom => hroom.mono hle

/-- An action fails for no other reason than a limit. -/
theorem Halt.atLimit {a : Action} (h : Halt p m a cause q m') : p.AtLimit m 4 cause := by
  cases h with
  | word hfull =>
    refine .inl ⟨_, _, rfl, rfl, fun hroom => ?_⟩
    have := hroom.symbols
    omega
  | node _ _ hfull =>
    refine .inl ⟨_, _, rfl, rfl, fun hroom => ?_⟩
    have := hroom.nodes
    omega
  | containsWord hintern _ _ hfull =>
    refine .inl ⟨_, _, rfl, rfl, fun hroom => ?_⟩
    have := (hroom.intern hintern).symbols
    omega
  | containsEdge _ _ _ _ hfull =>
    refine .inl ⟨_, _, rfl, rfl, fun hroom => ?_⟩
    have := hroom.edges
    omega
  | edge _ hfull =>
    refine .inl ⟨_, _, rfl, rfl, fun hroom => ?_⟩
    have := hroom.edges
    omega
  | tooMany _ hlimit => exact .inr ⟨_, _, rfl, hlimit⟩

end Room

/-! Consistency. -/

namespace Sound

variable {p : Parse} {m : Ledger} {s : Symbol} {t : SymbolTable} {g : Graph} {r : NodeRecord}

theorem with_place (h : p.Sound m) (rest : List Token) (previous : Span) (phase : Phase) :
    Sound { p with rest, previous, phase } m :=
  ⟨h.dense, h.symbols, h.labels, h.names, h.scope, h.blocks, h.pending⟩

theorem with_symbols (h : p.Sound m) {word : String}
    (hintern : SymbolTable.intern word p.symbols = .ok s t) : Sound { p with symbols := t } m := by
  obtain ⟨ht, -, hextends⟩ := SymbolTable.intern_ok h.symbols hintern
  exact
    { h with
      symbols := ht
      names := fun r hr => (h.names r hr).imp fun word hword => hextends r.name word hword
      pending := fun r hr =>
        (h.pending r hr).imp_right (·.imp fun word hword => hextends r.name word hword) }

theorem with_diagnostics (h : p.Sound m) (diagnostics : Array Diagnostic) :
    Sound { p with diagnostics } m :=
  ⟨h.dense, h.symbols, h.labels, h.names, h.scope, h.blocks, h.pending⟩

theorem with_scope (h : p.Sound m) {scope : Option NodeId}
    (hscope : ∀ n, scope = some n → n.index < m.nodes.length) : Sound { p with scope } m :=
  ⟨h.dense, h.symbols, h.labels, h.names, hscope, h.blocks, h.pending⟩

theorem with_blocks (h : p.Sound m) {blocks : Array Block}
    (hblocks : ∀ b ∈ blocks, ∀ n, b.owner = some n → n.index < m.nodes.length) :
    Sound { p with blocks } m :=
  ⟨h.dense, h.symbols, h.labels, h.names, h.scope, hblocks, h.pending⟩

theorem push_block (h : p.Sound m) (span : Span) :
    Sound { p with blocks := p.blocks.push { owner := p.scope, span } } m := by
  refine h.with_blocks fun b hb n hn => ?_
  rcases Array.mem_push.1 hb with hb | rfl
  · exact h.blocks b hb n hn
  · exact h.scope n hn

theorem pop_block (h : p.Sound m) {block : Block} (hback : p.blocks.back? = some block) :
    Sound { p with blocks := p.blocks.pop, scope := block.owner } m := by
  have hpop : Sound { p with blocks := p.blocks.pop } m := h.with_blocks fun b hb => by
    apply h.blocks b
    rw [← Array.mem_toList_iff, Array.toList_pop] at hb
    exact Array.mem_toList_iff.1 ((List.dropLast_sublist _).subset hb)
  exact hpop.with_scope (h.blocks block (Array.mem_of_back? hback))

theorem with_pending (h : p.Sound m) {r : Reference} {word : String}
    (hscope : r.scope.index < m.nodes.length) (hname : p.symbols.Spells r.name word) :
    Sound { p with pending := p.pending.push r } m :=
  { h with
    pending := by
      intro r' hr'
      rcases Array.mem_push.1 hr' with hr' | rfl
      · exact h.pending r' hr'
      · exact ⟨hscope, word, hname⟩ }

theorem without_pending (h : p.Sound m) : Sound { p with pending := #[] } m :=
  { h with pending := by simp }

theorem index_lt (h : p.Sound m) (hr : r ∈ m.nodes) : r.id.index < m.nodes.length := by
  obtain ⟨i, hi, rfl⟩ := List.mem_iff_getElem.1 hr
  rw [h.dense.shape.nodeId i _ (List.getElem?_eq_getElem hi)]
  exact hi

theorem label_lt (h : p.Sound m) {n : NodeId} (hn : p.labels[s]? = some n) :
    n.index < m.nodes.length := by
  obtain ⟨r, hr, -, rfl⟩ := (h.labels s n).1 hn
  exact h.index_lt hr

theorem owner_lt (h : p.Sound m) {owner : NodeId}
    (howner : p.blocks.back?.bind Block.owner = some owner) : owner.index < m.nodes.length := by
  obtain ⟨block, hback, hblock⟩ := Option.bind_eq_some_iff.1 howner
  exact h.blocks block (Array.mem_of_back? hback) owner hblock

/-- What the graph tells about a node is what the ledger says. -/
theorem node_of_mem (h : p.Sound m) (hr : r ∈ m.nodes) :
    (∃ first, p.graph.node r.id = .ok { name := r.name, kind := r.kind, first }) ∧
      p.graph.nodeSpan r.id = .ok r.span := by
  obtain ⟨i, hi, rfl⟩ := List.mem_iff_getElem.1 hr
  have hrecord := List.getElem?_eq_getElem hi
  rw [h.dense.shape.nodeId i _ hrecord]
  exact ⟨⟨_, h.dense.shape.node_eq hrecord⟩, h.dense.shape.nodeSpan_eq hrecord⟩

theorem with_edge (h : p.Sound m) {e : Edge} (hgraph : g.Dense (m.addEdge e)) :
    Sound { p with graph := g } (m.addEdge e) :=
  ⟨hgraph, h.symbols, h.labels, h.names, h.scope, h.blocks, h.pending⟩

theorem with_node (h : p.Sound m) {kind : NodeKind} {span : Span} {word : String}
    (hword : p.symbols.Spells s word) (hnew : p.labels[s]? = none)
    (hgraph : g.Dense (m.addNode ⟨⟨m.nodes.length⟩, s, kind, span⟩)) :
    Sound { p with graph := g, labels := p.labels.insert s ⟨m.nodes.length⟩ }
      (m.addNode ⟨⟨m.nodes.length⟩, s, kind, span⟩) where
  dense := hgraph
  symbols := h.symbols
  labels := by
    intro s' n
    simp only [Std.HashMap.getElem?_insert, Ledger.nodes_addNode, List.mem_append,
      List.mem_singleton]
    by_cases hs : s = s'
    · subst hs
      have hnone : ∀ r ∈ m.nodes, r.name ≠ s := by
        intro r hr hname
        have hfound := (h.labels s r.id).2 ⟨r, hr, hname, rfl⟩
        rw [hnew] at hfound
        cases hfound
      rw [if_pos (by simp)]
      constructor
      · intro heq
        exact ⟨_, .inr rfl, rfl, Option.some.inj heq⟩
      · rintro ⟨r, hr | rfl, hname, rfl⟩
        · exact absurd hname (hnone r hr)
        · rfl
    · rw [if_neg (by simpa using hs), h.labels]
      constructor
      · rintro ⟨r, hr, hname, hid⟩
        exact ⟨r, .inl hr, hname, hid⟩
      · rintro ⟨r, hr | rfl, hname, hid⟩
        · exact ⟨r, hr, hname, hid⟩
        · exact absurd hname hs
  names r hr := by
    rcases List.mem_append.1 hr with hr | hr
    · exact h.names r hr
    · rw [List.mem_singleton.1 hr]
      exact ⟨word, hword⟩
  scope n hn := Nat.lt_of_lt_of_le (h.scope n hn) (by simp)
  blocks b hb n hn := Nat.lt_of_lt_of_le (h.blocks b hb n hn) (by simp)
  pending r hr := (h.pending r hr).imp_left fun hlt =>
    Nat.lt_of_lt_of_le hlt (by simp)

end Sound

end Parse

end LabelGraph
