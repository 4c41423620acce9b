import LabelGraph.Proofs.Graph.Growth
import LabelGraph.Proofs.Parse.Course
import Mathlib.Data.List.Perm.Subperm

/-!
The form of a graph while it is parsed. Nothing is ever taken out of it, so its tables have
no gaps. Its nodes have different names, and each edge is a reference, which has the name of
its target as its label, or leads from the owner of a block to a label inside the block. The
names are symbols, and a new one leaves room for its node.
-/

namespace LabelGraph

namespace Ledger

variable {m m' : Ledger} {n : NodeId} {e : Edge}

def IsLabel (m : Ledger) (n : NodeId) : Prop := ∃ r ∈ m.nodes, r.id = n ∧ r.kind = .label

def Refers (m : Ledger) (e : Edge) : Prop := ∃ r ∈ m.nodes, r.id = e.target ∧ r.name = e.label

theorem IsLabel.mono (h : m.IsLabel n) (hnodes : m.nodes <+: m'.nodes) : m'.IsLabel n :=
  h.imp fun _ => And.imp_left (hnodes.subset ·)

theorem Refers.mono (h : m.Refers e) (hnodes : m.nodes <+: m'.nodes) : m'.Refers e :=
  h.imp fun _ => And.imp_left (hnodes.subset ·)

/-- The edge leads from the owner of a block to a label inside the block, under these
symbols. -/
structure Contains (m : Ledger) (t : SymbolTable) (e : Edge) : Prop where
  label : t.Spells e.label Keywords.containsLabel
  direction : e.direction = .outgoing
  target : m.IsLabel e.target
  later : e.source.index < e.target.index

theorem Contains.mono {t u : SymbolTable} (h : m.Contains t e) (hsymbols : t.Extends u)
    (hnodes : m.nodes <+: m'.nodes) : m'.Contains u e :=
  ⟨hsymbols _ _ h.label, h.direction, h.target.mono hnodes, h.later⟩

end Ledger

namespace Parse

/-- The state is consistent, and its graph has the form that parsing gives it. -/
structure Formed (p : Parse) (m : Ledger) : Prop extends Sound p m where
  unreleased : ∀ e ∈ m.live, e.handle.generation = 0
  room : p.symbols.size ≤ indexCapacity
  plain : ∀ r ∈ m.nodes, ¬ p.symbols.Spells r.name Keywords.containsLabel
  scopeLabel : ∀ n, p.scope = some n → m.IsLabel n
  blockLabels : ∀ b ∈ p.blocks, ∀ n, b.owner = some n → m.IsLabel n
  pendingLabels : ∀ r ∈ p.pending, m.IsLabel r.scope
  sources : ∀ e ∈ m.live, m.IsLabel e.source
  edges : ∀ e ∈ m.live, m.Refers e ∨ m.Contains p.symbols e
  single : m.live.Pairwise fun e f => ¬ m.Refers e → ¬ m.Refers f → e.target ≠ f.target

namespace Formed

variable {p q : Parse} {m : Ledger} {s : Symbol} {t : SymbolTable} {g : Graph} {n : NodeId}

theorem label_lt (h : p.Formed m) (hn : m.IsLabel n) : n.index < m.nodes.length := by
  obtain ⟨r, hr, rfl, -⟩ := hn
  exact h.index_lt hr

/-- No edge leads to the node that is created next. -/
theorem target_ne (h : p.Formed m) {e : Edge} (he : e ∈ m.live) : e.target ≠ ⟨m.nodes.length⟩ := by
  intro heq
  have hlt := h.dense.shape.target e he
  rw [heq] at hlt
  exact Nat.lt_irrefl _ hlt

/-- A reference never has the label of a block's edge. -/
theorem refers_iff (h : p.Formed m) {e : Edge} (he : e ∈ m.live) :
    m.Refers e ↔ ¬ p.symbols.Spells e.label Keywords.containsLabel := by
  constructor
  · rintro ⟨r, hr, -, hname⟩ hlabel
    apply h.plain r hr
    rwa [hname]
  · intro hlabel
    rcases h.edges e he with hrefers | hcontains
    · exact hrefers
    · exact absurd hcontains.label hlabel

theorem names_eq (h : p.Formed m) :
    p.graph.nodes.toList.map (·.name) = m.nodes.map (·.name) := by
  have hnodes := congrArg (List.map Prod.fst) h.dense.nodes
  rwa [List.map_map, List.map_map] at hnodes

theorem names_nodup (h : p.Formed m) : (m.nodes.map (·.name)).Nodup := by
  rw [List.Nodup, List.pairwise_map, List.pairwise_iff_getElem]
  intro i j hi hj hlt hname
  have hfirst := (h.labels _ _).2 ⟨m.nodes[i], List.getElem_mem hi, rfl, rfl⟩
  have hsecond := (h.labels _ _).2 ⟨m.nodes[j], List.getElem_mem hj, rfl, rfl⟩
  rw [hname, hsecond, Option.some.injEq, h.dense.shape.nodeId i _ (List.getElem?_eq_getElem hi),
    h.dense.shape.nodeId j _ (List.getElem?_eq_getElem hj)] at hfirst
  exact absurd (congrArg NodeId.index hfirst) (Nat.ne_of_gt hlt)

/-- A symbol that is no label is the name of no node. -/
theorem name_new (h : p.Formed m) (hnew : p.labels[s]? = none) : s ∉ m.nodes.map (·.name) := by
  intro hs
  obtain ⟨r, hr, hname⟩ := List.mem_map.1 hs
  have hfound := (h.labels s r.id).2 ⟨r, hr, hname, rfl⟩
  rw [hnew] at hfound
  cases hfound

/-- A word that is the name of no node is no label when it is interned. -/
theorem label_new (h : p.Formed m) {word : String}
    (hnew : ∀ r ∈ m.nodes, ¬ p.symbols.Spells r.name word)
    (hintern : SymbolTable.intern word p.symbols = .ok s t) : p.labels[s]? = none := by
  obtain ⟨-, hword, hextends⟩ := SymbolTable.intern_ok h.symbols hintern
  apply Option.eq_none_iff_forall_not_mem.2
  intro n hn
  obtain ⟨r, hr, hname, -⟩ := (h.labels s n).1 hn
  obtain ⟨old, hold⟩ := h.names r hr
  have hsame : some old = some word := (hextends _ _ hold).symm.trans (hname ▸ hword)
  apply hnew r hr
  rwa [Option.some.inj hsame] at hold

/-- The name of a node is its label when it is interned again. -/
theorem label_old (h : p.Formed m) {r : NodeRecord} (hr : r ∈ m.nodes) {word : String}
    (hold : p.symbols.Spells r.name word)
    (hintern : SymbolTable.intern word p.symbols = .ok s t) : p.labels[s]? = some r.id := by
  obtain ⟨ht, hword, hextends⟩ := SymbolTable.intern_ok h.symbols hintern
  rw [h.labels]
  exact ⟨r, hr, ht.inj (hextends _ _ hold) hword, rfl⟩

/-- The names of the nodes and a new one are different symbols. There are more symbols than
nodes, then, and the number of symbols is bounded. -/
theorem node_room (h : p.Formed m) {word : String} (hword : p.symbols.Spells s word)
    (hnew : p.labels[s]? = none) : m.nodes.length < indexCapacity := by
  have hnodup : ((s :: m.nodes.map (·.name)).map Symbol.index).Nodup := by
    apply (List.nodup_cons.2 ⟨h.name_new hnew, h.names_nodup⟩).map
    intro a b hab
    cases a
    cases b
    exact congrArg Symbol.mk hab
  have hbound : (s :: m.nodes.map (·.name)).map Symbol.index ⊆ List.range p.symbols.size := by
    have hlt {r : Symbol} {word : String} (hr : p.symbols.Spells r word) :
        r.index ∈ List.range p.symbols.size :=
      List.mem_range.2 (Array.getElem?_eq_some_iff.1 hr).1
    intro i hi
    obtain ⟨r, hr, rfl⟩ := List.mem_map.1 hi
    rcases List.mem_cons.1 hr with rfl | hr
    · exact hlt hword
    · obtain ⟨record, hrecord, rfl⟩ := List.mem_map.1 hr
      exact (h.names record hrecord).elim fun _ => hlt
  have hlength := (List.subperm_of_subset hnodup hbound).length_le
  rw [List.length_map, List.length_cons, List.length_map, List.length_range] at hlength
  exact Nat.lt_of_lt_of_le hlength h.room

/-! Changes of the state. -/

theorem with_place (h : p.Formed m) (rest : List Token) (previous : Span) (phase : Phase) :
    Formed { p with rest, previous, phase } m :=
  { h with toSound := h.toSound.with_place rest previous phase }

theorem with_diagnostics (h : p.Formed m) (diagnostics : Array Diagnostic) :
    Formed { p with diagnostics } m :=
  { h with toSound := h.toSound.with_diagnostics diagnostics }

theorem with_scope (h : p.Formed m) {scope : Option NodeId}
    (hscope : ∀ n, scope = some n → m.IsLabel n) : Formed { p with scope } m :=
  { h with
    toSound := h.toSound.with_scope fun n hn => h.label_lt (hscope n hn)
    scopeLabel := hscope }

theorem with_blocks (h : p.Formed m) {blocks : Array Block}
    (hblocks : ∀ b ∈ blocks, ∀ n, b.owner = some n → m.IsLabel n) : Formed { p with blocks } m :=
  { h with
    toSound := h.toSound.with_blocks fun b hb n hn => h.label_lt (hblocks b hb n hn)
    blockLabels := hblocks }

theorem push_block (h : p.Formed m) (span : Span) :
    Formed { p with blocks := p.blocks.push { owner := p.scope, span } } m := by
  refine h.with_blocks fun b hb n hn => ?_
  rcases Array.mem_push.1 hb with hb | rfl
  · exact h.blockLabels b hb n hn
  · exact h.scopeLabel n hn

theorem pop_block (h : p.Formed m) {block : Block} (hback : p.blocks.back? = some block) :
    Formed { p with blocks := p.blocks.pop, scope := block.owner } m := by
  have hpop : Formed { p with blocks := p.blocks.pop } m := h.with_blocks fun b hb => by
    apply h.blockLabels b
    rw [← Array.mem_toList_iff, Array.toList_pop] at hb
    exact Array.mem_toList_iff.1 ((List.dropLast_sublist _).subset hb)
  exact hpop.with_scope (h.blockLabels block (Array.mem_of_back? hback))

theorem with_pending (h : p.Formed m) {r : Reference} {word : String} (hscope : m.IsLabel r.scope)
    (hname : p.symbols.Spells r.name word) :
    Formed { p with pending := p.pending.push r } m :=
  { h with
    toSound := h.toSound.with_pending (h.label_lt hscope) hname
    pendingLabels := by
      intro r' hr'
      rcases Array.mem_push.1 hr' with hr' | rfl
      · exact h.pendingLabels r' hr'
      · exact hscope }

theorem without_pending (h : p.Formed m) : Formed { p with pending := #[] } m :=
  { h with
    toSound := h.toSound.without_pending
    pendingLabels := by simp }

/-- One more word leaves every name as it was. -/
theorem with_symbols (h : p.Formed m) {word : String}
    (hintern : SymbolTable.intern word p.symbols = .ok s t) : Formed { p with symbols := t } m := by
  have hextends := (SymbolTable.intern_ok h.symbols hintern).2.2
  exact
    { h with
      toSound := h.toSound.with_symbols hintern
      room := SymbolTable.intern_room h.room hintern
      plain := by
        intro r hr hcontains
        obtain ⟨word, hword⟩ := h.names r hr
        have hsame : some word = some Keywords.containsLabel :=
          (hextends _ _ hword).symm.trans hcontains
        apply h.plain r hr
        rwa [Option.some.inj hsame] at hword
      edges := by
        intro e he
        exact (h.edges e he).imp_right fun hcontains => hcontains.mono hextends List.prefix_rfl }

/-- A node is added with a name that no node has yet. -/
theorem with_node (h : p.Formed m) {kind : NodeKind} {span : Span} {word : String}
    (hword : p.symbols.Spells s word) (hplain : word ≠ Keywords.containsLabel)
    (hnew : p.labels[s]? = none)
    (hgraph : g.Dense (m.addNode ⟨⟨m.nodes.length⟩, s, kind, span⟩)) :
    Formed { p with graph := g, labels := p.labels.insert s ⟨m.nodes.length⟩ }
      (m.addNode ⟨⟨m.nodes.length⟩, s, kind, span⟩) := by
  have hnodes : m.nodes <+: (m.addNode ⟨⟨m.nodes.length⟩, s, kind, span⟩).nodes :=
    List.prefix_append ..
  exact
    { toSound := h.toSound.with_node hword hnew hgraph
      unreleased := h.unreleased
      room := h.room
      plain := by
        intro r hr hcontains
        rcases List.mem_append.1 hr with hr | hr
        · exact h.plain r hr hcontains
        · cases List.mem_singleton.1 hr
          exact hplain (Option.some.inj (hword.symm.trans hcontains))
      scopeLabel := fun n hn => (h.scopeLabel n hn).mono hnodes
      blockLabels := fun b hb n hn => (h.blockLabels b hb n hn).mono hnodes
      pendingLabels := fun r hr => (h.pendingLabels r hr).mono hnodes
      sources := fun e he => (h.sources e he).mono hnodes
      edges := fun e he => (h.edges e he).imp (·.mono hnodes) (·.mono (.refl _) hnodes)
      single := h.single.imp fun hne hfirst hsecond =>
        hne (fun hrefers => hfirst (hrefers.mono hnodes))
          fun hrefers => hsecond (hrefers.mono hnodes) }

/-- An edge is added, as a reference or as the first edge of a block to its target. -/
theorem with_edge (h : p.Formed m) {e : Edge} (hgeneration : e.handle.generation = 0)
    (hsource : m.IsLabel e.source)
    (hedge : m.Refers e ∨ m.Contains p.symbols e ∧ ∀ f ∈ m.live, f.target ≠ e.target)
    (hgraph : g.Dense (m.addEdge e)) : Formed { p with graph := g } (m.addEdge e) := by
  have hlive {P : Edge → Prop} (hold : ∀ f ∈ m.live, P f) (hnew : P e) :
      ∀ f ∈ (m.addEdge e).live, P f := by
    intro f hf
    rcases List.mem_append.1 hf with hf | hf
    · exact hold f hf
    · rwa [List.mem_singleton.1 hf]
  have hcontains {f : Edge} (hf : m.Contains p.symbols f) : (m.addEdge e).Contains p.symbols f :=
    hf.mono (.refl _) List.prefix_rfl
  exact
    { toSound := h.toSound.with_edge hgraph
      unreleased := hlive h.unreleased hgeneration
      room := h.room
      plain := h.plain
      scopeLabel := h.scopeLabel
      blockLabels := h.blockLabels
      pendingLabels := h.pendingLabels
      sources := hlive h.sources hsource
      edges := hlive (fun f hf => (h.edges f hf).imp_right hcontains)
        (hedge.imp_right fun hfirst => hcontains hfirst.1)
      single := by
        apply List.pairwise_append.2
        refine ⟨h.single, List.pairwise_singleton _ _, ?_⟩
        intro f hf e' he' _ hsecond
        cases List.mem_singleton.1 he'
        rcases hedge with hrefers | ⟨-, hfirst⟩
        · exact absurd hrefers hsecond
        · exact hfirst f hf }

end Formed

end Parse

end LabelGraph
