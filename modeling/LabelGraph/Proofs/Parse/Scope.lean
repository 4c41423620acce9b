import LabelGraph.Proofs.Parse.Forest
import LabelGraph.Proofs.Parse.Resolution

/-!
The scopes of blocks. The open blocks are those whose braces nothing closed so far, each with
the scope in which its brace was read. So the brace that closes a block brings back the scope
in front of it, whatever stands between. A new label gets one edge from the owner of its block,
and no edge of a block ever leads to it again.
-/

namespace LabelGraph

namespace Parse

def openBlocks (p : Parse) : List Block := p.blocks.toList.reverse

/-- The scope that the innermost open block recorded. -/
def owner (p : Parse) : Option NodeId := p.openBlocks.head?.bind Block.owner

theorem openBlocks_head (p : Parse) : p.openBlocks.head? = p.blocks.back? := by
  rw [openBlocks, List.head?_reverse, Array.getLast?_toList]

theorem owner_eq (p : Parse) : p.owner = p.blocks.back?.bind Block.owner := by
  rw [owner, openBlocks_head]

/-- Where the edges of blocks that lead to a node come from, with their directions and places. -/
def containers (p : Parse) (n : NodeId) : List (NodeId × Direction × Span) :=
  (p.graph.edges.filter fun e =>
    e.target = n ∧ p.symbols.resolve e.label = .ok Keywords.containsLabel).map
      fun e => (e.source, e.direction, e.span)

/-! The open blocks. -/

/-- The open blocks behind an event, for the scope and the open blocks in front of it. -/
def nest (scope : Option NodeId) (outer : List Block) : Event → List Block
  | .perform (.openBlock brace) => ⟨scope, brace.span⟩ :: outer
  | .perform (.closeBlock _) => outer.tail
  | _ => outer

theorem nest_other {e : Event} (he : e.brace? = none) (scope : Option NodeId)
    (outer : List Block) : nest scope outer e = outer := by
  cases e with
  | perform a =>
    cases a with
    | openBlock => cases he
    | closeBlock => cases he
    | _ => rfl
  | _ => rfl

/-- A block is open behind an event if the event opened it, or if it was open and the event
left it so. -/
theorem nest_getElem (scope : Option NodeId) (outer : List Block) (e : Event) (i : Nat)
    (block : Block) :
    (nest scope outer e)[i]? = some block ↔
      (∃ brace, e = .perform (.openBlock brace) ∧ block = ⟨scope, brace.span⟩ ∧ i = 0) ∨
      ∃ j, outer[j]? = some block ∧ Brace.depth j e.brace?.toList = i ∧
        Brace.unmatched j e.brace?.toList = 0 := by
  have hother (he : e.brace? = none) : (nest scope outer e)[i]? = some block ↔
      ∃ j, outer[j]? = some block ∧ Brace.depth j e.brace?.toList = i ∧
        Brace.unmatched j e.brace?.toList = 0 := by
    rw [nest_other he]
    simp [he, Brace.depth, Brace.unmatched, Brace.countAt]
  cases e with
  | perform a =>
    cases a with
    | openBlock brace =>
      cases i with
      | zero =>
        constructor
        · rintro ⟨⟩
          exact .inl ⟨brace, rfl, rfl, rfl⟩
        · rintro (⟨_, ⟨⟩, rfl, -⟩ | ⟨j, -, hdepth, -⟩)
          · rfl
          · cases hdepth
      | succ i =>
        constructor
        · intro hblock
          exact .inr ⟨i, hblock, rfl, rfl⟩
        · rintro (⟨_, -, -, hdepth⟩ | ⟨j, hblock, hdepth, -⟩)
          · cases hdepth
          · cases hdepth
            exact hblock
    | closeBlock brace =>
      rw [nest, List.getElem?_tail]
      constructor
      · intro hblock
        exact .inr ⟨i + 1, hblock, rfl, rfl⟩
      · rintro (⟨_, ⟨⟩, -⟩ | ⟨j, hblock, hdepth, hmatched⟩)
        cases j with
        | zero => cases hmatched
        | succ j =>
          cases hdepth
          exact hblock
    | _ => simpa using hother rfl
  | _ => simpa using hother rfl

theorem Effect.openBlocks {p q : Parse} {m m' : Ledger} {a : Action} (h : Effect p m a q m') :
    q.openBlocks = nest p.scope p.openBlocks (.perform a) := by
  cases h with
  | openBlock => simp [Parse.openBlocks, nest]
  | closeBlock => simp [Parse.openBlocks, nest]
  | unmatched hnone =>
    have hempty : p.blocks = #[] := Array.back?_eq_none_iff.1 hnone
    simp [Parse.openBlocks, nest, hempty]
  | _ => rfl

/-- Behind the events, a block is open whose brace they hold, and so are `depth` blocks
inside. -/
def LeftOpen (source : List UInt8) (settings : Settings) (table? : Option SymbolTable)
    (events : List Event) (depth : Nat) (block : Block) : Prop :=
  ∃ before brace inside p, events = before ++ .perform (.openBlock brace) :: inside ∧
    Stage source settings table? before p ∧ block = ⟨p.scope, brace.span⟩ ∧
    Brace.depth 0 (inside.filterMap Event.brace?) = depth ∧
    Brace.unmatched 0 (inside.filterMap Event.brace?) = 0

section Blocks

variable {source : List UInt8} {settings : Settings} {table? : Option SymbolTable}
  {events : List Event} {p q : Parse}

theorem leftOpen_concat (e : Event) (i : Nat) (block : Block) :
    LeftOpen source settings table? (events ++ [e]) i block ↔
      (∃ brace p, e = .perform (.openBlock brace) ∧ Stage source settings table? events p ∧
        block = ⟨p.scope, brace.span⟩ ∧ i = 0) ∨
      ∃ j, LeftOpen source settings table? events j block ∧
        Brace.depth j e.brace?.toList = i ∧ Brace.unmatched j e.brace?.toList = 0 := by
  have hmore (inside : List Event) : (inside ++ [e]).filterMap Event.brace? =
      inside.filterMap Event.brace? ++ e.brace?.toList := by
    rw [List.filterMap_append]
    cases he : e.brace? <;> simp [he]
  constructor
  · rintro ⟨before, brace, inside, p, hevents, hp, hblock, hdepth, hunmatched⟩
    rcases List.eq_nil_or_concat inside with rfl | ⟨inside, f, rfl⟩
    · obtain ⟨rfl, hlast⟩ := List.append_inj' hevents rfl
      cases hlast
      exact .inl ⟨brace, p, rfl, hp, hblock, hdepth.symm⟩
    · rw [List.concat_eq_append, ← List.cons_append, ← List.append_assoc] at hevents
      obtain ⟨rfl, hlast⟩ := List.append_inj' hevents rfl
      cases hlast
      rw [List.concat_eq_append, hmore, Brace.depth_append] at hdepth
      rw [List.concat_eq_append, hmore, Brace.unmatched_append] at hunmatched
      obtain ⟨hinside, hlast⟩ := Nat.add_eq_zero_iff.1 hunmatched
      exact .inr ⟨_, ⟨before, brace, inside, p, rfl, hp, hblock, rfl, hinside⟩, hdepth, hlast⟩
  · rintro (⟨brace, p, rfl, hp, hblock, rfl⟩ |
      ⟨j, ⟨before, brace, inside, p, rfl, hp, hblock, rfl, hopen⟩, hdepth, hunmatched⟩)
    · exact ⟨events, brace, [], p, rfl, hp, hblock, rfl, rfl⟩
    · refine ⟨before, brace, inside ++ [e], p, by simp, hp, hblock, ?_, ?_⟩
      · simp [hmore, hdepth]
      · simp [hmore, hopen, hunmatched]

theorem opened_openBlocks : (opened source settings table?).started.openBlocks = [] := by
  cases table? with
  | some t => rfl
  | none =>
    simp only [opened, ofSource]
    split <;> rfl

theorem play_openBlocks {m : Ledger} (hp : p.Formed m) {e : Event} (h : play e p = .ok () q) :
    q.openBlocks = nest p.scope p.openBlocks e := by
  cases e with
  | perform a =>
    obtain ⟨m', heffect, -⟩ := act_ok hp.toSound h
    exact heffect.openBlocks
  | consume t =>
    cases h
    rfl
  | nextLine rest =>
    cases h
    rfl

variable (htable : ∀ t ∈ table?, t.Interned)

include htable

/-- The open blocks are those whose braces nothing closed. -/
theorem Stage.openBlocks_iff (h : Stage source settings table? events q) (depth : Nat)
    (block : Block) :
    q.openBlocks[depth]? = some block ↔ LeftOpen source settings table? events depth block := by
  induction events using List.reverseRecOn generalizing q depth with
  | nil =>
    cases h.play
    simp [opened_openBlocks, LeftOpen]
  | append_singleton events e ih =>
    obtain ⟨p, hp, hplay⟩ := h.split
    obtain ⟨_, r, hlast, hnil⟩ := bind_ok_iff.1 hplay
    cases hnil
    obtain ⟨m, hformed⟩ := hp.formed htable
    rw [leftOpen_concat, play_openBlocks hformed hlast, nest_getElem]
    simp only [ih hp]
    refine or_congr_left ?_
    constructor
    · rintro ⟨brace, he, hblock, hdepth⟩
      exact ⟨brace, p, he, hp, hblock, hdepth⟩
    · rintro ⟨brace, r, he, hr, hblock, hdepth⟩
      obtain rfl := hp.unique hr
      exact ⟨brace, he, hblock, hdepth⟩

/-- The brace that closes a block brings back the scope in front of it. -/
theorem Stage.restored {before inside : List Event} {opening closing : Token}
    (h : Stage source settings table?
      (before ++ .perform (.openBlock opening) :: (inside ++ [.perform (.closeBlock closing)])) q)
    (hinside : Brace.Balanced (inside.filterMap Event.brace?)) :
    ∃ p, Stage source settings table? before p ∧ q.scope = p.scope := by
  rw [← List.cons_append, ← List.append_assoc] at h
  obtain ⟨r, hr, hplay⟩ := h.split
  obtain ⟨p, hp, -⟩ := hr.split
  obtain ⟨_, _, hclose, hnil⟩ := bind_ok_iff.1 hplay
  cases hnil
  have hopen : r.openBlocks[0]? = some ⟨p.scope, opening.span⟩ := by
    rw [hr.openBlocks_iff htable]
    exact ⟨before, opening, inside, p, rfl, hp, rfl, hinside.1, hinside.2⟩
  rw [← List.head?_eq_getElem?, openBlocks_head] at hopen
  obtain ⟨m, hformed⟩ := hr.formed htable
  obtain ⟨m', heffect, -⟩ := act_ok hformed.toSound (a := .closeBlock closing) hclose
  refine ⟨p, hp, ?_⟩
  cases heffect with
  | closeBlock hblock =>
    rw [hblock] at hopen
    cases hopen
    rfl
  | unmatched hnone =>
    rw [hnone] at hopen
    cases hopen

end Blocks

/-! The containers of a label. -/

section Containers

variable {p q : Parse} {m m' : Ledger} {n : NodeId}

theorem Formed.named (hp : p.Formed m) {r : NodeRecord} (hr : r ∈ m.nodes) {word : String}
    (hword : p.symbols.Spells r.name word) : p.Names r.id word :=
  (hp.names_iff hword).2 ((hp.labels _ _).2 ⟨r, hr, rfl, rfl⟩)

/-- Nothing that a parse adds is a container of a node that is there already. -/
theorem Progress.containers (h : Progress p m q m') (hp : p.Formed m)
    (hn : n.index < m.nodes.length) : q.containers n = p.containers n := by
  obtain ⟨more, hlive, hmore⟩ := h.adds.live
  rw [Parse.containers, Parse.containers, h.formed.dense.edges, hp.dense.edges, hlive,
    List.filter_append]
  have hadded : (more.filter fun e =>
      e.target = n ∧ q.symbols.resolve e.label = .ok Keywords.containsLabel) = [] := by
    rw [List.filter_eq_nil_iff]
    intro e he hleads
    obtain ⟨rfl, hlabel⟩ := of_decide_eq_true hleads
    rcases hmore e he with hrefers | hlater
    · have hedge : e ∈ m'.live := hlive ▸ List.mem_append_right _ he
      exact (h.formed.refers_iff hedge).1 hrefers (SymbolTable.resolve_eq_ok.1 hlabel)
    · exact Nat.not_le.2 hn hlater
  have hold : ∀ e ∈ m.live, (q.symbols.resolve e.label = .ok Keywords.containsLabel ↔
      p.symbols.resolve e.label = .ok Keywords.containsLabel) := by
    intro e he
    rw [SymbolTable.resolve_eq_ok, SymbolTable.resolve_eq_ok]
    refine ⟨fun hlabel => ?_, h.adds.symbols _ _⟩
    rcases hp.edges e he with hrefers | hcontains
    · have hedge : e ∈ m'.live := hlive ▸ List.mem_append_left _ he
      exact absurd hlabel ((h.formed.refers_iff hedge).1 (hrefers.mono h.adds.nodes))
    · exact hcontains.label
  rw [hadded, List.append_nil]
  refine congrArg _ (List.filter_congr ?_)
  intro e he
  simp only [hold e he]

section Labels

variable {name colon : Token} {cause : Fatal} (hp : p.Formed m)
  (hnew : ∀ r ∈ m.nodes, ¬ p.symbols.Spells r.name name.text)

include hp hnew

/-- A new label has the owner of its block as its only container. -/
theorem Effect.containers (h : Effect p m (.declareLabel name colon) q m') (hq : q.Formed m') :
    m.nodes.length < m'.nodes.length ∧ q.Names ⟨m.nodes.length⟩ name.text ∧
      q.containers ⟨m.nodes.length⟩ =
        p.owner.toList.map fun owner => (owner, .outgoing, name.span.join colon.span) := by
  have hold : (m.live.filter fun e => e.target = ⟨m.nodes.length⟩ ∧
      q.symbols.resolve e.label = .ok Keywords.containsLabel) = [] := by
    rw [List.filter_eq_nil_iff]
    intro e he hleads
    exact hp.target_ne he (of_decide_eq_true hleads).1
  have hnamed {s : Symbol}
      (hnode : ⟨⟨m.nodes.length⟩, s, .label, name.span.join colon.span⟩ ∈ m'.nodes)
      (hword : q.symbols.Spells s name.text) :
      m.nodes.length < m'.nodes.length ∧ q.Names ⟨m.nodes.length⟩ name.text :=
    ⟨hq.index_lt hnode, hq.named hnode hword⟩
  have hlast (r : NodeRecord) : r ∈ (m.addNode r).nodes :=
    List.mem_append_right _ (List.mem_singleton_self r)
  rw [Parse.containers, hq.dense.edges, owner_eq, ← and_assoc]
  cases h with
  | newLabel hintern _ howner =>
    refine ⟨hnamed (hlast _) (SymbolTable.intern_ok hp.symbols hintern).2.1, ?_⟩
    rw [howner, Ledger.live_addNode, hold]
    rfl
  | newLabelInside hintern _ howner hcontains =>
    obtain ⟨ht, hword, -⟩ := SymbolTable.intern_ok hp.symbols hintern
    obtain ⟨-, hlabel, hextends⟩ := SymbolTable.intern_ok ht hcontains
    refine ⟨hnamed (hlast _) (hextends _ _ hword), ?_⟩
    rw [howner, Ledger.live_addEdge, Ledger.live_addNode, List.filter_append, hold]
    simp [SymbolTable.resolve_eq_ok.2 hlabel]
  | oldLabel hintern hr hname =>
    exact absurd (List.mem_map.2 ⟨_, hr, hname⟩) (hp.name_new (hp.label_new hnew hintern))

/-- A new label for which there is no room leaves the edges. -/
theorem Halt.of_new (h : Halt p m (.declareLabel name colon) cause q m') :
    cause.IsFull ∧ q.graph.edges = p.graph.edges := by
  have hlawful := h.lawful hp
  cases h with
  | tooMany hfaulty =>
    cases hfaulty with
    | label hintern hr hname =>
      exact absurd (List.mem_map.2 ⟨_, hr, hname⟩) (hp.name_new (hp.label_new hnew hintern))
  | containsWord _ _ hnode =>
    exact ⟨⟨_, _, rfl, hlawful _ _ rfl⟩, hnode.edges.trans hp.dense.edges.symm⟩
  | containsEdge _ _ _ hnode =>
    exact ⟨⟨_, _, rfl, hlawful _ _ rfl⟩, hnode.edges.trans hp.dense.edges.symm⟩
  | _ => exact ⟨⟨_, _, rfl, hlawful _ _ rfl⟩, rfl⟩

end Labels

/-- A label that is declared again leaves the graph. -/
theorem declareLabel_known (hp : p.Formed m) {name : Token} {r : NodeRecord} (hr : r ∈ m.nodes)
    (hold : p.symbols.Spells r.name name.text) (colon : Token) :
    (after (act (.declareLabel name colon)) p).graph = p.graph := by
  have hknown {s : Symbol} {t : SymbolTable}
      (hintern : SymbolTable.intern name.text p.symbols = .ok s t) : p.labels[s]? ≠ none := by
    simp [hp.label_old hr hold hintern]
  cases hact : act (.declareLabel name colon) p with
  | ok _ q =>
    obtain ⟨m', heffect, -⟩ := act_ok hp.toSound hact
    rw [after_of_ok hact]
    cases heffect with
    | newLabel hintern hnew => exact absurd hnew (hknown hintern)
    | newLabelInside hintern hnew => exact absurd hnew (hknown hintern)
    | oldLabel => rfl
  | error cause q =>
    obtain ⟨m', hhalt⟩ := act_error hp.toSound hact
    rw [after_of_error hact]
    cases hhalt with
    | containsWord hintern hnew => exact absurd hnew (hknown hintern)
    | containsEdge hintern hnew => exact absurd hnew (hknown hintern)
    | _ => rfl

end Containers

/-! The whole run. -/

theorem finish_openBlocks {p q : Parse} {m : Ledger} (hp : p.Sound m) (h : finish p = .ok () q) :
    q.openBlocks = p.openBlocks ∧ q.scope = p.scope := by
  obtain ⟨_, r, hresolve, h⟩ := bind_ok_iff.1 h
  obtain ⟨m', graph, diagnostics, rfl, -⟩ := resolvePending_ok hp hresolve
  rw [bind_get] at h
  cases hback : p.blocks.back? with
  | some block =>
    simp only [hback] at h
    cases h
  | none =>
    simp only [hback] at h
    cases h
    exact ⟨rfl, rfl⟩

/-- The state comes later in the parse than these events, or is its end. -/
def Follows (source : List UInt8) (settings : Settings) (table? : Option SymbolTable)
    (events : List Event) (r : Parse) : Prop :=
  (∃ more, Stage source settings table? (events ++ more) r) ∨
    r = (opened source settings table?).run

/-- The label gets the next node, and from then on the only container of the node is the owner of
the innermost open block, if there is one. If this fails, an index space is full, and the edges
are left. -/
def Declares (source : List UInt8) (settings : Settings) (table? : Option SymbolTable)
    (events : List Event) (name colon : Token) (p : Parse) : Prop :=
  match act (.declareLabel name colon) p with
  | .ok _ q => q.Names ⟨p.graph.nodeCount⟩ name.text ∧
    ∀ r, Follows source settings table? (events ++ [.perform (.declareLabel name colon)]) r →
      r.containers ⟨p.graph.nodeCount⟩ =
        p.owner.toList.map fun owner => (owner, .outgoing, name.span.join colon.span)
  | .error cause q => cause.IsFull ∧ q.graph.edges = p.graph.edges

section Run

variable {source : List UInt8} {settings : Settings} {table? : Option SymbolTable}
  {events : List Event} {p q r : Parse} {m : Ledger} {n : NodeId}

theorem Follows.containers (h : Follows source settings table? events r)
    (hq : Stage source settings table? events q) (hevents : events ≠ []) (hformed : q.Formed m)
    (hn : n.index < m.nodes.length) : r.containers n = q.containers n := by
  rcases h with ⟨more, hr⟩ | rfl
  · obtain ⟨m', hprogress⟩ := hq.progress hformed hr
    exact hprogress.containers hformed hn
  · obtain ⟨more, hscript, hrun⟩ := hq.run_eq hevents
    have hplain {a : Action} (ha : .perform a ∈ more) : a.Plain :=
      script_plain (hscript ▸ List.mem_append_right events ha)
    have hstable := progress_stable q m
    have hsafe : Safe (Progress q m) Fatal.Lawful
        (do playAll more; close (script .item (tokenize source)).2) q :=
      (hstable.playAll_safe (fun hr hhalt => hhalt.lawful hr.formed) (.refl hformed)
        fun _ => hplain).bind fun _ _ _ hr => hstable.close_safe (fun _ hlawful => hlawful) hr _
    rw [hrun]
    cases hend : (do playAll more; close (script .item (tokenize source)).2 : ParseM Unit) q with
    | ok _ s =>
      obtain ⟨m', hprogress⟩ := hsafe.ok hend
      exact hprogress.containers hformed hn
    | error cause s =>
      obtain ⟨-, m', hprogress⟩ := hsafe.error hend
      exact hprogress.containers hformed hn

end Run

end Parse

open Parse

/-- The scopes of the blocks of a text are exact. -/
structure Scoped (source : List UInt8) (settings : Settings) (table? : Option SymbolTable) :
    Prop where
  /-- The events of a text open and close blocks as its braces in front of the first NUL do. -/
  braces : (script .item (tokenize source)).1.filterMap Event.brace? =
    braces ((tokenize source).takeWhile (·.kind ≠ .corrupt))
  /-- As long as a parse goes on it is at a stage, with the events of the tokens that are left
  still to come. -/
  ongoing : ∀ k, (Parse.step^[k] (opened source settings table?)).phase.isTerminal = false →
    ∃ events, Stage source settings table? events
        (Parse.step^[k] (opened source settings table?)).started ∧
      (script .item (tokenize source)).1 =
        events ++ (script .item (Parse.step^[k] (opened source settings table?)).rest).1
  /-- The end of a parse that succeeds leaves the blocks and the scope of the last stage. -/
  succeeded : (opened source settings table?).run.phase = .succeeded →
    ∃ p, Stage source settings table? (script .item (tokenize source)).1 p ∧
      (opened source settings table?).run.openBlocks = p.openBlocks ∧
      (opened source settings table?).run.scope = p.scope
  /-- The open blocks are those whose braces are unmatched, each with the scope in which its
  brace was read. -/
  stack : ∀ events p, Stage source settings table? events p → ∀ depth block,
    p.openBlocks[depth]? = some block ↔ LeftOpen source settings table? events depth block
  /-- Behind the brace that matches another one the scope is as it was in front of that. -/
  restored : ∀ before opening inside closing q,
    Stage source settings table?
      (before ++ .perform (.openBlock opening) :: (inside ++ [.perform (.closeBlock closing)])) q →
    Brace.Balanced (inside.filterMap Event.brace?) →
    ∃ p, Stage source settings table? before p ∧ q.scope = p.scope
  /-- A new label has the owner of the innermost open block as its only container, unless an
  index space is full. -/
  declared : ∀ events name colon p, Stage source settings table? events p →
    events ++ [.perform (.declareLabel name colon)] <+: planned source settings table? →
    (∀ n, ¬ p.Names n name.text) → Declares source settings table? events name colon p
  /-- A label that is declared again leaves the graph. -/
  redeclared : ∀ events name colon p, Stage source settings table? events p →
    (∃ n, p.Names n name.text) → (after (act (.declareLabel name colon)) p).graph = p.graph

section

variable {source : List UInt8} {settings : Settings} {table? : Option SymbolTable}
  (htable : ∀ t ∈ table?, t.Interned)

include htable

theorem Parse.Stage.declared {events : List Event} {name colon : Token} {p : Parse}
    (h : Stage source settings table? events p)
    (hnext : events ++ [.perform (.declareLabel name colon)] <+: planned source settings table?)
    (hnew : ∀ n, ¬ p.Names n name.text) : Declares source settings table? events name colon p := by
  obtain ⟨m, hformed⟩ := h.formed htable
  have hplain : (Action.declareLabel name colon).Plain :=
    script_plain (planned_subset (hnext.subset (List.mem_append_right _ List.mem_cons_self)))
  have hunknown : ∀ r ∈ m.nodes, ¬ p.symbols.Spells r.name name.text :=
    fun r hr hword => hnew r.id (hformed.named hr hword)
  have hcount : p.graph.nodeCount = m.nodes.length := by
    rw [Graph.nodeCount, hformed.dense.shape.size_nodes]
  rw [Declares, hcount]
  cases hact : act (.declareLabel name colon) p with
  | error cause q =>
    obtain ⟨m', hhalt⟩ := act_error hformed.toSound hact
    exact hhalt.of_new hformed hunknown
  | ok _ q =>
    obtain ⟨m', heffect, -⟩ := act_ok hformed.toSound hact
    have hq := heffect.keeps (progress_stable p m) hplain (.refl hformed)
    obtain ⟨hlt, hname, hcontainers⟩ := heffect.containers hformed hunknown hq.formed
    refine ⟨hname, ?_⟩
    intro r hr
    rw [hr.containers (h.next hnext hact) (by simp) hq.formed hlt, hcontainers]

theorem Parse.Stage.redeclared {events : List Event} {name : Token} {p : Parse}
    (h : Stage source settings table? events p) (hknown : ∃ n, p.Names n name.text)
    (colon : Token) : (after (act (.declareLabel name colon)) p).graph = p.graph := by
  obtain ⟨m, hformed⟩ := h.formed htable
  obtain ⟨n, node, hnode, hword⟩ := hknown
  obtain ⟨r, hr, -, hname, -⟩ := hformed.mem_of_node hnode
  rw [← hname] at hword
  exact declareLabel_known hformed hr (SymbolTable.resolve_eq_ok.1 hword) colon

end

/-- The scopes of blocks are exact, whatever the text and the settings are. -/
theorem parse_scoped (source : List UInt8) (settings : Settings) (table? : Option SymbolTable)
    (htable : ∀ t ∈ table?, t.Interned) : Scoped source settings table? := by
  constructor
  case braces =>
    have hended : Grammar.Ended (tokenize source) := Scanner.tokens_ended _
    exact script_braces hended
  case ongoing =>
    intro k hongoing
    rcases steps_cases source settings table? k with ⟨-, hstage⟩ | hend | ⟨e, -, hfail⟩
    · exact hstage
    · have hterminal :=
        performance_terminal (tokenize source) (opened source settings table?).started
      rw [← hend, hongoing] at hterminal
      cases hterminal
    · rw [hfail] at hongoing
      cases hongoing
  case succeeded =>
    intro hphase
    obtain ⟨p, hp, hfinish⟩ := Stage.of_succeeded hphase
    obtain ⟨m, hformed⟩ := hp.formed htable
    exact ⟨p, hp, finish_openBlocks hformed.toSound hfinish⟩
  case stack => exact fun events p hp => hp.openBlocks_iff htable
  case restored => exact fun before opening inside closing q hq => hq.restored htable
  case declared => exact fun events name colon p hp => hp.declared htable
  case redeclared => exact fun events name colon p hp hknown => hp.redeclared htable hknown colon

/-- Behind a line with an unmatched brace, a block that is too deep and an error. -/
theorem parse_scoped_nested :
    (∀ t ∈ some SymbolTable.empty, t.Interned) ∧
      ∃ events p,
        Parse.Stage "\x7d \x7b \x7b \x7d +\n".toUTF8.toList { maxBlockDepth := 1 }
          (some .empty) events p ∧
        Parse.LeftOpen "\x7d \x7b \x7b \x7d +\n".toUTF8.toList { maxBlockDepth := 1 }
          (some .empty) events 0 ⟨none, ⟨⟨1, 3, 2⟩, ⟨1, 4, 3⟩⟩⟩ := by
  have htable : ∀ t ∈ some SymbolTable.empty, t.Interned := by
    rintro _ ⟨⟩
    exact .empty
  have hscoped := parse_scoped "\x7d \x7b \x7b \x7d +\n".toUTF8.toList { maxBlockDepth := 1 } _
    htable
  obtain ⟨events, hstage, -⟩ := hscoped.ongoing 1 (by decide +kernel)
  exact ⟨htable, events, _, hstage, (hscoped.stack _ _ hstage 0 _).1 (by decide +kernel)⟩

end LabelGraph
