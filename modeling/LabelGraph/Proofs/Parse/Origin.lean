import LabelGraph.Proofs.Parse.Course

/-!
Where the edges of a parse come from. Every edge is that of a label inside a block, or a
reference was made from its source, at its place and with its label.
-/

namespace LabelGraph

namespace Parse

variable {p q : Parse} {m m' : Ledger} {span : Span}

/-- Among the events the name is referred to, in this state. -/
def Refers (events : List Event) (start p : Parse) (name : Token) (d : Direction) : Prop :=
  ∃ before after, events = before ++ .perform (.refer name d) :: after ∧
    playAll before start = .ok () p

theorem Refers.cons {e : Event} {events : List Event} {name : Token} {d : Direction}
    (hplay : play e p = .ok () q) {r : Parse} (h : Refers events q r name d) :
    Refers (e :: events) p r name d := by
  obtain ⟨before, after, rfl, hbefore⟩ := h
  exact ⟨e :: before, after, rfl, (bind_of_ok hplay).trans hbefore⟩

/-- A source, a label, a direction and a place, of an edge or of a waiting reference. -/
abbrev Trace := NodeId → Symbol → Direction → Span → Prop

/-- New edges are edges of blocks or have a trace, and waiting references have one. -/
structure Traced (trace : Trace) (p : Parse) (m : Ledger) (q : Parse) (m' : Ledger) : Prop where
  live : ∀ e ∈ m'.live, e ∈ m.live ∨ q.symbols.Spells e.label Keywords.containsLabel ∨
    trace e.source e.label e.direction e.span
  pending : ∀ r ∈ q.pending, r ∈ p.pending ∨ trace r.scope r.name r.direction r.span

def made (e : Event) (p q : Parse) : Trace := fun source label d span =>
  ∃ name, e = .perform (.refer name d) ∧ p.scope = some source ∧ name.span = span ∧
    q.symbols.Spells label name.text

def stems (events : List Event) (start q : Parse) : Trace := fun source label d span =>
  ∃ p name, Refers events start p name d ∧ p.scope = some source ∧ name.span = span ∧
    q.symbols.Spells label name.text

theorem Effect.traced {a : Action} (hp : p.Sound m) (h : Effect p m a q m') :
    Traced (made (.perform a) p q) p m q m' := by
  constructor
  · intro e he
    cases h with
    | newLabelInside hintern _ _ hcontains =>
      have ht := (SymbolTable.intern_ok hp.symbols hintern).1
      rcases List.mem_append.1 he with he | he
      · exact .inl he
      · cases List.mem_singleton.1 he
        exact .inr (.inl (SymbolTable.intern_ok ht hcontains).2.1)
    | linked hintern hscope _ =>
      rcases List.mem_append.1 he with he | he
      · exact .inl he
      · cases List.mem_singleton.1 he
        exact .inr (.inr ⟨_, rfl, hscope, rfl, (SymbolTable.intern_ok hp.symbols hintern).2.1⟩)
    | _ => exact .inl he
  · intro r hr
    cases h with
    | queued hintern hscope _ =>
      rcases Array.mem_push.1 hr with hr | rfl
      · exact .inl hr
      · exact .inr ⟨_, rfl, hscope, rfl, (SymbolTable.intern_ok hp.symbols hintern).2.1⟩
    | _ => exact .inl hr

theorem play_traced (hp : p.Sound m) {e : Event} (h : play e p = .ok () q) :
    ∃ m', q.Sound m' ∧ Traced (made e p q) p m q m' := by
  cases e with
  | perform a =>
    obtain ⟨m', heffect, hq⟩ := act_ok hp h
    exact ⟨m', hq, heffect.traced hp⟩
  | consume t =>
    cases h
    exact ⟨m, hp.with_place _ _ _, fun _ he => .inl he, fun _ hr => .inl hr⟩
  | nextLine rest =>
    cases h
    exact ⟨m, hp.with_place _ _ _, fun _ he => .inl he, fun _ hr => .inl hr⟩

/-- Every new edge is an edge of a block or comes from a reference among the events. -/
theorem playAll_traced (hp : p.Sound m) {events : List Event}
    (h : playAll events p = .ok () q) :
    ∃ m', q.Sound m' ∧ Traced (stems events p q) p m q m' := by
  induction events generalizing p m with
  | nil =>
    cases h
    exact ⟨m, hp, fun _ he => .inl he, fun _ hr => .inl hr⟩
  | cons e events ih =>
    obtain ⟨_, p₁, hplay, hrest⟩ := bind_ok_iff.1 h
    obtain ⟨m₁, hp₁, hfirst⟩ := play_traced hp hplay
    obtain ⟨m₂, hq, hmore⟩ := ih hp₁ hrest
    obtain ⟨_, -, hcourse⟩ := playAll_ok hp₁ hrest
    have hextends := (hcourse.grows hp₁).symbols
    have hhere {source : NodeId} {label : Symbol} {d : Direction} {span : Span}
        (hmade : made e p p₁ source label d span) :
        stems (e :: events) p q source label d span := by
      obtain ⟨name, rfl, hscope, hspan, hword⟩ := hmade
      exact ⟨p, name, ⟨[], events, rfl, rfl⟩, hscope, hspan, hextends _ _ hword⟩
    have hlater {source : NodeId} {label : Symbol} {d : Direction} {span : Span}
        (hstems : stems events p₁ q source label d span) :
        stems (e :: events) p q source label d span := by
      obtain ⟨r, name, hrefers, hstems⟩ := hstems
      exact ⟨r, name, hrefers.cons hplay, hstems⟩
    refine ⟨m₂, hq, ?_, ?_⟩
    · intro f hf
      rcases hmore.live f hf with hf | hcontains | hstems
      · rcases hfirst.live f hf with hf | hcontains | hmade
        · exact .inl hf
        · exact .inr (.inl (hextends _ _ hcontains))
        · exact .inr (.inr (hhere hmade))
      · exact .inr (.inl hcontains)
      · exact .inr (.inr (hlater hstems))
    · intro r hr
      rcases hmore.pending r hr with hr | hstems
      · rcases hfirst.pending r hr with hr | hmade
        · exact .inl hr
        · exact .inr (hhere hmade)
      · exact .inr (hlater hstems)

theorem resolvePending_traced (hp : p.Sound m) (h : resolvePending p = .ok () q) {trace : Trace}
    (hlive : ∀ e ∈ m.live, p.symbols.Spells e.label Keywords.containsLabel ∨
      trace e.source e.label e.direction e.span)
    (hpending : ∀ r ∈ p.pending, trace r.scope r.name r.direction r.span) :
    ∀ e ∈ q.graph.edges, q.symbols.Spells e.label Keywords.containsLabel ∨
      trace e.source e.label e.direction e.span := by
  intro e he
  obtain ⟨m', graph, diagnostics, rfl, hq, -, hlive', -⟩ := resolvePending_ok hp h
  have harrow : e.arrow ∈ m.live.map Edge.arrow ++ p.pending.toList.filterMap p.arrow? := by
    rw [← hlive']
    exact List.mem_map_of_mem ((hq.dense.shape.mem_edges e).1 he)
  rcases List.mem_append.1 harrow with harrow | harrow
  · obtain ⟨f, hf, heq⟩ := List.mem_map.1 harrow
    obtain ⟨hsource, -, hlabel, hdirection, hspan⟩ := Arrow.mk.inj heq
    have htrace := hlive f hf
    rw [hsource, hlabel, hdirection, hspan] at htrace
    exact htrace
  · obtain ⟨r, hr, heq⟩ := List.mem_filterMap.1 harrow
    obtain ⟨target, -, heq⟩ := Option.map_eq_some_iff.1 heq
    obtain ⟨hsource, -, hlabel, hdirection, hspan⟩ := Arrow.mk.inj heq
    have htrace := hpending r (Array.mem_toList_iff.1 hr)
    rw [hsource, hlabel, hdirection, hspan] at htrace
    exact .inr htrace

end Parse

end LabelGraph
