import LabelGraph.Proofs.Parse.Action
import LabelGraph.Proofs.Parse.Play

/-!
Invariants of a parse. One that survives each kind of change that an action makes survives the
action, whether it succeeds or fails, and so it survives the whole of a text.
-/

namespace LabelGraph

namespace Parse

/-- The action creates a node of this kind for the word. -/
inductive Creates : Action → String → NodeKind → Span → Prop where
  | label {name colon : Token} :
    Creates (.declareLabel name colon) name.text .label (name.span.join colon.span)
  | external {name : Token} : Creates (.declareExternal name) name.text .external name.span

/-- The invariant survives each kind of change that these actions make. `W` is what it says
about a reference that is made or waits, and that depends on nothing that a reference changes. -/
structure Stable (A : Action → Prop) (W : SymbolTable → List NodeRecord → Reference → Prop)
    (I : Parse → Ledger → Prop) : Prop where
  sound : ∀ {p m}, I p m → p.Sound m
  place : ∀ {p m} rest previous phase, I p m → I { p with rest, previous, phase } m
  symbols : ∀ {p m word s t}, I p m → SymbolTable.intern word p.symbols = .ok s t →
    I { p with symbols := t } m
  diagnostics : ∀ {p m} diagnostics, I p m → I { p with diagnostics } m
  scope : ∀ {p m r}, I p m → r ∈ m.nodes → r.kind = .label → I { p with scope := some r.id } m
  push : ∀ {p m} span, I p m →
    I { p with blocks := p.blocks.push { owner := p.scope, span } } m
  pop : ∀ {p m block}, I p m → p.blocks.back? = some block →
    I { p with blocks := p.blocks.pop, scope := block.owner } m
  node : ∀ {p m a word kind span s g}, I p m → A a → Creates a word kind span →
    p.symbols.Spells s word → p.labels[s]? = none →
    g.Dense (m.addNode ⟨⟨m.nodes.length⟩, s, kind, span⟩) →
    I { p with graph := g, labels := p.labels.insert s ⟨m.nodes.length⟩ }
      (m.addNode ⟨⟨m.nodes.length⟩, s, kind, span⟩)
  /-- The edge of a block leads to the node that was just created. -/
  inside : ∀ {p₀ m p s span contains owner g}, I p₀ m →
    p₀.blocks.back?.bind Block.owner = some owner →
    I p (m.addNode ⟨⟨m.nodes.length⟩, s, .label, span⟩) →
    p.symbols.Spells contains Keywords.containsLabel →
    g.Dense ((m.addNode ⟨⟨m.nodes.length⟩, s, .label, span⟩).addEdge
      ⟨⟨m.live.length, 0⟩, owner, ⟨m.nodes.length⟩, contains, .outgoing, span⟩) →
    I { p with graph := g } ((m.addNode ⟨⟨m.nodes.length⟩, s, .label, span⟩).addEdge
      ⟨⟨m.live.length, 0⟩, owner, ⟨m.nodes.length⟩, contains, .outgoing, span⟩)
  made : ∀ {p m name d s source}, I p m → A (.refer name d) → p.symbols.Spells s name.text →
    p.scope = some source → W p.symbols m.nodes ⟨source, s, d, name.span⟩
  edge : ∀ {p m r target g}, I p m → W p.symbols m.nodes r → p.labels[r.name]? = some target →
    g.Dense (m.addEdge ⟨⟨m.live.length, 0⟩, r.scope, target, r.name, r.direction, r.span⟩) →
    I { p with graph := g }
      (m.addEdge ⟨⟨m.live.length, 0⟩, r.scope, target, r.name, r.direction, r.span⟩)
  wait : ∀ {p m r}, I p m → W p.symbols m.nodes r → I { p with pending := p.pending.push r } m
  waiting : ∀ {p m}, I p m → ∀ r ∈ p.pending, W p.symbols m.nodes r
  taken : ∀ {p m}, I p m → I { p with pending := #[] } m

variable {A : Action → Prop} {W : SymbolTable → List NodeRecord → Reference → Prop}
  {I : Parse → Ledger → Prop} {p q : Parse} {m m' : Ledger} {a : Action} {cause : Fatal}

theorem Effect.keeps (h : Effect p m a q m') (hI : Stable A W I) (ha : A a) (hp : I p m) :
    I q m' := by
  have hspells {word : String} {s : Symbol} {t : SymbolTable}
      (hintern : SymbolTable.intern word p.symbols = .ok s t) : t.Spells s word :=
    (SymbolTable.intern_ok (hI.sound hp).symbols hintern).2.1
  have hlast (r : NodeRecord) : r ∈ (m.addNode r).nodes :=
    List.mem_append_right _ (List.mem_singleton_self r)
  cases h with
  | intern hintern => exact hI.symbols hp hintern
  | newLabel hintern hnew _ hnode =>
    have hq := hI.node (hI.symbols hp hintern) ha .label (hspells hintern) hnew hnode
    exact hI.scope hq (hlast _) rfl
  | newLabelInside hintern hnew howner hcontains hnode hedge =>
    have ht := hI.symbols hp hintern
    have hq := hI.symbols (hI.node ht ha .label (hspells hintern) hnew hnode) hcontains
    have hword := (SymbolTable.intern_ok (hI.sound ht).symbols hcontains).2.1
    exact hI.scope (hI.inside ht howner hq hword hedge) (hlast _) rfl
  | @oldLabel name colon s t r hintern hr _ =>
    have hq := hI.diagnostics
      (p.diagnostics.push (duplicateName name.text r.span (name.span.join colon.span)))
      (hI.symbols hp hintern)
    by_cases hkind : r.kind = .label
    · simp only [if_pos hkind]
      exact hI.scope hq hr hkind
    · simp only [if_neg hkind]
      exact hq
  | newExternal hintern hnew hnode =>
    exact hI.node (hI.symbols hp hintern) ha .external (hspells hintern) hnew hnode
  | oldExternal hintern => exact hI.diagnostics _ (hI.symbols hp hintern)
  | outside hintern => exact hI.diagnostics _ (hI.symbols hp hintern)
  | linked hintern hscope htarget hedge =>
    have hq := hI.symbols hp hintern
    exact hI.edge hq (hI.made hq ha (hspells hintern) hscope) htarget hedge
  | queued hintern hscope =>
    have hq := hI.symbols hp hintern
    exact hI.wait hq (hI.made hq ha (hspells hintern) hscope)
  | @openBlock brace =>
    exact hI.push brace.span (hI.diagnostics
      (if p.settings.maxBlockDepth.toNat ≤ p.blocks.size then
        p.diagnostics.push (tooDeep p.settings.maxBlockDepth brace)
      else p.diagnostics) hp)
  | closeBlock hback => exact hI.pop hp hback
  | unmatched => exact hI.diagnostics _ hp
  | reject => exact hI.diagnostics _ hp

theorem Halt.keeps (h : Halt p m a cause q m') (hI : Stable A W I) (ha : A a) (hp : I p m) :
    I q m' := by
  have hnode {name colon : Token} {s : Symbol} {t : SymbolTable} {g : Graph}
      (hdeclares : Creates a name.text .label (name.span.join colon.span))
      (hintern : SymbolTable.intern name.text p.symbols = .ok s t) (hnew : p.labels[s]? = none)
      (hgraph : g.Dense (m.addNode ⟨⟨m.nodes.length⟩, s, .label, name.span.join colon.span⟩)) :
      I { p with symbols := t, graph := g, labels := p.labels.insert s ⟨m.nodes.length⟩ }
        (m.addNode ⟨⟨m.nodes.length⟩, s, .label, name.span.join colon.span⟩) := by
    have hword := (SymbolTable.intern_ok (hI.sound hp).symbols hintern).2.1
    exact hI.node (hI.symbols hp hintern) ha hdeclares hword hnew hgraph
  cases h with
  | word => exact hp
  | node hintern => exact hI.symbols hp hintern
  | containsWord hintern hnew hgraph => exact hnode .label hintern hnew hgraph
  | containsEdge hintern hnew hcontains hgraph =>
    exact hI.symbols (hnode .label hintern hnew hgraph) hcontains
  | edge hintern => exact hI.symbols hp hintern
  | tooMany hfaulty =>
    rcases hfaulty.interned with rfl | ⟨word, s, hintern⟩
    · exact hI.diagnostics _ hp
    · exact hI.diagnostics _ (hI.symbols hp hintern)

/-! Consistency is an invariant. -/

theorem sound_stable : Stable (fun _ => True)
    (fun t nodes r => r.scope.index < nodes.length ∧ ∃ word, t.Spells r.name word) Sound where
  sound h := h
  place rest previous phase h := h.with_place rest previous phase
  symbols h hintern := h.with_symbols hintern
  diagnostics diagnostics h := h.with_diagnostics diagnostics
  scope h hr _ := h.with_scope (by rintro _ ⟨⟩; exact h.index_lt hr)
  push span h := h.push_block span
  pop h hback := h.pop_block hback
  node h _ _ hword hnew hgraph := h.with_node hword hnew hgraph
  inside _ _ h _ hgraph := h.with_edge hgraph
  made h _ hword hscope := ⟨h.scope _ hscope, _, hword⟩
  edge h _ _ hgraph := h.with_edge hgraph
  wait h hr := hr.2.elim fun _ hword => h.with_pending hr.1 hword
  waiting h := h.pending
  taken h := h.without_pending

/-- An action that succeeds has one of the listed effects, and keeps the state consistent. -/
theorem act_ok (hp : p.Sound m) (h : act a p = .ok () q) :
    ∃ m', Effect p m a q m' ∧ q.Sound m' := by
  have houtcome := act_outcome hp a
  rw [h] at houtcome
  cases houtcome with
  | done heffect => exact ⟨_, heffect, heffect.keeps sound_stable True.intro hp⟩

theorem act_error (hp : p.Sound m) (h : act a p = .error cause q) :
    ∃ m', Halt p m a cause q m' := by
  have houtcome := act_outcome hp a
  rw [h] at houtcome
  cases houtcome with
  | failed hhalt => exact ⟨_, hhalt⟩

/-! Runs. -/

/-- The operation ends in a state with the invariant, and if it fails, the cause satisfies `C`. -/
def Safe {α : Type} (I : Parse → Ledger → Prop) (C : Fatal → Prop) (x : ParseM α) (p : Parse) :
    Prop :=
  match x p with
  | .ok _ q => ∃ m, I q m
  | .error cause q => C cause ∧ ∃ m, I q m

namespace Safe

variable {α β : Type} {C : Fatal → Prop} {x : ParseM α} {f : α → ParseM β}

theorem of_ok {a : α} (h : x p = .ok a q) (hq : I q m) : Safe I C x p := by
  rw [Safe, h]
  exact ⟨m, hq⟩

theorem of_error (h : x p = .error cause q) (hcause : C cause) (hq : I q m) : Safe I C x p := by
  rw [Safe, h]
  exact ⟨hcause, m, hq⟩

theorem ok (h : Safe I C x p) {a : α} (hx : x p = .ok a q) : ∃ m, I q m := by
  rwa [Safe, hx] at h

theorem error (h : Safe I C x p) (hx : x p = .error cause q) : C cause ∧ ∃ m, I q m := by
  rwa [Safe, hx] at h

theorem bind (hx : Safe I C x p) (hf : ∀ a q m, I q m → Safe I C (f a) q) :
    Safe I C (x >>= f) p := by
  cases h : x p with
  | ok a q =>
    obtain ⟨m, hq⟩ := hx.ok h
    rw [Safe, bind_of_ok h]
    exact hf a q m hq
  | error cause q =>
    obtain ⟨hcause, m, hq⟩ := hx.error h
    exact of_error (bind_of_error h) hcause hq

end Safe

namespace Stable

variable (hI : Stable A W I) {C : Fatal → Prop}
  (hhalt : ∀ {p m a cause q m'}, I p m → Halt p m a cause q m' → C cause)
  (hlawful : ∀ cause, cause.Lawful → C cause)

include hI

theorem fail (hp : I p m) (cause : Fatal) : I (p.fail cause) m :=
  hI.place p.rest p.previous .failed
    (hI.diagnostics (p.diagnostics.push (cause.diagnostic p.settings.maxDiagnostics)) hp)

section Events

include hhalt

theorem playAll_safe (hp : I p m) {events : List Event} (hevents : ∀ a, .perform a ∈ events → A a) :
    Safe I C (playAll events) p := by
  induction events generalizing p m with
  | nil => exact .of_ok rfl hp
  | cons e events ih =>
    have hmore := fun a ha => hevents a (List.mem_cons_of_mem e ha)
    suffices hfirst : Safe I C (play e) p from hfirst.bind fun _ q m' hq => ih hq hmore
    cases e with
    | consume t => exact .of_ok rfl (hI.place _ _ _ hp)
    | nextLine rest => exact .of_ok rfl (hI.place _ _ _ hp)
    | perform a =>
      have ha := hevents a (List.mem_cons_self ..)
      cases hact : act a p with
      | ok _ q =>
        obtain ⟨m', heffect, -⟩ := act_ok (hI.sound hp) hact
        exact .of_ok hact (heffect.keeps hI ha hp)
      | error cause q =>
        obtain ⟨m', hstop⟩ := act_error (hI.sound hp) hact
        exact .of_error hact (hhalt hp hstop) (hstop.keeps hI ha hp)

end Events

section Ending

include hlawful

theorem resolveAll_safe (hp : I p m) {rs : List Reference}
    (hrs : ∀ r ∈ rs, r.scope.index < m.nodes.length ∧ W p.symbols m.nodes r) :
    Safe I C (rs.forM resolve) p := by
  induction rs generalizing p m with
  | nil => exact .of_ok rfl hp
  | cons r rs ih =>
    obtain ⟨⟨hscope, hr⟩, hmore⟩ := List.forall_mem_cons.1 hrs
    have hresolved := resolve_resolved (hI.sound hp) hscope
    change Safe I C (resolve r >>= fun _ => rs.forM resolve) p
    cases hresolve : resolve r p with
    | ok _ q =>
      rw [Safe, bind_of_ok hresolve]
      rw [hresolve] at hresolved
      cases hresolved with
      | linked htarget hedge => exact ih (hI.edge hp hr htarget hedge) hmore
      | undefined => exact ih (hI.diagnostics _ hp) hmore
    | error cause q =>
      have herror := bind_of_error (f := fun _ => rs.forM resolve) hresolve
      rw [hresolve] at hresolved
      cases hresolved with
      | full =>
        exact .of_error herror (hlawful _ (Fatal.IsFull.lawful ⟨_, _, rfl, .inr rfl⟩)) hp
      | tooMany => exact .of_error herror (hlawful _ (.of_ne (by simp))) (hI.diagnostics _ hp)

theorem finish_safe (hp : I p m) : Safe I C finish p := by
  have hresolve : Safe I C resolvePending p := by
    rw [Safe, resolvePending_eq]
    refine hI.resolveAll_safe hlawful (hI.taken hp) fun r hr => ?_
    have hr := Array.mem_toList_iff.1 hr
    exact ⟨((hI.sound hp).pending r hr).1, hI.waiting hp r hr⟩
  refine hresolve.bind fun _ q m' hq => ?_
  rw [Safe, bind_get]
  cases q.blocks.back? with
  | some block => exact ⟨hlawful _ (.of_ne (by simp)), m', hq⟩
  | none => exact ⟨m', hI.place _ _ _ hq⟩

theorem close_safe (hp : I p m) (stop : Stop) : Safe I C (close stop) p := by
  cases stop with
  | line rest => exact .of_ok rfl (hI.place _ _ _ hp)
  | text => exact hI.finish_safe hlawful hp
  | corrupt span => exact .of_error rfl (hlawful _ (.of_ne (by simp))) hp

end Ending

include hhalt hlawful

theorem performance_safe (hp : I p m) {tokens : List Token}
    (hactions : ∀ a, .perform a ∈ (script .item tokens).1 → A a) :
    Safe I C (performance tokens) p :=
  (hI.playAll_safe hhalt hp hactions).bind fun _ _ _ hq => hI.close_safe hlawful hq _

end Stable

end Parse

end LabelGraph
