import LabelGraph.Proofs.Parse.Invariant
import LabelGraph.Proofs.Parse.Play

/-!
The course of a parse. The state is consistent from the first action to the last, what
is written down is never taken back, and each action writes at the places of its own
tokens. Behind the last line every waiting reference is linked or reported, in order.
-/

namespace LabelGraph

structure Arrow where
  source : NodeId
  target : NodeId
  label : Symbol
  direction : Direction
  span : Span
deriving DecidableEq, Repr

def Edge.arrow (e : Edge) : Arrow :=
  { source := e.source, target := e.target, label := e.label, direction := e.direction
    span := e.span }

namespace Action

def starts (a : Action) : List Position := a.tokens.map (·.span.start)

end Action

theorem Position.min_eq (p q : Position) : p.min q = p ∨ p.min q = q := by
  unfold Position.min
  split
  · exact .inl rfl
  · exact .inr rfl

namespace Parse

/-- The second state holds all that the first one does, and more at certain places. -/
structure Grows (here : Position → Prop) (p : Parse) (m : Ledger) (q : Parse) (m' : Ledger) :
    Prop where
  nodes : m.nodes <+: m'.nodes
  live : ∃ more, m'.live = m.live ++ more ∧ ∀ e ∈ more, here e.span.start
  pending : ∃ more, q.pending.toList = p.pending.toList ++ more ∧ ∀ r ∈ more, here r.span.start
  diagnostics : ∃ more, q.diagnostics.toList = p.diagnostics.toList ++ more ∧
    ∀ d ∈ more, here d.span.start
  symbols : p.symbols.Extends q.symbols
  settings : q.settings = p.settings

namespace Grows

variable {here there : Position → Prop} {p q r : Parse} {m m' m'' : Ledger}

theorem refl (here : Position → Prop) (p : Parse) (m : Ledger) : Grows here p m p m :=
  ⟨List.prefix_rfl, ⟨[], by simp, by simp⟩, ⟨[], by simp, by simp⟩, ⟨[], by simp, by simp⟩,
    .refl _, rfl⟩

theorem mono (h : Grows here p m q m') (hsub : ∀ pos, here pos → there pos) :
    Grows there p m q m' where
  nodes := h.nodes
  live := h.live.imp fun _ hmore => hmore.imp_right fun hall e he => hsub _ (hall e he)
  pending := h.pending.imp fun _ hmore => hmore.imp_right fun hall r hr => hsub _ (hall r hr)
  diagnostics := h.diagnostics.imp fun _ hmore => hmore.imp_right fun hall d hd =>
    hsub _ (hall d hd)
  symbols := h.symbols
  settings := h.settings

theorem of_place {rest : List Token} {previous : Span} {phase : Phase}
    (h : Grows here { p with rest, previous, phase } m q m') : Grows here p m q m' :=
  ⟨h.nodes, h.live, h.pending, h.diagnostics, h.symbols, h.settings⟩

theorem trans (h : Grows here p m q m') (h' : Grows here q m' r m'') : Grows here p m r m'' := by
  obtain ⟨edges, hlive, hedges⟩ := h.live
  obtain ⟨edges', hlive', hedges'⟩ := h'.live
  obtain ⟨refs, hpending, hrefs⟩ := h.pending
  obtain ⟨refs', hpending', hrefs'⟩ := h'.pending
  obtain ⟨reports, hdiagnostics, hreports⟩ := h.diagnostics
  obtain ⟨reports', hdiagnostics', hreports'⟩ := h'.diagnostics
  refine ⟨h.nodes.trans h'.nodes, ⟨edges ++ edges', ?_, ?_⟩, ⟨refs ++ refs', ?_, ?_⟩,
    ⟨reports ++ reports', ?_, ?_⟩, h.symbols.trans h'.symbols, h'.settings.trans h.settings⟩
  · rw [hlive', hlive, List.append_assoc]
  · intro e he
    rcases List.mem_append.1 he with he | he
    · exact hedges e he
    · exact hedges' e he
  · rw [hpending', hpending, List.append_assoc]
  · intro r hr
    rcases List.mem_append.1 hr with hr | hr
    · exact hrefs r hr
    · exact hrefs' r hr
  · rw [hdiagnostics', hdiagnostics, List.append_assoc]
  · intro d hd
    rcases List.mem_append.1 hd with hd | hd
    · exact hreports d hd
    · exact hreports' d hd

end Grows

section Course

variable {p q : Parse} {m m' : Ledger} {a : Action} {cause : Fatal}

theorem join_start (name colon : Token) :
    (name.span.join colon.span).start ∈ (Action.declareLabel name colon).starts := by
  have hmin := Position.min_eq name.span.start colon.span.start
  simpa [Action.starts, Action.tokens, Span.join] using hmin

/-- An action writes at the places of its tokens only. -/
theorem Effect.grows (h : Effect p m a q m') (hp : p.Sound m) :
    Grows (· ∈ a.starts) p m q m' := by
  have hextends {s : Symbol} {word : String} {t : SymbolTable}
      (hintern : SymbolTable.intern word p.symbols = .ok s t) : p.symbols.Extends t :=
    (SymbolTable.intern_ok hp.symbols hintern).2.2
  have hreport (b : Action) (d : Diagnostic) (hd : d.span.start ∈ b.starts) :
      ∃ more, (p.diagnostics.push d).toList = p.diagnostics.toList ++ more ∧
        ∀ e ∈ more, e.span.start ∈ b.starts := by
    refine ⟨[d], Array.toList_push, ?_⟩
    intro e he
    rw [List.mem_singleton.1 he]
    exact hd
  have hhead {t : Token} {more : List Token} :
      t.span.start ∈ (t :: more).map (·.span.start) := List.mem_cons_self ..
  cases h with
  | intern hintern => exact { Grows.refl _ p m with symbols := hextends hintern }
  | newLabel hintern =>
    exact { Grows.refl _ p m with nodes := List.prefix_append .., symbols := hextends hintern }
  | @newLabelInside name colon s _ t _ _ _ _ hintern _ _ hcontains =>
    have ht := (SymbolTable.intern_ok hp.symbols hintern).1
    refine
      { Grows.refl _ p m with
        nodes := List.prefix_append ..
        live := ⟨[_], rfl, fun e he => ?_⟩
        symbols := (hextends hintern).trans (SymbolTable.intern_ok ht hcontains).2.2 }
    rw [List.mem_singleton.1 he]
    exact join_start name colon
  | @oldLabel name colon s t r hintern =>
    have hreport := hreport (.declareLabel name colon)
      (duplicateName name.text r.span (name.span.join colon.span)) (join_start name colon)
    exact { Grows.refl _ p m with diagnostics := hreport, symbols := hextends hintern }
  | newExternal hintern =>
    exact { Grows.refl _ p m with nodes := List.prefix_append .., symbols := hextends hintern }
  | @oldExternal name s t r hintern =>
    have hreport := hreport (.declareExternal name) (duplicateName name.text r.span name.span) hhead
    exact { Grows.refl _ p m with diagnostics := hreport, symbols := hextends hintern }
  | @outside name d s t hintern =>
    have hreport := hreport (.refer name d) (outsideLabel name) hhead
    exact { Grows.refl _ p m with diagnostics := hreport, symbols := hextends hintern }
  | linked hintern =>
    refine
      { Grows.refl _ p m with
        live := ⟨[_], rfl, fun e he => ?_⟩
        symbols := hextends hintern }
    rw [List.mem_singleton.1 he]
    exact hhead
  | queued hintern =>
    refine
      { Grows.refl _ p m with
        pending := ⟨[_], Array.toList_push, fun r hr => ?_⟩
        symbols := hextends hintern }
    rw [List.mem_singleton.1 hr]
    exact hhead
  | @openBlock brace =>
    by_cases hdeep : p.settings.maxBlockDepth.toNat ≤ p.blocks.size
    · have hreport := hreport (.openBlock brace) (tooDeep p.settings.maxBlockDepth brace) hhead
      rw [if_pos hdeep]
      exact { Grows.refl _ p m with diagnostics := hreport }
    · rw [if_neg hdeep]
      exact { Grows.refl _ p m with }
  | closeBlock => exact { Grows.refl _ p m with }
  | @unmatched brace =>
    have hreport := hreport (.closeBlock brace) (unmatchedBrace brace) hhead
    exact { Grows.refl _ p m with diagnostics := hreport }
  | @reject t wanted =>
    have hreport := hreport (.reject t wanted) (unexpected t wanted)
      (by rw [unexpected_span]; exact hhead)
    exact { Grows.refl _ p m with diagnostics := hreport }

/-! Playing events. -/

/-- A sequence of events, as what each of them does. -/
inductive Course : List Event → Parse → Ledger → Parse → Ledger → Prop where
  | nil {p : Parse} {m : Ledger} : Course [] p m p m
  | act {a : Action} {events : List Event} {p q r : Parse} {m m' m'' : Ledger}
    (heffect : Effect p m a q m') (hsound : q.Sound m') (hrest : Course events q m' r m'') :
    Course (.perform a :: events) p m r m''
  | pass {e : Event} {events : List Event} {p q : Parse} {m m' : Ledger} {rest : List Token}
    {previous : Span} {phase : Phase} (he : ∀ a, e ≠ .perform a)
    (hrest : Course events { p with rest, previous, phase } m q m') :
    Course (e :: events) p m q m'

theorem playAll_ok (hp : p.Sound m) {events : List Event} (h : playAll events p = .ok () q) :
    ∃ m', q.Sound m' ∧ Course events p m q m' := by
  induction events generalizing p m with
  | nil =>
    cases h
    exact ⟨m, hp, .nil⟩
  | cons e events ih =>
      obtain ⟨_, r, hplay, hrest⟩ := bind_ok_iff.1 h
      cases e with
      | perform a =>
        obtain ⟨m₁, heffect, hr⟩ := act_ok hp hplay
        obtain ⟨m₂, hq, hcourse⟩ := ih hr hrest
        exact ⟨m₂, hq, .act heffect hr hcourse⟩
      | consume t =>
        cases hplay
        obtain ⟨m₂, hq, hcourse⟩ := ih (hp.with_place p.rest t.span p.phase) hrest
        exact ⟨m₂, hq, .pass (by simp) hcourse⟩
      | nextLine rest =>
        cases hplay
        obtain ⟨m₂, hq, hcourse⟩ := ih (hp.with_place rest p.previous .parsing) hrest
        exact ⟨m₂, hq, .pass (by simp) hcourse⟩

theorem playAll_error (hp : p.Sound m) {events : List Event}
    (h : playAll events p = .error cause q) : p.AtLimit m (4 * events.length) cause := by
  induction events generalizing p m with
  | nil => cases h
  | cons e events ih =>
      rw [List.length_cons, Nat.mul_succ]
      rcases bind_error_iff.1 h with hplay | ⟨_, r, hplay, hrest⟩
      · cases e with
        | perform a =>
          obtain ⟨m₁, hhalt⟩ := act_error hp hplay
          exact hhalt.atLimit.mono (Nat.le_add_left _ _)
        | consume t => cases hplay
        | nextLine rest => cases hplay
      · cases e with
        | perform a =>
          obtain ⟨m₁, heffect, hr⟩ := act_ok hp hplay
          exact (ih hr hrest).of_room (heffect.grows hp).settings heffect.room
        | consume t =>
          cases hplay
          have hlimit := ih (hp.with_place p.rest t.span p.phase) hrest
          exact (hlimit.of_room rfl id).mono (Nat.le_add_right _ _)
        | nextLine rest =>
          cases hplay
          have hlimit := ih (hp.with_place rest p.previous .parsing) hrest
          exact (hlimit.of_room rfl id).mono (Nat.le_add_right _ _)

def touched (events : List Event) (pos : Position) : Prop :=
  ∃ a, .perform a ∈ events ∧ pos ∈ a.starts

theorem touched_cons {e : Event} {events : List Event} {pos : Position} (h : touched events pos) :
    touched (e :: events) pos :=
  h.imp fun _ => And.imp_left (List.mem_cons_of_mem e)

theorem Effect.pending_size (h : Effect p m a q m') : q.pending.size ≤ p.pending.size + 1 := by
  cases h with
  | queued => simp
  | _ => exact Nat.le_succ _

namespace Course

variable {events : List Event}

theorem grows (h : Course events p m q m') (hp : p.Sound m) : Grows (touched events) p m q m' := by
  induction h with
  | nil => exact .refl _ _ _
  | act heffect hsound _ ih =>
    refine ((heffect.grows hp).mono ?_).trans ((ih hsound).mono fun _ => touched_cons)
    intro pos hpos
    exact ⟨_, List.mem_cons_self .., hpos⟩
  | pass _ _ ih =>
    exact Grows.of_place ((ih (hp.with_place _ _ _)).mono fun _ => touched_cons)

theorem room (h : Course events p m q m') {n : Nat}
    (hroom : Room p.symbols m (n + 4 * events.length)) : Room q.symbols m' n := by
  induction h with
  | nil => exact hroom
  | act heffect _ _ ih => exact ih (heffect.room hroom)
  | pass _ _ ih => exact ih (hroom.mono (by simp only [List.length_cons]; omega))

theorem pending_size (h : Course events p m q m') :
    q.pending.size ≤ p.pending.size + events.length := by
  induction h with
  | nil => exact Nat.le_refl _
  | act heffect _ _ ih =>
    apply Nat.le_trans ih
    have hone := heffect.pending_size
    simp only [List.length_cons]
    omega
  | pass _ _ ih =>
    apply Nat.le_trans ih
    simp only [List.length_cons]
    omega

end Course

/-! Waiting references. -/

def arrow? (p : Parse) (r : Reference) : Option Arrow :=
  p.labels[r.name]?.map fun target =>
    { source := r.scope, target, label := r.name, direction := r.direction, span := r.span }

theorem resolve_ok (hp : p.Sound m) {r : Reference} (hscope : r.scope.index < m.nodes.length)
    (h : resolve r p = .ok () q) :
    (∃ target g, p.labels[r.name]? = some target ∧ q = { p with graph := g } ∧
        q.Sound (m.addEdge ⟨⟨m.live.length, 0⟩, r.scope, target, r.name, r.direction, r.span⟩)) ∨
      p.labels[r.name]? = none ∧ q.Sound m ∧
        q = { p with diagnostics := p.diagnostics.push (p.undefinedLabel r) } := by
  have hresolved := resolve_resolved hp hscope
  rw [h] at hresolved
  cases hresolved with
  | linked htarget hedge => exact .inl ⟨_, _, htarget, rfl, hp.with_edge hedge⟩
  | undefined hnone => exact .inr ⟨hnone, hp.with_diagnostics _, rfl⟩

theorem resolve_error (hp : p.Sound m) {r : Reference} (hscope : r.scope.index < m.nodes.length)
    (h : resolve r p = .error cause q) : p.AtLimit m 1 cause := by
  have hresolved := resolve_resolved hp hscope
  rw [h] at hresolved
  cases hresolved with
  | full hfull =>
    refine .inl ⟨_, _, rfl, rfl, fun hroom => ?_⟩
    exact absurd hroom.edges (Nat.not_le.2 (Nat.lt_succ_of_le hfull))
  | tooMany hlimit => exact .inr ⟨_, _, rfl, hlimit⟩

/-- Every waiting reference is linked or reported, in the order of the references. -/
theorem resolveAll_ok (hp : p.Sound m) {rs : List Reference}
    (hscope : ∀ r ∈ rs, r.scope.index < m.nodes.length) (h : rs.forM resolve p = .ok () q) :
    ∃ m' graph diagnostics, q = { p with graph, diagnostics } ∧ q.Sound m' ∧
      m'.nodes = m.nodes ∧
      m'.live.map Edge.arrow = m.live.map Edge.arrow ++ rs.filterMap p.arrow? ∧
      diagnostics.toList = p.diagnostics.toList ++
        (rs.filter fun r => p.labels[r.name]?.isNone).map p.undefinedLabel := by
  induction rs generalizing p m with
  | nil =>
    cases h
    exact ⟨m, _, _, rfl, hp, rfl, by simp, by simp⟩
  | cons r rs ih =>
      obtain ⟨_, p₁, hresolve, hrest⟩ := bind_ok_iff.1 h
      have hmore := fun r' hr' => hscope r' (List.mem_cons_of_mem r hr')
      rcases resolve_ok hp (hscope r (List.mem_cons_self ..)) hresolve with
        ⟨target, g, hlabel, hp₁, hsound⟩ | ⟨hlabel, hsound, hp₁⟩
      · obtain ⟨m', graph, diagnostics, hq, hq', hnodes, hlive, hreports⟩ :=
          ih hsound hmore hrest
        subst hp₁
        have harrow : arrow? { p with graph := g } = p.arrow? := rfl
        have hundefined : undefinedLabel { p with graph := g } = p.undefinedLabel := rfl
        refine ⟨m', graph, diagnostics, hq, hq', hnodes, ?_, ?_⟩
        · have hhead : p.arrow? r = some ⟨r.scope, target, r.name, r.direction, r.span⟩ := by
            rw [arrow?, hlabel]
            rfl
          rw [hlive, harrow, List.filterMap_cons_some hhead]
          simp [Edge.arrow]
        · rw [hreports, hundefined, List.filter_cons_of_neg (by simp [hlabel])]
      · obtain ⟨m', graph, diagnostics, hq, hq', hnodes, hlive, hreports⟩ :=
          ih hsound hmore hrest
        subst hp₁
        have harrow (d : Array Diagnostic) : arrow? { p with diagnostics := d } = p.arrow? := rfl
        have hundefined (d : Array Diagnostic) :
            undefinedLabel { p with diagnostics := d } = p.undefinedLabel := rfl
        refine ⟨m', graph, diagnostics, hq, hq', hnodes, ?_, ?_⟩
        · have hhead : p.arrow? r = none := by
            rw [arrow?, hlabel]
            rfl
          rw [hlive, harrow, List.filterMap_cons_none hhead]
        · rw [hreports, hundefined, List.filter_cons_of_pos (by simp [hlabel]), List.map_cons,
            Array.toList_push, List.append_assoc]
          rfl

theorem resolveAll_error (hp : p.Sound m) {rs : List Reference}
    (hscope : ∀ r ∈ rs, r.scope.index < m.nodes.length)
    (h : rs.forM resolve p = .error cause q) : p.AtLimit m rs.length cause := by
  induction rs generalizing p m with
  | nil => cases h
  | cons r rs ih =>
      rw [List.length_cons]
      have hhead := hscope r (List.mem_cons_self ..)
      have hmore := fun r' hr' => hscope r' (List.mem_cons_of_mem r hr')
      rcases bind_error_iff.1 h with hresolve | ⟨_, p₁, hresolve, hrest⟩
      · exact (resolve_error hp hhead hresolve).mono (Nat.le_add_left _ _)
      · rcases resolve_ok hp hhead hresolve with ⟨target, g, -, hp₁, hsound⟩ | ⟨-, hsound, hp₁⟩
        · have hlimit := ih hsound hmore hrest
          subst hp₁
          exact hlimit.of_room rfl fun hroom => hroom.addEdge _
        · have hlimit := ih hsound hmore hrest
          subst hp₁
          exact hlimit.of_room rfl fun hroom => hroom.mono (Nat.le_succ _)

theorem resolvePending_ok (hp : p.Sound m) (h : resolvePending p = .ok () q) :
    ∃ m' graph diagnostics, q = { p with graph, diagnostics, pending := #[] } ∧ q.Sound m' ∧
      m'.nodes = m.nodes ∧
      m'.live.map Edge.arrow =
        m.live.map Edge.arrow ++ p.pending.toList.filterMap p.arrow? ∧
      diagnostics.toList = p.diagnostics.toList ++
        (p.pending.toList.filter fun r => p.labels[r.name]?.isNone).map p.undefinedLabel := by
  rw [resolvePending_eq] at h
  exact resolveAll_ok hp.without_pending
    (fun r hr => (hp.pending r (Array.mem_toList_iff.1 hr)).1) h

theorem resolvePending_error (hp : p.Sound m) (h : resolvePending p = .error cause q) :
    p.AtLimit m p.pending.size cause := by
  rw [resolvePending_eq] at h
  have hlimit := resolveAll_error hp.without_pending
    (fun r hr => (hp.pending r (Array.mem_toList_iff.1 hr)).1) h
  exact hlimit.of_room rfl id

end Course

end Parse

end LabelGraph
