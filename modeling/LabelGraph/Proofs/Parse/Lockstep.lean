import LabelGraph.Proofs.Graph.Rename
import LabelGraph.Proofs.Parse.Comparison
import LabelGraph.Proofs.Parse.Stage

/-!
Two whole parses side by side. They play their scripts in lockstep: the actions one by one
together, and between these each parse may do things that change nothing that is compared. They
resolve the same references in the end, and so they end alike.
-/

namespace LabelGraph

def Parse.OutOfSymbols (p : Parse) : Prop :=
  p.FailedWith Code.capacity ∧
    p.diagnostics.back?.map Diagnostic.message =
      some (StoreError.capacityExceeded .symbol indexCapacity).message

namespace Comparison

open Parse

section Relations

variable (C : Comparison)

/-- Any diagnostic can be reported by one of the parses alone. -/
def Silent : Prop :=
  C.Unlimited ∧ ∀ ds es d, C.reports ds es → C.reports (ds.push d) es ∧ C.reports ds (es.push d)

def Idle : Event → Prop
  | .perform (.reject _ _) => C.Silent
  | .perform _ => False
  | _ => True

/-- The same actions one after another, with idle events among them. -/
inductive Abreast : List Event → List Event → Prop
  | nil : Abreast [] []
  | act {a b : Action} {es fs : List Event} (hab : C.Actions a b) (h : Abreast es fs) :
    Abreast (.perform a :: es) (.perform b :: fs)
  | left {e : Event} {es fs : List Event} (he : C.Idle e) (h : Abreast es fs) :
    Abreast (e :: es) fs
  | right {f : Event} {es fs : List Event} (hf : C.Idle f) (h : Abreast es fs) :
    Abreast es (f :: fs)

inductive Stops : Stop → Stop → Prop
  | text : Stops .text .text
  | corrupt {a b : Span} (h : C.span a b) : Stops (.corrupt a) (.corrupt b)

def Ends (p q : Parse) : Prop := q.phase = p.phase ∧ ∃ m m', C.Alike p m q m'

end Relations

variable {C : Comparison} {p q : Parse} {m m' : Ledger}

/-- A script is abreast with itself. -/
theorem Abreast.refl (htoken : ∀ t, C.token t t) (events : List Event) :
    C.Abreast events events := by
  induction events with
  | nil => exact .nil
  | cons e events ih =>
    cases e with
    | consume t => exact .left trivial (.right trivial ih)
    | nextLine rest => exact .left trivial (.right trivial ih)
    | perform a =>
      have ha : C.Actions a a := by
        cases a with
        | declareLabel name colon => exact .declareLabel (htoken name) (htoken colon)
        | _ =>
          constructor
          exact htoken _
      exact .act ha ih

theorem Stops.refl (hspan : ∀ a, C.span a a) (place : Place) (tokens : List Token) :
    C.Stops (script place tokens).2 (script place tokens).2 := by
  cases hstop : (script place tokens).2 with
  | text => exact .text
  | corrupt span => exact .corrupt (hspan span)
  | line rest => exact absurd hstop (script_ne_line place tokens rest)

section Playing

variable (hC : C.Lawful) (h : C.Alike p m q m')

include h

theorem play_idle_left {e : Event} (he : C.Idle e) :
    ∃ p', play e p = .ok () p' ∧ C.Alike p' m q m' := by
  cases e with
  | consume t => exact ⟨_, rfl, h.with_place _ _ _ _ _ _⟩
  | nextLine rest => exact ⟨_, rfl, h.with_place _ _ _ _ _ _⟩
  | perform a =>
    cases a with
    | reject t wanted =>
      obtain ⟨hunlimited, hsilent⟩ := he
      exact ⟨_, report_unlimited (h.settings.1 ▸ hunlimited.1) _,
        h.with_diagnostics (hsilent _ _ _ h.reports).1⟩
    | _ => cases he

theorem play_idle_right {e : Event} (he : C.Idle e) :
    ∃ q', play e q = .ok () q' ∧ C.Alike p m q' m' := by
  cases e with
  | consume t => exact ⟨_, rfl, h.with_place _ _ _ _ _ _⟩
  | nextLine rest => exact ⟨_, rfl, h.with_place _ _ _ _ _ _⟩
  | perform a =>
    cases a with
    | reject t wanted =>
      obtain ⟨hunlimited, hsilent⟩ := he
      exact ⟨_, report_unlimited (h.settings.2 ▸ hunlimited.2) _,
        h.with_diagnostics (hsilent _ _ _ h.reports).2⟩
    | _ => cases he

include hC

theorem playAll_sync {es fs : List Event} (hevents : C.Abreast es fs) :
    C.Together (playAll es) (playAll fs) p q := by
  induction hevents generalizing p q m m' with
  | nil => exact .of_ok rfl rfl h trivial
  | act hab _ ih =>
    rw [playAll_cons, playAll_cons]
    exact (act_sync hC h hab).bind fun _ _ _ _ _ _ h₁ _ => ih h₁
  | left he _ ih =>
    obtain ⟨p', hplay, h'⟩ := play_idle_left h he
    rw [Together, Sync, playAll_cons, bind_of_ok hplay]
    exact ih h'
  | right hf _ ih =>
    obtain ⟨q', hplay, h'⟩ := play_idle_right h hf
    rw [Together, Sync, playAll_cons, bind_of_ok hplay]
    exact ih h'

/-! The end of the text. -/

theorem resolve_sync {x y : Reference} (hscope : x.scope.index < m.nodes.length)
    (hxy : C.References p.symbols q.symbols x y) :
    C.Sync (resolve x) (resolve y) p q fun _ p' m₁ _ q' _ =>
      m₁.nodes = m.nodes ∧ p'.symbols = p.symbols ∧ q'.symbols = q.symbols := by
  have ⟨horigin, hdirection, hname, hspan⟩ := hxy
  have hlabels := h.labels_eq hname
  apply Sync.of_get
  cases hlabel : p.labels[x.name]? with
  | some target =>
    rw [hlabels, hlabel, horigin, hdirection]
    refine (link_sync h hscope (h.left.label_lt hlabel) hname x.direction hspan).mono ?_
    exact fun _ _ _ _ _ _ ⟨hnodes, _, hleft, hright⟩ => ⟨hnodes, hleft, hright⟩
  | none =>
    rw [hlabels, hlabel]
    have hreport := report_sync hC h
      (.undefined h.settings.1 h.settings.2 hname.spell_eq hspan)
    refine hreport.mono ?_
    exact fun _ _ _ _ _ _ ⟨hnodes, _, hleft, hright⟩ => ⟨hnodes ▸ rfl, hleft, hright⟩

theorem resolveAll_sync {xs ys : List Reference}
    (hscope : ∀ x ∈ xs, x.scope.index < m.nodes.length)
    (hxys : List.Forall₂ (C.References p.symbols q.symbols) xs ys) :
    C.Together (xs.forM resolve) (ys.forM resolve) p q := by
  induction xs generalizing ys p q m m' with
  | nil =>
    cases hxys
    exact .of_ok rfl rfl h trivial
  | cons x xs ih =>
    cases hxys with
    | cons hxy hxys =>
      obtain ⟨hfirst, hmore⟩ := List.forall_mem_cons.1 hscope
      refine (resolve_sync hC h hfirst hxy).bind ?_
      rintro _ p₁ m₁ _ q₁ m₁' h₁ ⟨hnodes, hleft, hright⟩
      exact ih h₁ (hnodes ▸ hmore) (by rwa [hleft, hright])

theorem finish_sync : C.Together finish finish p q := by
  have hresolve : C.Together resolvePending resolvePending p q := by
    rw [Together, Sync, resolvePending_eq, resolvePending_eq]
    refine resolveAll_sync hC h.without_pending (fun x hx => ?_) h.pending
    exact (h.left.pending x (Array.mem_toList_iff.1 hx)).1
  refine hresolve.bind ?_
  intro _ p₁ m₁ _ q₁ m₁' h₁ _
  apply Sync.of_get
  rcases last_cases h₁.blocks with ⟨hp, hq⟩ | ⟨a, b, hp, hq, hab⟩
  · rw [hp, hq]
    exact .of_ok rfl rfl (h₁.with_place _ _ _ _ _ _) trivial
  · rw [hp, hq]
    exact .of_error rfl rfl h₁ (.unclosed hab.2)

theorem close_sync {stop stop' : Stop} (hstop : C.Stops stop stop') :
    C.Together (close stop) (close stop') p q := by
  cases hstop with
  | text => exact finish_sync hC h
  | corrupt hab => exact .of_error rfl rfl h (.corrupt hab)

theorem performance_sync {tokens tokens' : List Token}
    (hevents : C.Abreast (script .item tokens).1 (script .item tokens').1)
    (hstop : C.Stops (script .item tokens).2 (script .item tokens').2) :
    C.Together (performance tokens) (performance tokens') p q :=
  (playAll_sync hC h hevents).bind fun _ _ _ _ _ _ h₁ _ => close_sync hC h₁ hstop

end Playing

/-! The whole parses. -/

theorem Alike.fail (hC : C.Lawful) (h : C.Alike p m q m') {c d : Fatal} (hcause : C.Causes c d) :
    C.Alike (p.fail c) m (q.fail d) m' := by
  obtain ⟨hp, hq⟩ := h.settings
  have hreports := hC.fatal _ _ _ _ h.reports hcause
  rw [← hp, ← hq] at hreports
  exact (h.with_diagnostics hreports).with_place p.rest q.rest p.previous q.previous .failed .failed

theorem fail_outOfSymbols (p : Parse) (span : Span) :
    (p.fail (.outOfSymbols span)).OutOfSymbols := by
  refine ⟨fail_failedWith.2 rfl, ?_⟩
  rw [fail, Array.back?_push]
  rfl

theorem ended_sync (hC : C.Lawful) (h : C.Alike p m q m') {tokens tokens' : List Token}
    (hevents : C.Abreast (script .item tokens).1 (script .item tokens').1)
    (hstop : C.Stops (script .item tokens).2 (script .item tokens').2) :
    C.Ends (ended (performance tokens p)) (ended (performance tokens' q)) ∨
      ¬ C.exact ∧ ((ended (performance tokens p)).OutOfSymbols ∨
        (ended (performance tokens' q)).OutOfSymbols) := by
  have hsync := performance_sync hC h hevents hstop
  rw [Together, Sync] at hsync
  cases hp : performance tokens p with
  | ok _ p₁ =>
    cases hq : performance tokens' q with
    | ok _ q₁ =>
      rw [hp, hq] at hsync
      cases hsync with
      | ok h _ =>
        exact .inl ⟨(performance_phase hq).trans (performance_phase hp).symm, _, _, h⟩
    | error d q₁ =>
      rw [hp, hq] at hsync
      cases hsync with
      | rightFull hexact => exact .inr ⟨hexact, .inr (fail_outOfSymbols _ _)⟩
  | error c p₁ =>
    rw [hp] at hsync
    generalize performance tokens' q = r at hsync
    cases hsync with
    | error h hcause => exact .inl ⟨rfl, _, _, h.fail hC hcause⟩
    | leftFull hexact => exact .inr ⟨hexact, .inl (fail_outOfSymbols _ _)⟩
    | rightFull hexact => exact .inr ⟨hexact, .inr (fail_outOfSymbols _ _)⟩

section Run

variable {source source' : List UInt8} {table? table'? : Option SymbolTable}

theorem opened_alike (source source' : List UInt8) (htable : ∀ t ∈ table?, t.Interned)
    (htable' : ∀ t ∈ table'?, t.Interned)
    (hexact : C.exact → (opened source' C.right table'?).symbols =
      (opened source C.left table?).symbols)
    (hreports : C.reports #[] #[]) :
    C.Alike (opened source C.left table?).started {}
      (opened source' C.right table'?).started {} := by
  have hleft : (opened source C.left table?).started.Sound {} := (started_formed htable).toSound
  have hright : (opened source' C.right table'?).started.Sound {} :=
    (started_formed htable').toSound
  obtain ⟨t, seed, hp⟩ := opened_eq source C.left table?
  obtain ⟨u, seed', hq⟩ := opened_eq source' C.right table'?
  rw [hp] at hleft hexact ⊢
  rw [hq] at hright hexact ⊢
  exact
    { left := hleft
      right := hright
      settings := ⟨rfl, rfl⟩
      symbols := hexact
      nodes := .nil
      edges := .nil
      scope := rfl
      blocks := .nil
      pending := .nil
      reports := hreports }

theorem run_seeded {settings : Settings}
    (hseed : (opened source settings table?).seedError = none) :
    (opened source settings table?).run =
      ended (performance (tokenize source) (opened source settings table?).started) := by
  rw [run_eq (opened_ongoing source settings table?) hseed,
    (opened_start source settings table?).2.2]

theorem run_unseeded {settings : Settings} {e : StoreError}
    (hseed : (opened source settings table?).seedError = some e) :
    (opened source settings table?).run =
      (opened source settings table?).started.fail (.storage e .zero) :=
  run_of_error (opened_ongoing source settings table?) (readStep_unseeded hseed)

/-- What ends a parse whose reserved words do not fit into a table is a lack of symbols. -/
theorem seedError_full {settings : Settings} {e : StoreError}
    (hseed : (opened source settings table?).seedError = some e) :
    e = .capacityExceeded .symbol indexCapacity := by
  cases table? with
  | some t => cases hseed
  | none =>
    simp only [opened, ofSource] at hseed
    split at hseed
    · cases hseed
    · next hseeded =>
      cases hseed
      exact (SymbolTable.seeded_error hseeded).1

/-- Two parses with scripts abreast end alike. With different handles, one of them may run out
of symbols instead. -/
theorem run_sync (source source' : List UInt8) (table? table'? : Option SymbolTable)
    (hC : C.Lawful) (htable : ∀ t ∈ table?, t.Interned)
    (htable' : ∀ t ∈ table'?, t.Interned)
    (hexact : C.exact →
      (opened source' C.right table'?).symbols = (opened source C.left table?).symbols ∧
      (opened source' C.right table'?).seedError = (opened source C.left table?).seedError)
    (hreports : C.reports #[] #[]) (hzero : C.span .zero .zero)
    (hevents : C.Abreast (script .item (tokenize source)).1 (script .item (tokenize source')).1)
    (hstop : C.Stops (script .item (tokenize source)).2 (script .item (tokenize source')).2) :
    C.Ends (opened source C.left table?).run (opened source' C.right table'?).run ∨
      ¬ C.exact ∧ ((opened source C.left table?).run.OutOfSymbols ∨
        (opened source' C.right table'?).run.OutOfSymbols) := by
  have hstart := opened_alike source source' htable htable' (fun hsame => (hexact hsame).1) hreports
  have hfull {source : List UInt8} {settings : Settings} {table? : Option SymbolTable}
      {e : StoreError} (hseed : (opened source settings table?).seedError = some e) :
      (opened source settings table?).run.OutOfSymbols := by
    rw [run_unseeded hseed, seedError_full hseed]
    exact fail_outOfSymbols _ _
  cases hp : (opened source C.left table?).seedError with
  | none =>
    cases hq : (opened source' C.right table'?).seedError with
    | none =>
      rw [run_seeded hp, run_seeded hq]
      exact ended_sync hC hstart hevents hstop
    | some e =>
      refine .inr ⟨fun hsame => ?_, .inr (hfull hq)⟩
      have hseed := (hexact hsame).2
      rw [hp, hq] at hseed
      cases hseed
  | some e =>
    by_cases hsame : C.exact
    · have hq := (hexact hsame).2.trans hp
      rw [run_unseeded hp, run_unseeded hq]
      exact .inl ⟨rfl, _, _, hstart.fail hC (.storage hzero)⟩
    · exact .inr ⟨hsame, .inl (hfull hp)⟩

end Run

/-! What two states that are alike hold. -/

theorem Alike.nodeCount_eq (h : C.Alike p m q m') : q.graph.nodeCount = p.graph.nodeCount := by
  rw [h.left.dense.shape.agrees.nodeCount, h.right.dense.shape.agrees.nodeCount, h.nodes.length_eq]

theorem Alike.node_forall (h : C.Alike p m q m') {n : NodeId} {node : Node}
    (hnode : p.graph.node n = .ok node) :
    ∃ node' span span', q.graph.node n = .ok node' ∧ node'.kind = node.kind ∧
      p.symbols.SameWord node.name q.symbols node'.name ∧ p.graph.nodeSpan n = .ok span ∧
        q.graph.nodeSpan n = .ok span' ∧ C.span span span' := by
  obtain ⟨r, hr, rfl, hname, hkind, hspan⟩ := h.left.dense.shape.mem_of_node hnode
  obtain ⟨r', hr', hid, hkind', hword, hab⟩ := exists_right h.nodes hr
  obtain ⟨⟨first, hnode'⟩, hspan'⟩ := h.right.node_of_mem hr'
  rw [hid] at hnode' hspan'
  exact ⟨_, _, _, hnode', hkind'.trans hkind, hname ▸ hword, hspan, hspan', hab⟩

theorem Alike.edges_forall (h : C.Alike p m q m') :
    List.Forall₂ (C.Edges p.symbols q.symbols) p.graph.edges q.graph.edges := by
  rw [h.left.dense.edges, h.right.dense.edges]
  exact h.edges

/-- If all spans are the same, the graphs differ in the handles of symbols only. -/
theorem Alike.graph_eq (h : C.Alike p m q m') (hspan : ∀ a b, C.span a b → a = b)
    {f : Symbol → Symbol} (hf : ∀ s r, p.symbols.SameWord s q.symbols r → f s = r) :
    q.graph = p.graph.rename f := by
  have hnodes : m.nodes.map (·.rename f) = m'.nodes := by
    rw [← List.forall₂_eq_eq_eq, List.forall₂_map_left_iff]
    refine h.nodes.imp ?_
    rintro ⟨_, _, _, _⟩ ⟨_, _, _, _⟩ ⟨rfl, rfl, hname, hab⟩
    rw [NodeRecord.rename, hf _ _ hname, hspan _ _ hab]
  have hlive : m.live.map (·.rename f) = m'.live := by
    rw [← List.forall₂_eq_eq_eq, List.forall₂_map_left_iff]
    refine h.edges.imp ?_
    rintro ⟨_, _, _, _, _, _⟩ ⟨_, _, _, _, _, _⟩ ⟨rfl, rfl, rfl, rfl, hlabel, hab⟩
    rw [Edge.rename, hf _ _ hlabel, hspan _ _ hab]
  have hledger : m' = m.rename f := by rw [Ledger.rename, hnodes, hlive]
  exact h.left.dense.eq_rename (hledger ▸ h.right.dense)

end Comparison

end LabelGraph
