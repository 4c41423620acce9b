import LabelGraph.Proofs.Parse.Order
import LabelGraph.Proofs.Parse.Origin
import LabelGraph.Proofs.Parse.Outcome

/-!
What becomes of a reference. A parse that reads its whole text links a reference to the
one node of its name, wherever in the text that node is declared, and reports it if there
is none. Nothing else leaves an edge at its place, and the other edges are those of
blocks.
-/

namespace LabelGraph

namespace Parse

variable {p q : Parse} {m m' : Ledger} {here : Position → Prop} {span : Span}

/-! What can be read of a parse. -/

def Names (p : Parse) (n : NodeId) (word : String) : Prop :=
  ∃ node, p.graph.node n = .ok node ∧ p.symbols.resolve node.name = .ok word

def arrowsAt (p : Parse) (span : Span) : List Arrow :=
  (p.graph.edges.map Edge.arrow).filter (·.span = span)

def reportsAt (p : Parse) (code : String) (span : Span) : List Diagnostic :=
  p.diagnostics.toList.filter fun d => d.code = code ∧ d.span = span

theorem Sound.names_iff (hp : p.Sound m) {s : Symbol} {word : String} {n : NodeId}
    (hs : p.symbols.Spells s word) : p.Names n word ↔ p.labels[s]? = some n := by
  have hgraph := hp.dense.shape
  constructor
  · rintro ⟨node, hnode, hword⟩
    have hrecord := hgraph.node n.index
    cases hr : m.nodes[n.index]? with
    | none =>
      rw [hr, Option.map_none] at hrecord
      simp [Graph.node, hrecord] at hnode
    | some r =>
      rw [hgraph.node_eq hr] at hnode
      cases hnode
      have hname := hp.symbols.inj (SymbolTable.resolve_eq_ok.1 hword) hs
      exact (hp.labels s n).2 ⟨r, List.mem_of_getElem? hr, hname, hgraph.nodeId _ _ hr⟩
  · intro hlabel
    obtain ⟨r, hr, rfl, rfl⟩ := (hp.labels s n).1 hlabel
    obtain ⟨i, hr⟩ := List.mem_iff_getElem?.1 hr
    rw [hgraph.nodeId i r hr]
    exact ⟨_, hgraph.node_eq hr, SymbolTable.resolve_eq_ok.2 hs⟩

/-! What stands at a place. -/

def liveAt (m : Ledger) (span : Span) : List Arrow := (m.live.map Edge.arrow).filter (·.span = span)

def pendingAt (p : Parse) (span : Span) : List Reference :=
  p.pending.toList.filter (·.span = span)

theorem Sound.arrowsAt_perm (hp : p.Sound m) (span : Span) :
    (p.arrowsAt span).Perm (liveAt m span) := by
  have hgraph := hp.dense.shape
  exact (hgraph.agrees.edges.1.map Edge.arrow).filter _

theorem filter_elsewhere {α : Type} (place : α → Span) {l : List α} {f : α → Bool}
    (hl : ∀ x ∈ l, here (place x).start) (hspan : ¬ here span.start)
    (hf : ∀ x, f x → place x = span) : l.filter f = [] := by
  rw [List.filter_eq_nil_iff]
  intro x hx hfx
  apply hspan
  rw [← hf x hfx]
  exact hl x hx

/-- What is added elsewhere changes nothing at a place. -/
theorem Grows.at_eq (h : Grows here p m q m') (hspan : ¬ here span.start) :
    liveAt m' span = liveAt m span ∧ q.pendingAt span = p.pendingAt span ∧
      ∀ code, q.reportsAt code span = p.reportsAt code span := by
  obtain ⟨edges, hlive, hedges⟩ := h.live
  obtain ⟨refs, hpending, hrefs⟩ := h.pending
  obtain ⟨reports, hdiagnostics, hreports⟩ := h.diagnostics
  refine ⟨?_, ?_, ?_⟩
  · have harrows : ∀ a ∈ edges.map Edge.arrow, here a.span.start := by
      intro a ha
      obtain ⟨e, he, rfl⟩ := List.mem_map.1 ha
      exact hedges e he
    rw [liveAt, hlive, List.map_append, List.filter_append,
      filter_elsewhere Arrow.span harrows hspan (by simp), List.append_nil, liveAt]
  · rw [pendingAt, hpending, List.filter_append,
      filter_elsewhere Reference.span hrefs hspan (by simp), List.append_nil, pendingAt]
  · intro code
    rw [reportsAt, hdiagnostics, List.filter_append,
      filter_elsewhere Diagnostic.span hreports hspan (by simp), List.append_nil, reportsAt]

/-- Resolving the references links or reports each at its own place. -/
theorem resolvePending_at (hp : p.Sound m) (h : resolvePending p = .ok () q) :
    ∃ m', q.Sound m' ∧ m'.nodes = m.nodes ∧ q.labels = p.labels ∧ q.symbols = p.symbols ∧
      (∀ span, liveAt m' span = liveAt m span ++ (p.pendingAt span).filterMap p.arrow?) ∧
      (∀ span, q.reportsAt Code.unresolved span = p.reportsAt Code.unresolved span ++
        ((p.pendingAt span).filter fun r => p.labels[r.name]?.isNone).map p.undefinedLabel) ∧
      ∀ code span, code ≠ Code.unresolved → q.reportsAt code span = p.reportsAt code span := by
  obtain ⟨m', graph, diagnostics, rfl, hq, hnodes, hlive, hdiagnostics⟩ := resolvePending_ok hp h
  refine ⟨m', hq, hnodes, rfl, rfl, ?_, ?_, ?_⟩
  · intro span
    rw [liveAt, hlive, List.filter_append, List.filter_filterMap, pendingAt, List.filterMap_filter]
    apply congrArg (liveAt m span ++ ·)
    apply List.filterMap_congr
    intro r _
    rw [arrow?]
    cases p.labels[r.name]? <;> simp [Option.filter]
  · intro span
    rw [reportsAt, hdiagnostics, List.filter_append, List.filter_map, pendingAt,
      List.filter_filter, List.filter_filter]
    refine congrArg (p.reportsAt Code.unresolved span ++ ·) (congrArg _ (List.filter_congr ?_))
    intro r _
    by_cases hr : r.span = span <;> simp [undefinedLabel, hr]
  · intro code span hcode
    have hnone : (((p.pending.toList.filter fun r => p.labels[r.name]?.isNone).map
        p.undefinedLabel).filter fun d => d.code = code ∧ d.span = span) = [] := by
      rw [List.filter_eq_nil_iff]
      intro d hd
      obtain ⟨r, -, rfl⟩ := List.mem_map.1 hd
      simp [undefinedLabel, Ne.symm hcode]
    rw [reportsAt, hdiagnostics, List.filter_append, hnone, List.append_nil, reportsAt]

def Blank (p : Parse) (m : Ledger) (span : Span) : Prop :=
  liveAt m span = [] ∧ p.pendingAt span = [] ∧ ∀ code, p.reportsAt code span = []

/-! The references of a text. -/

/-- The text refers to a name in a direction, and the parse is in this state then. -/
def Reads (source : List UInt8) (settings : Settings) (p : Parse) (name : Token) (d : Direction) :
    Prop :=
  Refers (script .item (tokenize source)).1 (ofSource source settings).started p name d

section References

variable {source : List UInt8} {settings : Settings} {played resolved : Parse} {name : Token}
  {d : Direction}

/-- In a text that is read to its end, every reference is reached. -/
theorem Finishes.reads (hfinishes : Finishes source settings played resolved)
    (h : .perform (.refer name d) ∈ (script .item (tokenize source)).1) :
    ∃ p, Reads source settings p name d := by
  obtain ⟨before, after, hscript⟩ := List.append_of_mem h
  have hplay := hfinishes.1.play
  rw [hscript, playAll_append] at hplay
  obtain ⟨_, p, hbefore, -⟩ := bind_ok_iff.1 hplay
  exact ⟨p, before, after, hscript, hbefore⟩

/-- The state in which a reference is made, what it does, and what stands at its place when
all is played. -/
theorem Reads.split (h : Reads source settings p name d)
    (hfinishes : Finishes source settings played resolved) :
    ∃ q m m' m'', p.Sound m ∧ Effect p m (.refer name d) q m' ∧ q.Sound m' ∧ played.Sound m'' ∧
      Blank p m name.span ∧ Grows (· ≠ name.span.start) q m' played m'' ∧
      played.settings = settings := by
  obtain ⟨before, after, hscript, hbefore⟩ := h
  obtain ⟨hfirst, hsecond⟩ := reference_apart hscript
  have hstart := started_sound source settings
  have hplay := hfinishes.1.play
  rw [hscript, playAll_append] at hplay
  obtain ⟨_, p', hbefore', hplay⟩ := bind_ok_iff.1 hplay
  rw [hbefore] at hbefore'
  cases hbefore'
  obtain ⟨_, q, hrefer, hafter⟩ := bind_ok_iff.1 hplay
  obtain ⟨m, hp, hcourse⟩ := playAll_ok hstart hbefore
  obtain ⟨m', heffect, hq⟩ := act_ok hp (a := .refer name d) hrefer
  obtain ⟨m'', hplayed, hmore⟩ := playAll_ok hq hafter
  have hgrows := hcourse.grows hstart
  have hmoreGrows := hmore.grows hq
  have hsame := hgrows.at_eq hfirst
  obtain ⟨symbols, seedError, hsource, -⟩ := ofSource_eq source settings
  have hempty : Blank (ofSource source settings).started {} name.span := by
    rw [hsource]
    exact ⟨rfl, rfl, fun _ => rfl⟩
  refine ⟨q, m, m', m'', hp, heffect, hq, hplayed, ?_, hmoreGrows.mono ?_, ?_⟩
  · exact ⟨hsame.1.trans hempty.1, hsame.2.1.trans hempty.2.1,
      fun code => (hsame.2.2 code).trans (hempty.2.2 code)⟩
  · intro pos hpos heq
    apply hsecond
    rw [← heq]
    exact hpos
  · rw [hmoreGrows.settings, (heffect.grows hp).settings, hgrows.settings, hsource]
    rfl

/-- What a reference leaves at its place, where nothing stood before. -/
theorem Effect.refer_at {name : Token} {d : Direction} (hp : p.Sound m)
    (h : Effect p m (.refer name d) q m') (hblank : Blank p m name.span) :
    (p.scope = none ∧ liveAt m' name.span = [] ∧ q.pendingAt name.span = [] ∧
        q.reportsAt Code.unexpected name.span = [outsideLabel name]) ∨
      ∃ scope s, p.scope = some scope ∧ q.symbols.Spells s name.text ∧
        q.reportsAt Code.unresolved name.span = [] ∧
        ((∃ target, q.labels[s]? = some target ∧
            liveAt m' name.span = [⟨scope, target, s, d, name.span⟩] ∧
            q.pendingAt name.span = []) ∨
          liveAt m' name.span = [] ∧ q.pendingAt name.span = [⟨scope, s, d, name.span⟩]) := by
  obtain ⟨hlive, hpending, hreports⟩ := hblank
  cases h with
  | outside hintern hscope =>
    refine .inl ⟨hscope, hlive, hpending, ?_⟩
    have hreport := hreports Code.unexpected
    rw [reportsAt] at hreport ⊢
    rw [Array.toList_push, List.filter_append, hreport, List.nil_append]
    simp [outsideLabel]
  | @linked _ _ s t g scope target hintern hscope htarget =>
    have hword := (SymbolTable.intern_ok hp.symbols hintern).2.1
    refine .inr ⟨scope, s, hscope, hword, hreports _, .inl ⟨target, htarget, ?_, hpending⟩⟩
    rw [liveAt] at hlive ⊢
    rw [Ledger.live_addEdge, List.map_append, List.filter_append, hlive, List.nil_append]
    simp [Edge.arrow]
  | @queued _ _ s t scope hintern hscope hnone =>
    have hword := (SymbolTable.intern_ok hp.symbols hintern).2.1
    refine .inr ⟨scope, s, hscope, hword, hreports _, .inr ⟨hlive, ?_⟩⟩
    rw [pendingAt] at hpending ⊢
    rw [Array.toList_push, List.filter_append, hpending, List.nil_append]
    simp

/-- A label that is declared stays declared. -/
theorem Grows.label (h : Grows here p m q m') (hp : p.Sound m) (hq : q.Sound m') {s : Symbol}
    {n : NodeId} (hn : p.labels[s]? = some n) : q.labels[s]? = some n := by
  obtain ⟨r, hr, hname, hid⟩ := (hp.labels s n).1 hn
  exact (hq.labels s n).2 ⟨r, h.nodes.subset hr, hname, hid⟩

/-- A reference in the scope of a label is linked to the node of its name, or reported. -/
def Linked (q : Parse) (m : Ledger) (severity : Severity) (scope : NodeId) (s : Symbol)
    (d : Direction) (span : Span) : Prop :=
  (∃ target, q.labels[s]? = some target ∧ liveAt m span = [⟨scope, target, s, d, span⟩] ∧
      q.reportsAt Code.unresolved span = []) ∨
    q.labels[s]? = none ∧ liveAt m span = [] ∧
      ∃ report, q.reportsAt Code.unresolved span = [report] ∧ report.severity = severity

theorem Reads.outcome (h : Reads source settings p name d)
    (hfinishes : Finishes source settings played resolved) :
    ∃ m, resolved.Sound m ∧
      ((p.scope = none ∧ liveAt m name.span = [] ∧
          (resolved.reportsAt Code.unexpected name.span).length = 1) ∨
        ∃ scope s, p.scope = some scope ∧ resolved.symbols.Spells s name.text ∧
          resolved.Linked m settings.unresolvedSeverity scope s d name.span) := by
  obtain ⟨q, m, m₁, m₂, hp, heffect, hq, hplayed, hblank, hgrows, hsettings⟩ :=
    h.split hfinishes
  obtain ⟨m', hresolved, hnodes, hlabels, hsymbols, hliveAt, hunresolved, hother⟩ :=
    resolvePending_at hplayed hfinishes.1.resolve
  have hspan : ¬ (name.span.start ≠ name.span.start) := by
    intro h
    exact h rfl
  obtain ⟨hlive, hpending, hreports⟩ := hgrows.at_eq hspan
  have hlast := hliveAt name.span
  have hreportsLast := hunresolved name.span
  rw [hlive, hpending] at hlast
  rw [hreports, hpending] at hreportsLast
  refine ⟨m', hresolved, ?_⟩
  rcases heffect.refer_at hp hblank with ⟨hscope, hlive₁, hpending₁, hreport₁⟩ |
    ⟨scope, s, hscope, hword, hreport₁, hcases⟩
  · refine .inl ⟨hscope, ?_, ?_⟩
    · rw [hlast, hlive₁, hpending₁]
      rfl
    · rw [hother _ _ (by decide), hreports, hreport₁]
      rfl
  · refine .inr ⟨scope, s, hscope, ?_, ?_⟩
    · rw [hsymbols]
      exact hgrows.symbols s _ hword
    rw [Linked, hlabels, hlast, hreportsLast, hreport₁]
    rcases hcases with ⟨target, htarget, hlive₁, hpending₁⟩ | ⟨hlive₁, hpending₁⟩
    · refine .inl ⟨target, hgrows.label hq hplayed htarget, ?_, ?_⟩
      · rw [hlive₁, hpending₁]
        rfl
      · rw [hpending₁]
        rfl
    · rw [hlive₁, hpending₁]
      cases htarget : played.labels[s]? with
      | some target =>
        refine .inl ⟨target, rfl, ?_, ?_⟩
        · simp [arrow?, htarget]
        · simp [htarget]
      | none =>
        refine .inr ⟨rfl, ?_, played.undefinedLabel ⟨scope, s, d, name.span⟩, ?_, ?_⟩
        · simp [arrow?, htarget]
        · simp [htarget]
        · rw [← hsettings]
          rfl

end References

/-! The end of the text. -/

/-- What has come of a reference in the end. -/
structure Settles (severity : Severity) (p : Parse) (name : Token) (d : Direction) (q : Parse) :
    Prop where
  /-- Outside of any label it is reported as such. -/
  outside : p.scope = none →
    q.arrowsAt name.span = [] ∧ (q.reportsAt Code.unexpected name.span).length = 1
  /-- If a node has the name, it is the only one, and the reference is linked to it. -/
  linked : ∀ scope target, p.scope = some scope → q.Names target name.text →
    (∀ n, q.Names n name.text → n = target) ∧
      (∃ label, q.symbols.resolve label = .ok name.text ∧
        q.arrowsAt name.span = [⟨scope, target, label, d, name.span⟩]) ∧
      q.reportsAt Code.unresolved name.span = []
  /-- If no node has the name, this is reported. -/
  undefined : ∀ scope, p.scope = some scope → (∀ n, ¬ q.Names n name.text) →
    q.arrowsAt name.span = [] ∧
      ∃ report, q.reportsAt Code.unresolved name.span = [report] ∧ report.severity = severity

theorem Reads.settles {source : List UInt8} {settings : Settings} {played resolved : Parse}
    {name : Token} {d : Direction} (h : Reads source settings p name d)
    (hfinishes : Finishes source settings played resolved) :
    Settles settings.unresolvedSeverity p name d resolved := by
  obtain ⟨m, hresolved, hcases⟩ := h.outcome hfinishes
  have hperm := hresolved.arrowsAt_perm name.span
  constructor
  case outside =>
    intro hnone
    rcases hcases with ⟨-, hlive, hreport⟩ | ⟨scope, s, hscope, -⟩
    · rw [hlive] at hperm
      exact ⟨hperm.eq_nil, hreport⟩
    · rw [hnone] at hscope
      cases hscope
  case linked =>
    intro scope target hscope hnames
    rcases hcases with ⟨hnone, -⟩ | ⟨scope', s, hscope', hword, hlinked⟩
    · rw [hnone] at hscope
      cases hscope
    rw [hscope] at hscope'
    cases hscope'
    have htarget := (hresolved.names_iff hword).1 hnames
    rcases hlinked with ⟨target', htarget', hlive, hreport⟩ | ⟨hnone, -⟩
    · rw [htarget] at htarget'
      cases htarget'
      rw [hlive] at hperm
      refine ⟨?_, ⟨s, SymbolTable.resolve_eq_ok.2 hword, hperm.eq_singleton⟩, hreport⟩
      intro n hn
      have hlabel := (hresolved.names_iff hword).1 hn
      rw [htarget] at hlabel
      exact (Option.some.inj hlabel).symm
    · rw [htarget] at hnone
      cases hnone
  case undefined =>
    intro scope hscope hnone
    rcases hcases with ⟨hscope', -⟩ | ⟨scope', s, hscope', hword, hlinked⟩
    · rw [hscope'] at hscope
      cases hscope
    rcases hlinked with ⟨target, htarget, -⟩ | ⟨-, hlive, hreport⟩
    · exact absurd ((hresolved.names_iff hword).2 htarget) (hnone target)
    · rw [hlive] at hperm
      exact ⟨hperm.eq_nil, hreport⟩

/-- The end of the parse changes nothing of what came of a reference. -/
theorem Settles.of_same {severity : Severity} {name : Token} {d : Direction} {r : Parse}
    (h : Settles severity p name d q) (hgraph : r.graph = q.graph)
    (hsymbols : r.symbols = q.symbols)
    (hreports : ∀ code, code ≠ Code.unclosed →
      r.reportsAt code name.span = q.reportsAt code name.span) : Settles severity p name d r := by
  have harrows : r.arrowsAt name.span = q.arrowsAt name.span := by
    rw [arrowsAt, hgraph, arrowsAt]
  have hnames : ∀ n, r.Names n name.text ↔ q.Names n name.text := by
    intro n
    rw [Names, hgraph, hsymbols, Names]
  have hunexpected := hreports Code.unexpected (by decide)
  have hunresolved := hreports Code.unresolved (by decide)
  obtain ⟨houtside, hlinked, hundefined⟩ := h
  constructor <;> simp only [harrows, hnames, hunexpected, hunresolved, hsymbols] <;> assumption

end Parse

/-- One pass over the text, with the references to labels not yet declared put off to its
end, links every reference as if all labels were known before. -/
theorem parse_settles (source : List UInt8) (settings : Settings)
    (hend : (parse source settings).phase = .succeeded ∨
      (parse source settings).FailedWith Code.unclosed) :
    (∀ name d, .perform (.refer name d) ∈ (script .item (tokenize source)).1 →
      ∃ p, Parse.Reads source settings p name d) ∧
    (∀ p name d, Parse.Reads source settings p name d →
      Parse.Settles settings.unresolvedSeverity p name d (parse source settings)) ∧
    ∀ e ∈ (parse source settings).graph.edges,
      (parse source settings).symbols.resolve e.label = .ok Keywords.containsLabel ∨
        ∃ p name, Parse.Reads source settings p name e.direction ∧ p.scope = some e.source ∧
          name.span = e.span := by
  obtain ⟨played, resolved, hfinishes⟩ := Parse.finishes_of_ended hend
  obtain ⟨m, hplayed, htraced⟩ :=
    Parse.playAll_traced (Parse.started_sound source settings) hfinishes.1.play
  have hsame : (parse source settings).graph = resolved.graph ∧
      (parse source settings).symbols = resolved.symbols ∧
      ∀ code span, code ≠ Code.unclosed →
        (parse source settings).reportsAt code span = resolved.reportsAt code span := by
    rcases hfinishes.2 with hparse | ⟨unclosed, hparse⟩
    · rw [hparse]
      exact ⟨rfl, rfl, fun _ _ _ => rfl⟩
    · rw [hparse]
      refine ⟨rfl, rfl, ?_⟩
      intro code span hcode
      simp [Parse.reportsAt, Parse.fail, Fatal.diagnostic, Ne.symm hcode]
  obtain ⟨hgraph, hsymbols, hreports⟩ := hsame
  refine ⟨fun name d => hfinishes.reads, ?_, ?_⟩
  · intro p name d hreads
    exact (hreads.settles hfinishes).of_same hgraph hsymbols
      fun code hcode => hreports code name.span hcode
  · intro e he
    obtain ⟨symbols, seedError, hsource, -⟩ := Parse.ofSource_eq source settings
    have hstart : (Parse.ofSource source settings).started.pending = #[] := by
      rw [hsource]
      rfl
    have hedges := Parse.resolvePending_traced hplayed hfinishes.1.resolve
      (fun e he => (htraced.live e he).resolve_left List.not_mem_nil)
      (fun r hr => (htraced.pending r hr).resolve_left (by simp [hstart]))
    rw [hgraph] at he
    rw [hsymbols]
    rcases hedges e he with hcontains | ⟨p, name, hrefers, hscope, hspan, -⟩
    · exact .inl (SymbolTable.resolve_eq_ok.2 hcontains)
    · exact .inr ⟨p, name, hrefers, hscope, hspan⟩

theorem parse_settles_forward :
    ((parse "a: mov b, [c]\nb: jmp a\n".toUTF8.toList { maxDiagnostics := none }).phase =
        .succeeded ∨
      (parse "a: mov b, [c]\nb: jmp a\n".toUTF8.toList { maxDiagnostics := none }).FailedWith
        Code.unclosed) ∧
    ∀ p name d, Parse.Reads "a: mov b, [c]\nb: jmp a\n".toUTF8.toList { maxDiagnostics := none }
      p name d → Parse.Settles .error p name d
        (parse "a: mov b, [c]\nb: jmp a\n".toUTF8.toList { maxDiagnostics := none }) := by
  have hroom : ¬ (parse "a: mov b, [c]\nb: jmp a\n".toUTF8.toList
      { maxDiagnostics := none }).FailedWith Code.capacity :=
    Parse.not_capacity_of_short (by decide +kernel)
  obtain ⟨played, resolved, hfinishes⟩ :=
    Parse.finishes_of_unlimited (by decide +kernel) rfl hroom
  exact ⟨hfinishes.ended, (parse_settles _ _ hfinishes.ended).2.1⟩

end LabelGraph
