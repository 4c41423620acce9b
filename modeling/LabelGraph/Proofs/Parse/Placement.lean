import LabelGraph.Proofs.Parse.Pairing
import LabelGraph.Proofs.Store.Keywords
import LabelGraph.Proofs.Token.Quote

/-!
A parse decides nothing by where a token stands. Two texts whose tokens agree in kind and text
have parses that end in the same phase, with the same symbols and with graphs that differ in
spans only, and both report the same, each at its own tokens.
-/

namespace LabelGraph

/-- Both spans start at the token of the same number, each in its own list. -/
def Span.Numbered (tokens tokens' : List Token) (a b : Span) : Prop :=
  ∃ (i : Nat) (t u : Token), tokens[i]? = some t ∧ tokens'[i]? = some u ∧
    a.start = t.span.start ∧ b.start = u.span.start

theorem Span.Numbered.join {source source' : List UInt8} {a a' b b' : Span}
    (ha : Numbered (tokenize source) (tokenize source') a a')
    (hb : Numbered (tokenize source) (tokenize source') b b') :
    Numbered (tokenize source) (tokenize source') (a.join b) (a'.join b') := by
  obtain ⟨i, t, t', ht, ht', hstart, hstart'⟩ := ha
  obtain ⟨j, u, u', hu, hu', hother, hother'⟩ := hb
  have hmin {source : List UInt8} {t u : Token} (ht : (tokenize source)[i]? = some t)
      (hu : (tokenize source)[j]? = some u) :
      t.span.start.min u.span.start = if i ≤ j then t.span.start else u.span.start := by
    have hwithin := (Token.within (List.mem_of_getElem? ht)).1
    have hmin := hwithin.min_eq (Token.within (List.mem_of_getElem? hu)).1
    rw [hmin]
    simp only [tokenize_start_le_iff ht hu]
  simp only [Numbered, Span.join, hstart, hother, hstart', hother', hmin ht hu, hmin ht' hu']
  by_cases hij : i ≤ j
  · simp only [if_pos hij]
    exact ⟨i, t, t', ht, ht', rfl, rfl⟩
  · simp only [if_neg hij]
    exact ⟨j, u, u', hu, hu', rfl, rfl⟩

/-- The same is reported, each time at the token of the same number. What was found may be told
by its bytes, and an earlier declaration by its place, so these may differ. -/
structure Diagnostic.Restates (tokens tokens' : List Token) (d e : Diagnostic) : Prop where
  severity : e.severity = d.severity
  code : e.code = d.code
  message : e.message = d.message
  expected : e.details.expected = d.details.expected
  span : d.span.Numbered tokens tokens' e.span

namespace Comparison

open Parse

/-- Two parses under the same settings, with tokens that agree in kind and text. -/
def overPlaces (source source' : List UInt8) (settings : Settings) : Comparison where
  left := settings
  right := settings
  exact := True
  token t u := u.reading = t.reading ∧
    t.span.Numbered (tokenize source) (tokenize source') u.span
  span := Span.Numbered (tokenize source) (tokenize source')
  reports ds es :=
    List.Forall₂ (Diagnostic.Restates (tokenize source) (tokenize source')) ds.toList es.toList

section OverPlaces

variable {source source' : List UInt8} {settings : Settings}

theorem Diagnostics.restates {d e : Diagnostic}
    (h : (overPlaces source source' settings).Diagnostics d e) :
    d.Restates (tokenize source) (tokenize source') e := by
  cases h with
  | duplicate _ h => exact ⟨rfl, rfl, rfl, rfl, h⟩
  | @outside a b h =>
    have htext : b.text = a.text := congrArg (·.2) h.1
    refine ⟨rfl, rfl, ?_, rfl, h.2⟩
    simp only [outsideLabel, htext]
  | tooDeep h => exact ⟨rfl, rfl, rfl, rfl, h.2⟩
  | unmatched h => exact ⟨rfl, rfl, rfl, rfl, h.2⟩
  | @unexpected a b wanted h =>
    have hkind : b.kind = a.kind := congrArg (·.1) h.1
    have hspan : (Parse.unexpected a wanted).span.Numbered (tokenize source) (tokenize source')
        (Parse.unexpected b wanted).span := by
      rw [unexpected_span, unexpected_span]
      exact h.2
    by_cases herror : a.kind = .error
    · simp only [Parse.unexpected, hkind, if_pos herror] at hspan ⊢
      exact ⟨rfl, rfl, rfl, rfl, hspan⟩
    · simp only [Parse.unexpected, hkind, if_neg herror] at hspan ⊢
      exact ⟨rfl, rfl, rfl, rfl, hspan⟩
  | undefined hp hq hname h =>
    refine ⟨?_, rfl, ?_, rfl, h⟩
    · simp only [undefinedLabel, hp, hq]
      rfl
    · simp only [undefinedLabel, hname]

theorem Causes.restates {c d : Fatal} (h : (overPlaces source source' settings).Causes c d) :
    (c.diagnostic settings.maxDiagnostics).Restates (tokenize source) (tokenize source')
      (d.diagnostic settings.maxDiagnostics) := by
  cases h with
  | @storage e a b h =>
    simp only [Fatal.diagnostic]
    split <;> exact ⟨rfl, rfl, rfl, rfl, h⟩
  | _ h => exact ⟨rfl, rfl, rfl, rfl, h⟩

theorem overPlaces_lawful : (overPlaces source source' settings).Lawful where
  text _ _ h := congrArg (·.2) h.1
  place _ _ h := h.2
  join _ _ _ _ := Span.Numbered.join
  push ds es d e hreports h := by
    change List.Forall₂ _ (ds.push d).toList (es.push e).toList
    rw [Array.toList_push, Array.toList_push]
    exact List.rel_append hreports (.cons h.restates .nil)
  limit := .inr ⟨rfl, fun _ _ hreports => hreports.length_eq.symm⟩
  depth := .inl rfl
  fatal ds es c d hreports h := by
    change List.Forall₂ _ (ds.push _).toList (es.push _).toList
    rw [Array.toList_push, Array.toList_push]
    exact List.rel_append hreports (.cons h.restates .nil)

/-- The tokens of the two texts belong together, number by number. -/
theorem overPlaces_tokens
    (h : (tokenize source').map Token.reading = (tokenize source).map Token.reading) :
    List.Forall₂
      (fun t u => (overPlaces source source' settings).token t u ∧ u.kind = t.kind)
      (tokenize source) (tokenize source') := by
  have hlength : (tokenize source).length = (tokenize source').length := by
    simpa using (congrArg List.length h).symm
  apply List.forall₂_iff_get.2
  refine ⟨hlength, fun i hi hi' => ?_⟩
  have hreading : (tokenize source')[i].reading = (tokenize source)[i].reading := by
    have hboth := congrArg (·[i]?) h
    simpa [List.getElem?_map, hi, hi'] using hboth
  have hnumbered : Span.Numbered (tokenize source) (tokenize source') (tokenize source)[i].span
      (tokenize source')[i].span :=
    ⟨i, _, _, List.getElem?_eq_getElem hi, List.getElem?_eq_getElem hi', rfl, rfl⟩
  exact ⟨⟨hreading, hnumbered⟩, congrArg (·.1) hreading⟩

end OverPlaces

end Comparison

/-- The two parses have ended in the same phase, with the same symbols, with graphs that differ
in spans only, and with the same reports at the tokens of the same numbers. -/
structure Parse.Restates (tokens tokens' : List Token) (p q : Parse) : Prop where
  phase : q.phase = p.phase
  symbols : q.symbols = p.symbols
  nodeCount : q.graph.nodeCount = p.graph.nodeCount
  node : ∀ n node, p.graph.node n = .ok node → ∃ node', q.graph.node n = .ok node' ∧
    node'.name = node.name ∧ node'.kind = node.kind
  edges : List.Forall₂ (fun e e' => e'.handle = e.handle ∧ e'.source = e.source ∧
    e'.target = e.target ∧ e'.label = e.label ∧ e'.direction = e.direction)
    p.graph.edges q.graph.edges
  diagnostics : List.Forall₂ (Diagnostic.Restates tokens tokens')
    p.diagnostics.toList q.diagnostics.toList

theorem Comparison.Ends.restates {source source' : List UInt8} {settings : Settings} {p q : Parse}
    (h : (overPlaces source source' settings).Ends p q) :
    p.Restates (tokenize source) (tokenize source') q := by
  obtain ⟨hphase, m, m', halike⟩ := h
  have hsymbols := halike.symbols trivial
  have hsame {s r : Symbol} (hword : p.symbols.SameWord s q.symbols r) : r = s := by
    rw [hsymbols] at hword
    exact hword.eq halike.left.symbols
  constructor
  case phase => exact hphase
  case symbols => exact hsymbols
  case nodeCount => exact halike.nodeCount_eq
  case node =>
    intro n node hnode
    obtain ⟨node', -, -, hnode', hkind, hword, -⟩ := halike.node_forall hnode
    exact ⟨node', hnode', hsame hword, hkind⟩
  case edges =>
    refine halike.edges_forall.imp ?_
    rintro e e' ⟨hhandle, hsource, htarget, hdirection, hword, -⟩
    exact ⟨hhandle, hsource, htarget, hsame hword, hdirection⟩
  case diagnostics => exact halike.reports

/-- Two texts with the same tokens but for their places have parses that do the same, if the
reserved words fit into a table. -/
theorem parse_placed (source source' : List UInt8) (settings : Settings)
    (hseed : ∃ t, SymbolTable.seeded settings.reserved = .ok t)
    (htokens : (tokenize source').map Token.reading = (tokenize source).map Token.reading) :
    (parse source settings).Restates (tokenize source) (tokenize source')
      (parse source' settings) := by
  obtain ⟨t, ht⟩ := hseed
  have hseeded (source : List UInt8) : (Parse.opened source settings none).seedError = none := by
    rw [Parse.opened, Parse.ofSource_of_seeded ht]
    rfl
  have hsymbols := congrArg Parse.symbols (Parse.opened_facing source source' settings none)
  have hstart : (Comparison.overPlaces source source' settings).Alike
      (Parse.opened source settings none).started {}
      (Parse.opened source' settings none).started {} :=
    Comparison.opened_alike source source' (by simp) (by simp)
      (fun _ => hsymbols) .nil
  obtain ⟨hevents, hstop⟩ := Comparison.equally_of_forall Comparison.overPlaces_lawful
    (Comparison.overPlaces_tokens htokens) .item .item (.same rfl)
  have hends := Comparison.ended_sync Comparison.overPlaces_lawful hstart hevents hstop
  rw [← Comparison.run_seeded (hseeded source), ← Comparison.run_seeded (hseeded source')] at hends
  exact (hends.resolve_right fun h => h.1 trivial).restates

/-- A reference, an undefined label, bytes outside UTF-8 and a brace too many, once packed and
once with blanks, a comment and other such bytes. -/
theorem parse_placed_packed :
    let source := "a:jmp b,a\n".toUTF8.toList ++ 0xFF :: "\n\x7d".toUTF8.toList
    let source' :=
      " a : jmp b , a ; c\n  ".toUTF8.toList ++ 0xC3 :: 0xFE :: " \n\x7d  ".toUTF8.toList
    (∃ t, SymbolTable.seeded ({} : Settings).reserved = .ok t) ∧
    (tokenize source').map Token.reading = (tokenize source).map Token.reading ∧
    (parse source {}).Restates (tokenize source) (tokenize source') (parse source' {}) := by
  intro source source'
  have hseed := SymbolTable.seeded_default
  have htokens : (tokenize source').map Token.reading = (tokenize source).map Token.reading := by
    decide +kernel
  exact ⟨hseed, htokens, parse_placed source source' {} hseed htokens⟩

end LabelGraph
