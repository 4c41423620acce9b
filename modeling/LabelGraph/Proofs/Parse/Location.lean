import LabelGraph.Proofs.Parse.Stage
import LabelGraph.Proofs.Token.Quote

/-!
Where the objects of a graph come from. Every name that an action is about stands in the text,
that of a label right in front of its colon. So the span of a node or an edge shows the word
that it was created for, at whatever time the object was created.
-/

namespace LabelGraph

/-! The script. -/

/-- The words of which the action makes something stand in the tokens, that of a label in front
of its colon. -/
def Action.Stands (tokens : List Token) : Action → Prop
  | .declareLabel name colon =>
    [name, colon] <:+: tokens ∧ name.kind = .identifier ∧ colon.kind = .colon
  | .declareExternal name =>
    name ∈ tokens ∧ (name.kind = .identifier ∨ name.kind = .directive)
  | .refer name _ => name ∈ tokens ∧ name.kind = .identifier
  | _ => True

theorem Action.Stands.mono {tokens more : List Token} {a : Action} (h : a.Stands tokens)
    (hsub : tokens <:+: more) : a.Stands more := by
  cases a with
  | declareLabel name colon => exact ⟨h.1.trans hsub, h.2⟩
  | declareExternal name => exact ⟨hsub.subset h.1, h.2⟩
  | refer name d => exact ⟨hsub.subset h.1, h.2⟩
  | _ => trivial

def Move.Stands (held : List Token) (t : Token) : Move → Prop
  | take before after next =>
    (∀ a ∈ before ++ after, a.Stands (held ++ [t])) ∧ ∀ word ∈ next.held, word.kind = .identifier
  | endLine before _ => ∀ a ∈ before, a.Stands (held ++ [t])
  | endText => True

namespace Move

variable {held : List Token} {t : Token}

theorem stands_afterAction {a : Action} {move : Move} (ha : a.Stands (held ++ [t]))
    (h : move.Stands held t) : (move.afterAction a).Stands held t := by
  cases move with
  | take before after next => exact ⟨List.forall_mem_cons.2 ⟨ha, h.1⟩, h.2⟩
  | endLine before taken => exact List.forall_mem_cons.2 ⟨ha, h⟩
  | endText => trivial

/-- A token that is taken with nothing but one action. -/
theorem stands_take {a : Action} {next : Place} (ha : a.Stands (held ++ [t]))
    (hnext : ∀ word ∈ next.held, word.kind = .identifier) : (take [] [a] next).Stands held t :=
  ⟨List.forall_mem_singleton.2 ha, hnext⟩

theorem stands_pass {next : Place} (hnext : next.held = []) : (take [] [] next).Stands held t :=
  ⟨List.forall_mem_nil _, by simp [hnext]⟩

theorem stands_passOver : (passOver t).Stands held t := by
  unfold passOver
  split
  all_goals
    first
    | exact List.forall_mem_nil _
    | exact stands_pass rfl

theorem stands_reject (wanted : Wanted) : (reject t wanted).Stands held t :=
  stands_afterAction trivial stands_passOver

theorem stands_finish : (finish t).Stands held t := by
  unfold finish
  split
  · exact stands_passOver
  · exact stands_reject _

theorem stands_operand : (operand t).Stands held t := by
  unfold operand
  split
  case h_1 ht => exact stands_take ⟨by simp, ht⟩ (by simp [Place.held])
  all_goals
    first
    | exact stands_reject _
    | exact stands_pass rfl

theorem stands_operands : (operands t).Stands held t := by
  unfold operands
  split
  · exact stands_passOver
  · exact stands_operand

end Move

theorem move_stands (place : Place) (t : Token) (h : ∀ word ∈ place.held, word.kind = .identifier) :
    (place.move t).Stands place.held t := by
  cases place with
  | item =>
    simp only [Place.move]
    split
    case h_1 => trivial
    case h_2 => exact List.forall_mem_nil _
    case h_5 ht => exact ⟨by simp, by simpa [Place.held] using ht⟩
    case h_6 => exact Move.stands_take trivial (by simp [held_afterDirective])
    all_goals
      first
      | exact Move.stands_reject _
      | exact Move.stands_take trivial (by simp [Place.held])
  | afterName word =>
    simp only [Place.move]
    split
    case h_1 ht =>
      have hword : word.kind = .identifier := h word (List.mem_singleton_self word)
      exact Move.stands_take ⟨List.infix_rfl, hword, ht⟩ (by simp [Place.held])
    case h_2 => exact Move.stands_afterAction trivial Move.stands_operands
  | operands => exact Move.stands_operands
  | operand => exact Move.stands_operand
  | recovery => exact Move.stands_passOver
  | base =>
    simp only [Place.move]
    split
    case h_1 ht => exact Move.stands_take ⟨by simp, ht⟩ (by simp [Place.held])
    all_goals
      first
      | exact Move.stands_reject _
      | exact Move.stands_pass rfl
  | name declares =>
    have hname (ht : t.kind = .identifier ∨ t.kind = .directive) :
        (if declares then .declareExternal t else .intern t : Action).Stands ([] ++ [t]) := by
      cases declares with
      | false => trivial
      | true => exact ⟨List.mem_singleton_self t, ht⟩
    simp only [Place.move]
    split
    case h_1 ht => exact Move.stands_take (hname (.inl ht)) (by simp [Place.held])
    case h_2 ht => exact Move.stands_take (hname (.inr ht)) (by simp [Place.held])
    case h_3 => exact Move.stands_reject _
  | _ =>
    simp only [Place.move]
    split
    all_goals
      first
      | exact Move.stands_reject _
      | exact Move.stands_finish
      | exact Move.stands_pass rfl

theorem script_stands {place : Place} {tokens : List Token} {a : Action}
    (hheld : ∀ word ∈ place.held, word.kind = .identifier)
    (h : .perform a ∈ (script place tokens).1) : a.Stands (place.held ++ tokens) := by
  have hhere (held : List Token) (t : Token) (rest : List Token) :
      held ++ [t] <:+: held ++ t :: rest := ⟨[], rest, by simp⟩
  have hrest (held tokens : List Token) : tokens <:+: held ++ tokens :=
    (List.suffix_append held tokens).isInfix
  induction place, tokens using script_induct with
  | nil place =>
    rw [script_nil] at h
    cases h
  | corrupt place t rest ht =>
    rw [script_corrupt ht] at h
    cases h
  | take place t rest before after next ht hmove ih =>
    have hstands := move_stands place t hheld
    have horder := move_orderly place t
    rw [hmove] at hstands horder
    rw [script_take ht hmove] at h
    have hcases : a ∈ before ++ after ∨ .perform a ∈ (script next rest).1 := by
      simpa [or_assoc] using h
    rcases hcases with ha | ha
    · exact (hstands.1 a ha).mono (hhere place.held t rest)
    · -- What the next place holds is the token that was taken, or nothing.
      refine (ih hstands.2 ha).mono ?_
      rcases List.sublist_singleton.1 horder.2.2.1 with hnext | hnext
      · rw [hnext]
        exact (hrest [t] rest).trans (hrest place.held (t :: rest))
      · rw [hnext]
        exact hrest place.held (t :: rest)
  | newline place t rest before ht hmove ih =>
    have hstands := move_stands place t hheld
    rw [hmove] at hstands
    rw [script_newline ht hmove] at h
    have hcases : a ∈ before ∨ .perform a ∈ (script .item rest).1 := by simpa using h
    rcases hcases with ha | ha
    · exact (hstands a ha).mono (hhere place.held t rest)
    · exact (ih (by simp [Place.held]) ha).mono
        ((hrest [t] rest).trans (hrest place.held (t :: rest)))
  | leave place t rest before ht hmove ih =>
    have hstands := move_stands place t hheld
    rw [hmove] at hstands
    rw [script_leave ht hmove] at h
    have hcases : a ∈ before ∨ .perform a ∈ (script .item (t :: rest)).1 := by simpa using h
    rcases hcases with ha | ha
    · exact (hstands a ha).mono (hhere place.held t rest)
    · exact (ih (by simp [Place.held]) ha).mono (hrest place.held (t :: rest))
  | endText place t rest ht hmove =>
    rw [script_endText ht hmove] at h
    cases h

theorem item_stands {tokens : List Token} {a : Action}
    (h : .perform a ∈ (script .item tokens).1) : a.Stands tokens :=
  script_stands (by simp [Place.held]) h

/-! The state. -/

/-- What the text shows where a node was created: its name, and blanks and a colon behind that
of a label. -/
def NodeKind.Shown (source : List UInt8) (span : Span) (word : String) : NodeKind → Prop
  | .external => span.Quotes source (Utf8.encode word.toList)
  | .label => ∃ blanks, (∀ b ∈ blanks, b ∈ [0x20, 0x09, 0x0C, 0x0D]) ∧
      span.Quotes source (Utf8.encode word.toList ++ blanks ++ [0x3A])

namespace Parse

def Mentioned (source : List UInt8) (label : Symbol) (span : Span) (t : SymbolTable) : Prop :=
  ∃ word, t.Spells label word ∧ word ≠ Keywords.containsLabel ∧
    span.Quotes source (Utf8.encode word.toList)

/-- Whatever was created is shown by the text at its span. The edge of a block has the span of
the node that it leads to. -/
structure Cited (source : List UInt8) (p : Parse) (m : Ledger) : Prop extends Sound p m where
  shown : ∀ r ∈ m.nodes, ∃ word, p.symbols.Spells r.name word ∧ r.kind.Shown source r.span word
  live : ∀ e ∈ m.live, Mentioned source e.label e.span p.symbols ∨
    p.symbols.Spells e.label Keywords.containsLabel ∧
      ∃ r ∈ m.nodes, r.id = e.target ∧ r.span = e.span
  waiting : ∀ r ∈ p.pending, Mentioned source r.name r.span p.symbols

section Cited

variable {source : List UInt8} {p : Parse} {m : Ledger} {s : Symbol} {t : SymbolTable}
  {word : String} {label : Symbol} {span : Span}

theorem Mentioned.mono (h : Mentioned source label span t) {u : SymbolTable}
    (hextends : t.Extends u) : Mentioned source label span u :=
  h.imp fun _ h => ⟨hextends _ _ h.1, h.2⟩

namespace Cited

theorem with_symbols (h : p.Cited source m)
    (hintern : SymbolTable.intern word p.symbols = .ok s t) :
    Cited source { p with symbols := t } m := by
  have hextends := (SymbolTable.intern_ok h.symbols hintern).2.2
  exact
    { h.toSound.with_symbols hintern with
      shown := fun r hr => (h.shown r hr).imp fun _ h => ⟨hextends _ _ h.1, h.2⟩
      live := fun e he => (h.live e he).imp (·.mono hextends) (.imp_left (hextends _ _))
      waiting := fun r hr => (h.waiting r hr).mono hextends }

/-- A change of what is no object of the graph and does not wait to become one. -/
theorem of_same (h : p.Cited source m) {q : Parse} (hq : q.Sound m)
    (hsymbols : q.symbols = p.symbols) (hpending : q.pending = p.pending) : q.Cited source m where
  toSound := hq
  shown := hsymbols ▸ h.shown
  live := hsymbols ▸ h.live
  waiting := hsymbols ▸ hpending ▸ h.waiting

theorem with_pending (h : p.Cited source m) {r : Reference}
    (hscope : r.scope.index < m.nodes.length)
    (hr : Mentioned source r.name r.span p.symbols) :
    Cited source { p with pending := p.pending.push r } m where
  toSound := hr.elim fun _ hword => h.toSound.with_pending hscope hword.1
  shown := h.shown
  live := h.live
  waiting := by
    intro r' hr'
    rcases Array.mem_push.1 hr' with hr' | rfl
    · exact h.waiting r' hr'
    · exact hr

theorem with_node (h : p.Cited source m) {g : Graph} {kind : NodeKind}
    (hword : p.symbols.Spells s word) (hnew : p.labels[s]? = none)
    (hgraph : g.Dense (m.addNode ⟨⟨m.nodes.length⟩, s, kind, span⟩))
    (hshown : kind.Shown source span word) :
    Cited source { p with graph := g, labels := p.labels.insert s ⟨m.nodes.length⟩ }
      (m.addNode ⟨⟨m.nodes.length⟩, s, kind, span⟩) where
  toSound := h.toSound.with_node hword hnew hgraph
  shown := by
    intro r' hr'
    rcases List.mem_append.1 hr' with hr' | hr'
    · exact h.shown r' hr'
    · rw [List.mem_singleton.1 hr']
      exact ⟨word, hword, hshown⟩
  live := by
    intro e he
    refine (h.live e he).imp_right fun ⟨hlabel, r, hr, htarget⟩ => ?_
    exact ⟨hlabel, r, List.mem_append_left _ hr, htarget⟩
  waiting := h.waiting

theorem with_edge (h : p.Cited source m) {g : Graph} {e : Edge} (hgraph : g.Dense (m.addEdge e))
    (he : Mentioned source e.label e.span p.symbols ∨
      p.symbols.Spells e.label Keywords.containsLabel ∧
        ∃ r ∈ m.nodes, r.id = e.target ∧ r.span = e.span) :
    Cited source { p with graph := g } (m.addEdge e) where
  toSound := h.toSound.with_edge hgraph
  shown := h.shown
  live := by
    intro e' he'
    rcases List.mem_append.1 he' with he' | he'
    · exact h.live e' he'
    · rw [List.mem_singleton.1 he']
      exact he
  waiting := h.waiting

end Cited

/-- An action that creates a node stands in the text where the text shows the node. -/
theorem Creates.shown {a : Action} {kind : NodeKind} (h : Creates a word kind span)
    (ha : a.Stands (tokenize source)) : kind.Shown source span word := by
  cases h with
  | label =>
    obtain ⟨htogether, hname, hcolon⟩ := ha
    exact Token.quotes_colon htogether hname hcolon
  | external =>
    obtain ⟨hmem, hkind⟩ := ha
    exact Token.quotes hmem (by rcases hkind with h | h <;> simp [h])

theorem cited_stable (source : List UInt8) :
    Stable (Action.Stands (tokenize source))
      (fun t nodes r => r.scope.index < nodes.length ∧ Mentioned source r.name r.span t)
      (Cited source) where
  sound h := h.toSound
  place rest previous phase h := h.of_same (h.toSound.with_place rest previous phase) rfl rfl
  symbols h hintern := h.with_symbols hintern
  diagnostics diagnostics h := h.of_same (h.toSound.with_diagnostics diagnostics) rfl rfl
  scope h hr _ := by
    refine h.of_same (h.toSound.with_scope ?_) rfl rfl
    rintro _ ⟨⟩
    exact h.index_lt hr
  push span h := h.of_same (h.toSound.push_block span) rfl rfl
  pop h hback := h.of_same (h.toSound.pop_block hback) rfl rfl
  node h ha hcreates hword hnew hgraph := h.with_node hword hnew hgraph (hcreates.shown ha)
  inside _ _ h hcontains hgraph :=
    h.with_edge hgraph (.inr ⟨hcontains, _, List.mem_append_right _ List.mem_cons_self, rfl, rfl⟩)
  made h ha hword hscope := by
    obtain ⟨hmem, hkind⟩ := ha
    exact ⟨h.scope _ hscope, _, hword, tokenize_plain hmem, Token.quotes hmem (by simp [hkind])⟩
  edge h hr _ hgraph := h.with_edge hgraph (.inl hr.2)
  wait h hr := h.with_pending hr.1 hr.2
  waiting h r hr := ⟨(h.pending r hr).1, h.waiting r hr⟩
  taken h := { h with toSound := h.toSound.without_pending, waiting := by simp }

end Cited

/-! The parse. -/

theorem started_cited {source : List UInt8} {settings : Settings} {table? : Option SymbolTable}
    (htable : ∀ t ∈ table?, t.Interned) :
    (opened source settings table?).started.Cited source {} where
  toSound := (started_formed htable).toSound
  shown := by simp
  live := by simp
  waiting := by
    obtain ⟨symbols, seedError, hopened⟩ := opened_eq source settings table?
    rw [hopened]
    simp [started, ofTable]

/-- What the graph of a parse tells about its objects is what the text shows at their spans. -/
structure Located (source : List UInt8) (p : Parse) : Prop where
  node : ∀ n node, p.graph.node n = .ok node → ∃ word span,
    p.symbols.resolve node.name = .ok word ∧ p.graph.nodeSpan n = .ok span ∧
      node.kind.Shown source span word
  edge : ∀ e ∈ p.graph.edges, ∃ word, p.symbols.resolve e.label = .ok word ∧
    (word ≠ Keywords.containsLabel → e.span.Quotes source (Utf8.encode word.toList)) ∧
    (word = Keywords.containsLabel → p.graph.nodeSpan e.target = .ok e.span)

theorem Cited.located {source : List UInt8} {p : Parse} {m : Ledger} (h : p.Cited source m) :
    p.Located source where
  node n node hn := by
    obtain ⟨r, hr, -, hname, hkind, hspan⟩ := h.dense.shape.mem_of_node hn
    obtain ⟨word, hword, hshown⟩ := h.shown r hr
    rw [hname] at hword
    rw [hkind] at hshown
    exact ⟨word, r.span, SymbolTable.resolve_eq_ok.2 hword, hspan, hshown⟩
  edge e he := by
    rw [h.dense.edges] at he
    rcases h.live e he with ⟨word, hword, hplain, hquotes⟩ | ⟨hword, r, hr, htarget, hspan⟩
    · exact ⟨word, SymbolTable.resolve_eq_ok.2 hword, fun _ => hquotes,
        fun hcontains => absurd hcontains hplain⟩
    · refine ⟨_, SymbolTable.resolve_eq_ok.2 hword, fun hplain => absurd rfl hplain, fun _ => ?_⟩
      rw [← htarget, ← hspan]
      exact (h.node_of_mem hr).2

end Parse

open Parse

/-- At every step of a parse, and at its end, however it ends, spans point at the text that
created their objects. The span of an external node covers its name, that of a label its name,
blanks and a colon, that of a reference the word of its label, and the edge of a block has the
span of its target. All ends of these spans are where they are reported. -/
theorem parse_located (source : List UInt8) (settings : Settings) (table? : Option SymbolTable)
    (htable : ∀ t ∈ table?, t.Interned) (k : Nat) :
    (Parse.step^[k] (opened source settings table?)).Located source := by
  obtain ⟨m, hp⟩ :=
    (cited_stable source).steps (fun _ => item_stands) (started_cited htable) k
  exact hp.located

/-- Behind a byte outside UTF-8 and a letter of two bytes, a reference to a label that is
declared later, over a table that holds the name of the label already. -/
theorem parse_located_forward :
    ∃ s t, SymbolTable.intern "b" .empty = .ok s t ∧ (∀ u ∈ some t, u.Interned) ∧
      ∀ k, (Parse.step^[k] (opened (0xFF :: "é\na: jmp b ; é\nb :\n".toUTF8.toList) {}
        (some t))).Located (0xFF :: "é\na: jmp b ; é\nb :\n".toUTF8.toList) := by
  cases hintern : SymbolTable.intern "b" .empty with
  | error e t => exact absurd (SymbolTable.intern_error hintern).2 (by decide)
  | ok s t =>
    have htable : ∀ u ∈ some t, u.Interned := by
      rintro _ ⟨⟩
      exact .intern .empty hintern
    exact ⟨s, t, rfl, htable, parse_located _ _ _ htable⟩

end LabelGraph
