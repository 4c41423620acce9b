import LabelGraph.Proofs.Parse.Action
import LabelGraph.Proofs.Parse.Play

/-!
Two parses side by side. Their symbols may have different handles, the places of their tokens
may be told differently, and what is reported may differ as the comparison allows. Whatever
they do, they do it together, and their graphs stay alike. Only where symbols have different
handles can one of them run out of symbols before the other.
-/

namespace LabelGraph

def SymbolTable.SameWord (t : SymbolTable) (s : Symbol) (u : SymbolTable) (r : Symbol) : Prop :=
  ∃ word, t.Spells s word ∧ u.Spells r word

def Fatal.outOfSymbols (span : Span) : Fatal :=
  .storage (.capacityExceeded .symbol indexCapacity) span

/-- Two parses under their settings, and what may be different between them. -/
structure Comparison where
  left : Settings
  right : Settings
  /-- Symbols have the same handles. -/
  exact : Prop
  token : Token → Token → Prop
  span : Span → Span → Prop
  reports : Array Diagnostic → Array Diagnostic → Prop

namespace Comparison

open Parse

section Relations

variable (C : Comparison) (t u : SymbolTable)

def Nodes (a b : NodeRecord) : Prop :=
  b.id = a.id ∧ b.kind = a.kind ∧ t.SameWord a.name u b.name ∧ C.span a.span b.span

def Edges (a b : Edge) : Prop :=
  b.handle = a.handle ∧ b.source = a.source ∧ b.target = a.target ∧ b.direction = a.direction ∧
    t.SameWord a.label u b.label ∧ C.span a.span b.span

def Blocks (a b : Block) : Prop := b.owner = a.owner ∧ C.span a.span b.span

def References (a b : Reference) : Prop :=
  b.scope = a.scope ∧ b.direction = a.direction ∧ t.SameWord a.name u b.name ∧ C.span a.span b.span

inductive Actions : Action → Action → Prop
  | intern {a b : Token} (h : C.token a b) : Actions (.intern a) (.intern b)
  | declareLabel {a b colon colon' : Token} (h : C.token a b) (hcolon : C.token colon colon') :
    Actions (.declareLabel a colon) (.declareLabel b colon')
  | declareExternal {a b : Token} (h : C.token a b) :
    Actions (.declareExternal a) (.declareExternal b)
  | refer {a b : Token} {d : Direction} (h : C.token a b) : Actions (.refer a d) (.refer b d)
  | openBlock {a b : Token} (h : C.token a b) : Actions (.openBlock a) (.openBlock b)
  | closeBlock {a b : Token} (h : C.token a b) : Actions (.closeBlock a) (.closeBlock b)
  | reject {a b : Token} {wanted : Wanted} (h : C.token a b) :
    Actions (.reject a wanted) (.reject b wanted)

inductive Diagnostics : Diagnostic → Diagnostic → Prop
  | duplicate {name : String} {first first' a b : Span} (hfirst : C.span first first')
    (h : C.span a b) : Diagnostics (duplicateName name first a) (duplicateName name first' b)
  | outside {a b : Token} (h : C.token a b) : Diagnostics (outsideLabel a) (outsideLabel b)
  | tooDeep {limit : UInt32} {a b : Token} (h : C.token a b) :
    Diagnostics (tooDeep limit a) (tooDeep limit b)
  | unmatched {a b : Token} (h : C.token a b) : Diagnostics (unmatchedBrace a) (unmatchedBrace b)
  | unexpected {a b : Token} {wanted : Wanted} (h : C.token a b) :
    Diagnostics (unexpected a wanted) (unexpected b wanted)
  | undefined {p q : Parse} {a b : Reference} (hp : p.settings = C.left) (hq : q.settings = C.right)
    (hname : q.symbols.spell b.name = p.symbols.spell a.name) (h : C.span a.span b.span) :
    Diagnostics (p.undefinedLabel a) (q.undefinedLabel b)

inductive Causes : Fatal → Fatal → Prop
  | corrupt {a b : Span} (h : C.span a b) : Causes (.corrupt a) (.corrupt b)
  | storage {e : StoreError} {a b : Span} (h : C.span a b) : Causes (.storage e a) (.storage e b)
  | unclosed {a b : Span} (h : C.span a b) : Causes (.unclosed a) (.unclosed b)
  | tooMany {a b : Span} (h : C.span a b) : Causes (.tooMany a) (.tooMany b)

def Unlimited : Prop := C.left.maxDiagnostics = none ∧ C.right.maxDiagnostics = none

/-- The comparison is kept up by everything that the two parses do together. -/
structure Lawful : Prop where
  text : ∀ a b, C.token a b → b.text = a.text
  place : ∀ a b, C.token a b → C.span a.span b.span
  join : ∀ a a' b b', C.span a a' → C.span b b' → C.span (a.join b) (a'.join b')
  push : ∀ ds es d e, C.reports ds es → C.Diagnostics d e → C.reports (ds.push d) (es.push e)
  limit : C.Unlimited ∨ C.right.maxDiagnostics = C.left.maxDiagnostics ∧
    ∀ ds es, C.reports ds es → es.size = ds.size
  depth : C.right.maxBlockDepth = C.left.maxBlockDepth ∨ C.Unlimited ∧
    ∀ ds es brace, C.reports ds es →
      C.reports (ds.push (tooDeep C.left.maxBlockDepth brace)) es ∧
        C.reports ds (es.push (tooDeep C.right.maxBlockDepth brace))
  fatal : ∀ ds es c d, C.reports ds es → C.Causes c d →
    C.reports (ds.push (c.diagnostic C.left.maxDiagnostics))
      (es.push (d.diagnostic C.right.maxDiagnostics))

end Relations

/-- Two states that hold the same but for what the comparison allows. -/
structure Alike (C : Comparison) (p : Parse) (m : Ledger) (q : Parse) (m' : Ledger) : Prop where
  left : p.Sound m
  right : q.Sound m'
  settings : p.settings = C.left ∧ q.settings = C.right
  symbols : C.exact → q.symbols = p.symbols
  nodes : List.Forall₂ (C.Nodes p.symbols q.symbols) m.nodes m'.nodes
  edges : List.Forall₂ (C.Edges p.symbols q.symbols) m.live m'.live
  scope : q.scope = p.scope
  blocks : List.Forall₂ C.Blocks p.blocks.toList q.blocks.toList
  pending : List.Forall₂ (C.References p.symbols q.symbols) p.pending.toList q.pending.toList
  reports : C.reports p.diagnostics q.diagnostics

/-- Both results are successes or both are failures, in states that are alike. If symbols have
different handles, one of them may instead come from a lack of symbols. -/
inductive Results (C : Comparison) {α β : Type}
    (Q : α → Parse → Ledger → β → Parse → Ledger → Prop) :
    EStateM.Result Fatal Parse α → EStateM.Result Fatal Parse β → Prop
  | ok {a : α} {b : β} {p q : Parse} {m m' : Ledger} (h : C.Alike p m q m') (hQ : Q a p m b q m') :
    Results C Q (.ok a p) (.ok b q)
  | error {c d : Fatal} {p q : Parse} {m m' : Ledger} (h : C.Alike p m q m')
    (hcause : C.Causes c d) : Results C Q (.error c p) (.error d q)
  | leftFull {span : Span} {p : Parse} {r : EStateM.Result Fatal Parse β} (hexact : ¬ C.exact) :
    Results C Q (.error (.outOfSymbols span) p) r
  | rightFull {span : Span} {q : Parse} {r : EStateM.Result Fatal Parse α} (hexact : ¬ C.exact) :
    Results C Q r (.error (.outOfSymbols span) q)

def Sync (C : Comparison) {α β : Type} (x : ParseM α) (y : ParseM β) (p q : Parse)
    (Q : α → Parse → Ledger → β → Parse → Ledger → Prop) : Prop :=
  C.Results Q (x p) (y q)

/-- The same, with nothing to be said about the results. -/
abbrev Together (C : Comparison) {α β : Type} (x : ParseM α) (y : ParseM β) (p q : Parse) : Prop :=
  C.Sync x y p q fun _ _ _ _ _ _ => True

namespace Sync

variable {C : Comparison} {α β γ δ : Type} {x : ParseM α} {y : ParseM β} {f : α → ParseM γ}
  {g : β → ParseM δ} {p q p' q' : Parse} {m m' : Ledger}
  {Q : α → Parse → Ledger → β → Parse → Ledger → Prop}
  {R : γ → Parse → Ledger → δ → Parse → Ledger → Prop}

theorem of_ok {a : α} {b : β} (hx : x p = .ok a p') (hy : y q = .ok b q') (h : C.Alike p' m q' m')
    (hQ : Q a p' m b q' m') : C.Sync x y p q Q := by
  rw [Sync, hx, hy]
  exact .ok h hQ

theorem of_error {c d : Fatal} (hx : x p = .error c p') (hy : y q = .error d q')
    (h : C.Alike p' m q' m') (hcause : C.Causes c d) : C.Sync x y p q Q := by
  rw [Sync, hx, hy]
  exact .error h hcause

theorem bind (h : C.Sync x y p q Q)
    (hf : ∀ a p' m b q' m', C.Alike p' m q' m' → Q a p' m b q' m' → C.Sync (f a) (g b) p' q' R) :
    C.Sync (x >>= f) (y >>= g) p q R := by
  rw [Sync] at h ⊢
  change C.Results R (EStateM.bind x f p) (EStateM.bind y g q)
  rw [EStateM.bind, EStateM.bind]
  generalize x p = r at h
  generalize y q = s at h
  cases h with
  | ok h hQ => exact hf _ _ _ _ _ _ h hQ
  | error h hcause => exact .error h hcause
  | leftFull hexact => exact .leftFull hexact
  | rightFull hexact => exact .rightFull hexact

theorem of_get {f : Parse → ParseM γ} {g : Parse → ParseM δ} (h : C.Sync (f p) (g q) p q R) :
    C.Sync (get >>= f) (get >>= g) p q R := h

theorem mono {Q' : α → Parse → Ledger → β → Parse → Ledger → Prop} (h : C.Sync x y p q Q)
    (hQ : ∀ a p' m b q' m', Q a p' m b q' m' → Q' a p' m b q' m') : C.Sync x y p q Q' := by
  rw [Sync] at h ⊢
  generalize x p = r at h ⊢
  generalize y q = s at h ⊢
  cases h with
  | ok h ha => exact .ok h (hQ _ _ _ _ _ _ ha)
  | error h hcause => exact .error h hcause
  | leftFull hexact => exact .leftFull hexact
  | rightFull hexact => exact .rightFull hexact

theorem together (h : C.Sync x y p q Q) : C.Together x y p q :=
  h.mono fun _ _ _ _ _ _ _ => trivial

end Sync

end Comparison

namespace SymbolTable

variable {t u t' u' : SymbolTable} {s r : Symbol}

theorem SameWord.mono (h : t.SameWord s u r) (ht : t.Extends t') (hu : u.Extends u') :
    t'.SameWord s u' r :=
  h.imp fun word h => ⟨ht s word h.1, hu r word h.2⟩

/-- Under one table the same word has one handle. -/
theorem SameWord.eq (h : t.SameWord s t r) (ht : t.Valid) : r = s := by
  obtain ⟨word, hs, hr⟩ := h
  exact ht.inj hr hs

theorem Spells.spell_eq {word : String} (h : t.Spells s word) : t.spell s = word := by
  rw [spell, resolve_eq_ok.2 h]

theorem SameWord.spell_eq (h : t.SameWord s u r) : u.spell r = t.spell s := by
  obtain ⟨word, hs, hr⟩ := h
  rw [hs.spell_eq, hr.spell_eq]

end SymbolTable

namespace Comparison

open Parse

theorem exists_right {α β : Type} {R : α → β → Prop} {l : List α} {l' : List β}
    (h : List.Forall₂ R l l') {a : α} (ha : a ∈ l) : ∃ b ∈ l', R a b := by
  induction h with
  | nil => cases ha
  | cons hab _ ih =>
    rcases List.mem_cons.1 ha with rfl | ha
    · exact ⟨_, List.mem_cons_self .., hab⟩
    · exact (ih ha).imp fun _ => And.imp_left (List.mem_cons_of_mem _)

/-- The last elements belong together. -/
theorem last_cases {α : Type} {R : α → α → Prop} {xs ys : Array α}
    (h : List.Forall₂ R xs.toList ys.toList) :
    (xs.back? = none ∧ ys.back? = none) ∨
      ∃ a b, xs.back? = some a ∧ ys.back? = some b ∧ R a b := by
  have hreverse := List.forall₂_reverse_iff.2 h
  rw [← Array.getLast?_toList, ← Array.getLast?_toList, ← List.head?_reverse, ← List.head?_reverse]
  generalize xs.toList.reverse = l at hreverse
  generalize ys.toList.reverse = l' at hreverse
  cases hreverse with
  | nil => exact .inl ⟨rfl, rfl⟩
  | cons hab _ => exact .inr ⟨_, _, rfl, rfl, hab⟩

section Alike

variable {C : Comparison} {p q : Parse} {m m' : Ledger} {s r : Symbol} {t u : SymbolTable}
  {a b : Span}

namespace Alike

/-- The same word is a label in both states or in none, and then of the same node. -/
theorem labels_eq (h : C.Alike p m q m') (hword : p.symbols.SameWord s q.symbols r) :
    q.labels[r]? = p.labels[s]? := by
  obtain ⟨word, hs, hr⟩ := hword
  apply Option.ext
  intro n
  rw [h.right.labels, h.left.labels]
  constructor
  · rintro ⟨b, hb, rfl, rfl⟩
    obtain ⟨a, ha, hid, -, ⟨word', hname, hname'⟩, -⟩ := exists_right h.nodes.flip hb
    obtain rfl : word' = word := Option.some.inj (hname'.symm.trans hr)
    exact ⟨a, ha, h.left.symbols.inj hname hs, hid.symm⟩
  · rintro ⟨a, ha, rfl, rfl⟩
    obtain ⟨b, hb, hid, -, ⟨word', hname, hname'⟩, -⟩ := exists_right h.nodes ha
    obtain rfl : word' = word := Option.some.inj (hname.symm.trans hs)
    exact ⟨b, hb, h.right.symbols.inj hname' hr, hid⟩

/-- The innermost blocks have the same owner. -/
theorem owner_eq (h : C.Alike p m q m') :
    q.blocks.back?.bind Block.owner = p.blocks.back?.bind Block.owner := by
  rcases last_cases h.blocks with ⟨hp, hq⟩ | ⟨a, b, hp, hq, hab⟩
  · rw [hp, hq]
  · rw [hp, hq]
    exact hab.1

/-! Changes of both states. -/

theorem with_place (h : C.Alike p m q m') (rest rest' : List Token) (previous previous' : Span)
    (phase phase' : Phase) :
    C.Alike { p with rest, previous, phase } m
      { q with rest := rest', previous := previous', phase := phase' } m' :=
  { h with
    left := h.left.with_place rest previous phase
    right := h.right.with_place rest' previous' phase' }

theorem with_diagnostics (h : C.Alike p m q m') {ds es : Array Diagnostic}
    (hreports : C.reports ds es) :
    C.Alike { p with diagnostics := ds } m { q with diagnostics := es } m' :=
  { h with
    left := h.left.with_diagnostics ds
    right := h.right.with_diagnostics es
    reports := hreports }

theorem with_symbols (h : C.Alike p m q m') {word : String}
    (ht : SymbolTable.intern word p.symbols = .ok s t)
    (hu : SymbolTable.intern word q.symbols = .ok r u) (hexact : C.exact → u = t) :
    C.Alike { p with symbols := t } m { q with symbols := u } m' := by
  have hleft := (SymbolTable.intern_ok h.left.symbols ht).2.2
  have hright := (SymbolTable.intern_ok h.right.symbols hu).2.2
  exact
    { h with
      left := h.left.with_symbols ht
      right := h.right.with_symbols hu
      symbols := hexact
      nodes := h.nodes.imp fun _ _ ⟨hid, hkind, hname, hspan⟩ =>
        ⟨hid, hkind, hname.mono hleft hright, hspan⟩
      edges := h.edges.imp fun _ _ ⟨hhandle, hsource, htarget, hdirection, hlabel, hspan⟩ =>
        ⟨hhandle, hsource, htarget, hdirection, hlabel.mono hleft hright, hspan⟩
      pending := h.pending.imp fun _ _ ⟨hscope, hdirection, hname, hspan⟩ =>
        ⟨hscope, hdirection, hname.mono hleft hright, hspan⟩ }

theorem with_scope (h : C.Alike p m q m') {n : NodeId} (hn : n.index < m.nodes.length)
    (hn' : n.index < m'.nodes.length) :
    C.Alike { p with scope := some n } m { q with scope := some n } m' :=
  { h with
    left := h.left.with_scope (by rintro _ ⟨⟩; exact hn)
    right := h.right.with_scope (by rintro _ ⟨⟩; exact hn')
    scope := rfl }

theorem with_node (h : C.Alike p m q m') {g g' : Graph} {labels labels' : Std.HashMap Symbol NodeId}
    {x y : NodeRecord} (hleft : Sound { p with graph := g, labels } (m.addNode x))
    (hright : Sound { q with graph := g', labels := labels' } (m'.addNode y))
    (hxy : C.Nodes p.symbols q.symbols x y) :
    C.Alike { p with graph := g, labels } (m.addNode x) { q with graph := g', labels := labels' }
      (m'.addNode y) :=
  { h with
    left := hleft
    right := hright
    nodes := List.rel_append h.nodes (.cons hxy .nil) }

theorem with_edge (h : C.Alike p m q m') {g g' : Graph} {x y : Edge}
    (hleft : Sound { p with graph := g } (m.addEdge x))
    (hright : Sound { q with graph := g' } (m'.addEdge y))
    (hxy : C.Edges p.symbols q.symbols x y) :
    C.Alike { p with graph := g } (m.addEdge x) { q with graph := g' } (m'.addEdge y) :=
  { h with
    left := hleft
    right := hright
    edges := List.rel_append h.edges (.cons hxy .nil) }

theorem with_pending (h : C.Alike p m q m') {x y : Reference}
    (hx : x.scope.index < m.nodes.length) (hy : y.scope.index < m'.nodes.length)
    (hxy : C.References p.symbols q.symbols x y) :
    C.Alike { p with pending := p.pending.push x } m { q with pending := q.pending.push y } m' := by
  have ⟨_, _, ⟨_, hname, hname'⟩, _⟩ := hxy
  exact
    { h with
      left := h.left.with_pending hx hname
      right := h.right.with_pending hy hname'
      pending := by
        rw [Array.toList_push, Array.toList_push]
        exact List.rel_append h.pending (.cons hxy .nil) }

theorem without_pending (h : C.Alike p m q m') :
    C.Alike { p with pending := #[] } m { q with pending := #[] } m' :=
  { h with
    left := h.left.without_pending
    right := h.right.without_pending
    pending := .nil }

theorem push_block (h : C.Alike p m q m') (hab : C.span a b) :
    C.Alike { p with blocks := p.blocks.push { owner := p.scope, span := a } } m
      { q with blocks := q.blocks.push { owner := q.scope, span := b } } m' :=
  { h with
    left := h.left.push_block a
    right := h.right.push_block b
    blocks := by
      rw [Array.toList_push, Array.toList_push]
      exact List.rel_append h.blocks (.cons ⟨h.scope, hab⟩ .nil) }

theorem pop_block (h : C.Alike p m q m') {x y : Block} (hx : p.blocks.back? = some x)
    (hy : q.blocks.back? = some y) (hxy : C.Blocks x y) :
    C.Alike { p with blocks := p.blocks.pop, scope := x.owner } m
      { q with blocks := q.blocks.pop, scope := y.owner } m' :=
  { h with
    left := h.left.pop_block hx
    right := h.right.pop_block hy
    scope := hxy.1
    blocks := by
      rw [Array.toList_pop, Array.toList_pop, List.dropLast_eq_take, List.dropLast_eq_take,
        h.blocks.length_eq]
      exact List.forall₂_take _ h.blocks }

end Alike

/-! The operations. What two runs share is a relation between both states, so it is followed through
both runs at once and does not come out of what one run does alone. -/

theorem report_unlimited (h : p.settings.maxDiagnostics = none) (d : Diagnostic) :
    report d p = .ok () { p with diagnostics := p.diagnostics.push d } := by
  simp only [report, h]

theorem openBlock_unlimited (h : p.settings.maxDiagnostics = none) (brace : Token) :
    ∃ ds, openBlock brace p = .ok ()
        { p with
          diagnostics := ds, blocks := p.blocks.push { owner := p.scope, span := brace.span } } ∧
      (ds = p.diagnostics ∨ ds = p.diagnostics.push (tooDeep p.settings.maxBlockDepth brace)) := by
  simp only [openBlock, bind_get]
  split
  · have hreport := report_unlimited h (tooDeep p.settings.maxBlockDepth brace)
    exact ⟨_, (bind_of_ok hreport).trans rfl, .inr rfl⟩
  · exact ⟨_, rfl, .inl rfl⟩

/-! Where all spans are the same. -/

section Exact

variable (hspan : ∀ a b, C.span a b → b = a)

include hspan

theorem Causes.eq {c d : Fatal} (h : C.Causes c d) : d = c := by
  cases h with
  | _ h => rw [hspan _ _ h]

/-- The same is reported, but for the severity of an undefined label. -/
theorem Diagnostics.eq_or_undefined (htoken : ∀ a b, C.token a b → b = a) {d e : Diagnostic}
    (h : C.Diagnostics d e) :
    e = d ∨ d.code = Code.unresolved ∧ d.severity = C.left.unresolvedSeverity ∧
      e = { d with severity := C.right.unresolvedSeverity } := by
  cases h with
  | duplicate hfirst h =>
    rw [hspan _ _ hfirst, hspan _ _ h]
    exact .inl rfl
  | undefined hp hq hname h =>
    refine .inr ⟨rfl, congrArg Settings.unresolvedSeverity hp, ?_⟩
    simp only [undefinedLabel, hname, hspan _ _ h, hq]
  | _ h =>
    rw [htoken _ _ h]
    exact .inl rfl

end Exact

section Storage

variable (h : C.Alike p m q m')

include h

theorem intern_sync (word : String) (hab : C.span a b) :
    C.Sync (intern word a) (intern word b) p q fun s p' m₁ r q' m₁' =>
      m₁ = m ∧ m₁' = m' ∧ p'.symbols.SameWord s q'.symbols r := by
  by_cases hexact : C.exact
  case pos =>
    have hsame := h.symbols hexact
    cases ht : SymbolTable.intern word p.symbols with
    | ok s t =>
      have hu : SymbolTable.intern word q.symbols = .ok s t := hsame ▸ ht
      have hword := (SymbolTable.intern_ok h.left.symbols ht).2.1
      exact .of_ok (intern_granted ht a) (intern_granted hu b)
        (h.with_symbols ht hu fun _ => rfl) ⟨rfl, rfl, word, hword, hword⟩
    | error e t =>
      have hu : SymbolTable.intern word q.symbols = .error e t := hsame ▸ ht
      exact .of_error (intern_refused ht a) (intern_refused hu b) h (.storage hab)
  case neg =>
    cases ht : SymbolTable.intern word p.symbols with
    | error e t =>
      rw [Sync, intern_refused ht a]
      exact .leftFull hexact
    | ok s t =>
      cases hu : SymbolTable.intern word q.symbols with
      | error e u =>
        rw [Sync, intern_refused hu b]
        exact .rightFull hexact
      | ok r u =>
        exact .of_ok (intern_granted ht a) (intern_granted hu b)
          (h.with_symbols ht hu fun hexact' => absurd hexact' hexact)
          ⟨rfl, rfl, word, (SymbolTable.intern_ok h.left.symbols ht).2.1,
            (SymbolTable.intern_ok h.right.symbols hu).2.1⟩

theorem declare_sync (hword : p.symbols.SameWord s q.symbols r) (hnew : p.labels[s]? = none)
    (hab : C.span a b) (kind : NodeKind) :
    C.Sync (declare s kind a) (declare r kind b) p q fun n _ m₁ n' _ m₁' =>
      n' = n ∧ n.index < m₁.nodes.length ∧ n.index < m₁'.nodes.length := by
  have hlength := h.nodes.length_eq
  have hnew' := (h.labels_eq hword).trans hnew
  have ⟨word, hs, hr⟩ := hword
  by_cases hroom : m.nodes.length < indexCapacity
  case neg =>
    have hfull := Nat.not_lt.1 hroom
    exact .of_error (h.left.declare_full hfull s kind a)
      (h.right.declare_full (hlength ▸ hfull) r kind b) h (.storage hab)
  obtain ⟨g, hrun, hnode⟩ := h.left.declare_ok hroom s kind a
  obtain ⟨g', hrun', hnode'⟩ := h.right.declare_ok (hlength ▸ hroom) r kind b
  have halike := h.with_node (h.left.with_node hs hnew hnode) (h.right.with_node hr hnew' hnode')
  refine .of_ok hrun hrun' (halike ⟨?_, rfl, hword, hab⟩) ⟨?_, ?_⟩
  · rw [hlength]
  · rw [hlength]
  · simp [hlength]

theorem link_sync {source target : NodeId} (hsource : source.index < m.nodes.length)
    (htarget : target.index < m.nodes.length) (hword : p.symbols.SameWord s q.symbols r)
    (d : Direction) (hab : C.span a b) :
    C.Sync (link source target s d a) (link source target r d b) p q fun _ p' m₁ _ q' m₁' =>
      m₁.nodes = m.nodes ∧ m₁'.nodes = m'.nodes ∧ p'.symbols = p.symbols ∧
        q'.symbols = q.symbols := by
  have hlength := h.nodes.length_eq
  have hedges := h.edges.length_eq
  by_cases hroom : m.live.length < indexCapacity
  case neg =>
    have hfull := Nat.not_lt.1 hroom
    exact .of_error (h.left.link_full hsource htarget hfull s d a)
      (h.right.link_full (hlength ▸ hsource) (hlength ▸ htarget) (hedges ▸ hfull) r d b) h
      (.storage hab)
  obtain ⟨g, hrun, hedge⟩ := h.left.link_ok hsource htarget hroom s d a
  obtain ⟨g', hrun', hedge'⟩ :=
    h.right.link_ok (hlength ▸ hsource) (hlength ▸ htarget) (hedges ▸ hroom) r d b
  have halike := h.with_edge (h.left.with_edge hedge) (h.right.with_edge hedge')
  refine .of_ok hrun hrun' (halike ⟨?_, rfl, rfl, rfl, hword, hab⟩) ⟨rfl, rfl, rfl, rfl⟩
  rw [hedges]

end Storage

section Actions

variable (hC : C.Lawful) (h : C.Alike p m q m')

include hC

theorem Diagnostics.span_eq {d e : Diagnostic} (h : C.Diagnostics d e) : C.span d.span e.span := by
  cases h with
  | duplicate _ h => exact h
  | undefined _ _ _ h => exact h
  | unexpected h =>
    rw [unexpected_span, unexpected_span]
    exact hC.place _ _ h
  | outside h => exact hC.place _ _ h
  | tooDeep h => exact hC.place _ _ h
  | unmatched h => exact hC.place _ _ h

include h

theorem report_sync {d e : Diagnostic} (hde : C.Diagnostics d e) :
    C.Sync (report d) (report e) p q fun _ p' m₁ _ q' m₁' =>
      m₁ = m ∧ m₁' = m' ∧ p'.symbols = p.symbols ∧ q'.symbols = q.symbols := by
  have hreports := hC.push _ _ _ _ h.reports hde
  have hpush := h.with_diagnostics hreports
  obtain ⟨hp, hq⟩ := h.settings
  by_cases hunlimited : C.Unlimited
  · exact .of_ok (report_unlimited (hp ▸ hunlimited.1) d) (report_unlimited (hq ▸ hunlimited.2) e)
      hpush ⟨rfl, rfl, rfl, rfl⟩
  · obtain ⟨hlimit, hsize⟩ := hC.limit.resolve_left hunlimited
    cases hleft : C.left.maxDiagnostics with
    | none => exact absurd ⟨hleft, hlimit.trans hleft⟩ hunlimited
    | some limit =>
      have hright := hlimit.trans hleft
      rw [← hp] at hleft
      rw [← hq] at hright
      by_cases hfull : limit.toNat ≤ (p.diagnostics.push d).size
      · refine .of_error (c := .tooMany d.span) (d := .tooMany e.span) ?_ ?_ hpush
          (.tooMany (Diagnostics.span_eq hC hde))
        · simp only [report, hleft, if_pos hfull]
        · simp only [report, hright, hsize _ _ hreports, if_pos hfull]
      · refine .of_ok (a := ()) (b := ()) ?_ ?_ hpush ⟨rfl, rfl, rfl, rfl⟩
        · simp only [report, hleft, if_neg hfull]
        · simp only [report, hright, hsize _ _ hreports, if_neg hfull]

/-- A name that is declared again is reported with the place of the same node. -/
theorem reportDuplicate_sync (name : String) {x y : NodeRecord} (hx : x ∈ m.nodes)
    (hy : y ∈ m'.nodes) (hxy : C.Nodes p.symbols q.symbols x y) (hab : C.span a b) :
    C.Sync (reportDuplicate name x.id a) (reportDuplicate name y.id b) p q
      fun _ p' m₁ _ q' m₁' =>
        m₁ = m ∧ m₁' = m' ∧ p'.symbols = p.symbols ∧ q'.symbols = q.symbols := by
  apply Sync.of_get
  rw [(h.left.node_of_mem hx).2, (h.right.node_of_mem hy).2]
  exact report_sync hC h (.duplicate hxy.2.2.2 hab)

theorem declareLabel_sync {x y colon colon' : Token} (hxy : C.token x y)
    (hcolon : C.token colon colon') :
    C.Together (declareLabel x colon) (declareLabel y colon') p q := by
  have hspan := hC.join _ _ _ _ (hC.place _ _ hxy) (hC.place _ _ hcolon)
  rw [declareLabel, declareLabel, hC.text _ _ hxy]
  refine (intern_sync h x.text (hC.place _ _ hxy)).bind ?_
  rintro s p₁ m₁ r q₁ m₁' h₁ ⟨rfl, rfl, hword⟩
  have hlabels := h₁.labels_eq hword
  apply Sync.of_get
  cases hlabel : p₁.labels[s]? with
  | some first =>
    simp only [hlabel, hlabels]
    obtain ⟨n, hn, -, rfl⟩ := (h₁.left.labels s first).1 hlabel
    obtain ⟨n', hn', hnode⟩ := exists_right h₁.nodes hn
    have hid : n'.id = n.id := hnode.1
    have hduplicate := reportDuplicate_sync hC h₁ x.text hn hn' hnode hspan
    rw [hid] at hduplicate
    refine hduplicate.bind ?_
    rintro _ p₂ m₂ _ q₂ m₂' h₂ ⟨rfl, rfl, -⟩
    obtain ⟨first, hfirst⟩ := (h₂.left.node_of_mem hn).1
    obtain ⟨first', hfirst'⟩ := (h₂.right.node_of_mem hn').1
    rw [hid, hnode.2.1] at hfirst'
    apply Sync.of_get
    simp only [hfirst, hfirst']
    split
    · have hlt' := h₂.right.index_lt hn'
      rw [hid] at hlt'
      exact .of_ok rfl rfl (h₂.with_scope (h₂.left.index_lt hn) hlt') trivial
    · exact .of_ok rfl rfl h₂ trivial
  | none =>
    simp only [hlabel, hlabels]
    refine (declare_sync h₁ hword hlabel hspan .label).bind ?_
    rintro n p₂ m₂ _ q₂ m₂' h₂ ⟨rfl, hn, hn'⟩
    apply Sync.of_get
    rw [h₂.owner_eq]
    cases howner : p₂.blocks.back?.bind Block.owner with
    | none => exact .of_ok rfl rfl (h₂.with_scope hn hn') trivial
    | some owner =>
      refine (intern_sync h₂ Keywords.containsLabel hspan).bind ?_
      rintro contains p₃ m₃ contains' q₃ m₃' h₃ ⟨rfl, rfl, hcontains⟩
      refine (link_sync h₃ (h₂.left.owner_lt howner) hn hcontains .outgoing hspan).bind ?_
      rintro _ p₄ m₄ _ q₄ m₄' h₄ ⟨hnodes, hnodes', -⟩
      exact .of_ok rfl rfl (h₄.with_scope (hnodes ▸ hn) (hnodes' ▸ hn')) trivial

theorem declareExternal_sync {x y : Token} (hxy : C.token x y) :
    C.Together (declareExternal x) (declareExternal y) p q := by
  rw [declareExternal, declareExternal, hC.text _ _ hxy]
  refine (intern_sync h x.text (hC.place _ _ hxy)).bind ?_
  rintro s p₁ m₁ r q₁ m₁' h₁ ⟨rfl, rfl, hword⟩
  have hlabels := h₁.labels_eq hword
  apply Sync.of_get
  cases hlabel : p₁.labels[s]? with
  | some first =>
    simp only [hlabel, hlabels]
    obtain ⟨n, hn, -, rfl⟩ := (h₁.left.labels s first).1 hlabel
    obtain ⟨n', hn', hnode⟩ := exists_right h₁.nodes hn
    have hduplicate := reportDuplicate_sync hC h₁ x.text hn hn' hnode (hC.place _ _ hxy)
    rw [hnode.1] at hduplicate
    exact hduplicate.together
  | none =>
    simp only [hlabel, hlabels]
    refine (declare_sync h₁ hword hlabel (hC.place _ _ hxy) .external).bind ?_
    intro n p₂ m₂ n' q₂ m₂' h₂ _
    exact .of_ok rfl rfl h₂ trivial

theorem refer_sync {x y : Token} (hxy : C.token x y) (d : Direction) :
    C.Together (refer x d) (refer y d) p q := by
  have hspan := hC.place _ _ hxy
  rw [refer, refer, hC.text _ _ hxy]
  refine (intern_sync h x.text hspan).bind ?_
  rintro s p₁ m₁ r q₁ m₁' h₁ ⟨rfl, rfl, hword⟩
  have hlabels := h₁.labels_eq hword
  have hlength := h₁.nodes.length_eq
  apply Sync.of_get
  rw [h₁.scope]
  cases hscope : p₁.scope with
  | none =>
    have hreport := report_sync hC h₁ (.outside hxy)
    simp only [outsideLabel, hC.text _ _ hxy] at hreport
    exact hreport.together
  | some scope =>
    have horigin := h₁.left.scope scope hscope
    apply Sync.of_get
    cases hlabel : p₁.labels[s]? with
    | some target =>
      simp only [hlabel, hlabels]
      exact (link_sync h₁ horigin (h₁.left.label_lt hlabel) hword d hspan).together
    | none =>
      simp only [hlabel, hlabels]
      exact .of_ok rfl rfl
        (h₁.with_pending horigin (hlength ▸ horigin) ⟨rfl, rfl, hword, hspan⟩) trivial

/-- One of the two blocks, or both, may be too deep. -/
theorem openBlock_sync {x y : Token} (hxy : C.token x y) :
    C.Together (openBlock x) (openBlock y) p q := by
  have hspan := hC.place _ _ hxy
  have hsize : q.blocks.size = p.blocks.size := h.blocks.length_eq.symm
  obtain ⟨hp, hq⟩ := h.settings
  rcases hC.depth with hlimit | ⟨⟨hleft, hright⟩, hdeep⟩
  · apply Sync.of_get
    apply Sync.of_get
    rw [hp, hq, hlimit, hsize]
    split
    · refine (report_sync hC h (.tooDeep hxy)).bind ?_
      rintro _ p₁ m₁ _ q₁ m₁' h₁ -
      exact .of_ok rfl rfl (h₁.push_block hspan) trivial
    · exact .of_ok rfl rfl (h.push_block hspan) trivial
  · obtain ⟨ds, hrun, hds⟩ := openBlock_unlimited (hp ▸ hleft) x
    obtain ⟨es, hrun', hes⟩ := openBlock_unlimited (hq ▸ hright) y
    rw [hp] at hds
    rw [hq] at hes
    have hreports : C.reports ds es := by
      have hfirst : C.reports ds q.diagnostics := by
        rcases hds with rfl | rfl
        · exact h.reports
        · exact (hdeep _ _ x h.reports).1
      rcases hes with rfl | rfl
      · exact hfirst
      · exact (hdeep _ _ y hfirst).2
    exact .of_ok hrun hrun' ((h.with_diagnostics hreports).push_block hspan) trivial

theorem closeBlock_sync {x y : Token} (hxy : C.token x y) :
    C.Together (closeBlock x) (closeBlock y) p q := by
  apply Sync.of_get
  rcases last_cases h.blocks with ⟨hp, hq⟩ | ⟨a, b, hp, hq, hab⟩
  · rw [hp, hq]
    exact (report_sync hC h (.unmatched hxy)).together
  · rw [hp, hq]
    exact .of_ok rfl rfl (h.pop_block hp hq hab) trivial

theorem act_sync {x y : Action} (hxy : C.Actions x y) : C.Together (act x) (act y) p q := by
  cases hxy with
  | @intern x y hxy =>
    rw [act, act, hC.text _ _ hxy]
    refine (intern_sync h x.text (hC.place _ _ hxy)).bind ?_
    intro s p₁ m₁ r q₁ m₁' h₁ _
    exact .of_ok rfl rfl h₁ trivial
  | declareLabel hxy hcolon => exact declareLabel_sync hC h hxy hcolon
  | declareExternal hxy => exact declareExternal_sync hC h hxy
  | refer hxy => exact refer_sync hC h hxy _
  | openBlock hxy => exact openBlock_sync hC h hxy
  | closeBlock hxy => exact closeBlock_sync hC h hxy
  | reject hxy => exact (report_sync hC h (.unexpected hxy)).together

end Actions

end Alike

end Comparison

end LabelGraph
