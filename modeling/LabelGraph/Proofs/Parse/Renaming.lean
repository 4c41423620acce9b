import LabelGraph.Parse.Report
import LabelGraph.Proofs.Graph.Rename
import LabelGraph.Proofs.Parse.Lockstep

/-!
The symbols that a parse starts with. They decide which handles the words of the text get, and
nothing else: two parses of a text over different tables build the same graph under the same
words, and report the same.
-/

namespace LabelGraph

def SymbolTable.handleIn (t u : SymbolTable) (s : Symbol) : Symbol := (u.get? (t.spell s)).getD s

theorem SymbolTable.SameWord.handleIn_eq {t u : SymbolTable} {s r : Symbol}
    (h : t.SameWord s u r) (hu : u.Valid) : t.handleIn u s = r := by
  obtain ⟨word, hs, hr⟩ := h
  rw [handleIn, hs.spell_eq, (hu word r).2 hr]
  rfl

namespace Parse

/-- The two parses agree in all but the handles of their symbols. -/
structure Renames (p q : Parse) : Prop where
  phase : q.phase = p.phase
  diagnostics : q.diagnostics = p.diagnostics
  nodeCount : q.graph.nodeCount = p.graph.nodeCount
  node : ∀ n node, p.graph.node n = .ok node → ∃ node' word, q.graph.node n = .ok node' ∧
    node'.kind = node.kind ∧ p.symbols.resolve node.name = .ok word ∧
      q.symbols.resolve node'.name = .ok word
  nodeSpan : ∀ n, q.graph.nodeSpan n = p.graph.nodeSpan n
  edges : List.Forall₂ (fun e e' => e'.handle = e.handle ∧ e'.source = e.source ∧
    e'.target = e.target ∧ e'.direction = e.direction ∧ e'.span = e.span ∧
      ∃ word, p.symbols.resolve e.label = .ok word ∧ q.symbols.resolve e'.label = .ok word)
    p.graph.edges q.graph.edges
  dump : q.graph.dump q.symbols = p.graph.dump p.symbols

end Parse

namespace Comparison

open Parse

def overTables (settings : Settings) (keywords : List String) : Comparison where
  left := settings
  right := { settings with keywords }
  exact := False
  token := Eq
  span := Eq
  reports := Eq

theorem overTables_lawful (settings : Settings) (keywords : List String) :
    (overTables settings keywords).Lawful where
  text := by rintro a b rfl; rfl
  place := by rintro a b rfl; rfl
  join := by rintro a _ b _ rfl rfl; rfl
  push := by
    rintro ds _ d e rfl hde
    rcases hde.eq_or_undefined (fun _ _ => Eq.symm) fun _ _ => Eq.symm with rfl | ⟨-, hleft, rfl⟩
    · rfl
    · exact congrArg (fun severity => ds.push { d with severity }) hleft
  limit := .inr ⟨rfl, by rintro ds _ rfl; rfl⟩
  depth := .inl rfl
  fatal := by
    rintro ds _ c d rfl hcause
    obtain rfl := hcause.eq fun _ _ => Eq.symm
    rfl

section Renames

variable {C : Comparison} {p q : Parse} {m m' : Ledger}

theorem Alike.translates (h : C.Alike p m q m') :
    Graph.Translates (p.symbols.handleIn q.symbols) p.symbols q.symbols p.graph where
  names n node hnode := by
    obtain ⟨node', _, _, -, -, hword, -⟩ := h.node_forall hnode
    rw [hword.handleIn_eq h.right.symbols]
    exact hword.spell_eq
  labels e he := by
    obtain ⟨e', -, -, -, -, -, hword, -⟩ := exists_right h.edges_forall he
    rw [hword.handleIn_eq h.right.symbols]
    exact hword.spell_eq

theorem Ends.renames (h : C.Ends p q) (hspan : ∀ a b, C.span a b → a = b)
    (hreports : ∀ ds es, C.reports ds es → es = ds) : p.Renames q := by
  obtain ⟨hphase, m, m', halike⟩ := h
  have hgraph := halike.graph_eq hspan fun _ _ hword => hword.handleIn_eq halike.right.symbols
  constructor
  case phase => exact hphase
  case diagnostics => exact hreports _ _ halike.reports
  case nodeCount => exact halike.nodeCount_eq
  case node =>
    intro n node hnode
    obtain ⟨node', _, _, hnode', hkind, ⟨word, hword, hword'⟩, -⟩ := halike.node_forall hnode
    exact ⟨node', word, hnode', hkind, SymbolTable.resolve_eq_ok.2 hword,
      SymbolTable.resolve_eq_ok.2 hword'⟩
  case nodeSpan =>
    intro n
    simp [hgraph]
  case edges =>
    refine halike.edges_forall.imp ?_
    rintro e e' ⟨hhandle, hsource, htarget, hdirection, ⟨word, hword, hword'⟩, hab⟩
    exact ⟨hhandle, hsource, htarget, hdirection, (hspan _ _ hab).symm, word,
      SymbolTable.resolve_eq_ok.2 hword, SymbolTable.resolve_eq_ok.2 hword'⟩
  case dump => rw [hgraph, halike.translates.dump_eq]

end Renames

end Comparison

open Parse

/-- The table that a parse starts from, and the reserved words, only decide on handles. Unless
one of them runs out of symbols, two parses of a text end in the same phase, report the same
and build the same graph over the same words. -/
theorem parse_renamed (source : List UInt8) (settings : Settings) (keywords : List String)
    (first second : Option SymbolTable) (hfirst : ∀ t ∈ first, t.Interned)
    (hsecond : ∀ t ∈ second, t.Interned)
    (hroom : ¬ (opened source settings first).run.OutOfSymbols)
    (hroom' : ¬ (opened source { settings with keywords } second).run.OutOfSymbols) :
    (opened source settings first).run.Renames
      (opened source { settings with keywords } second).run := by
  have hrun := Comparison.run_sync source source first second
    (Comparison.overTables_lawful settings keywords) hfirst hsecond (fun hexact => hexact.elim)
    rfl rfl (.refl (fun _ => rfl) _) (.refl (fun _ => rfl) _ _)
  rcases hrun with hends | ⟨-, hfull | hfull⟩
  · exact hends.renames (fun _ _ => id) fun _ _ => Eq.symm
  · exact absurd hfull hroom
  · exact absurd hfull hroom'

/-- A text of few tokens needs few symbols. -/
theorem not_outOfSymbols_of_short {source : List UInt8} {settings : Settings}
    (h : 22 + settings.keywords.length + 35 * (tokenize source).length ≤ indexCapacity) :
    ¬ (opened source settings none).run.OutOfSymbols :=
  fun hfull => not_capacity_of_short h hfull.1

/-- Words that are reserved for one of two parses and used as labels by both. -/
theorem parse_renamed_reserved :
    ¬ (opened "a: mov b\nb: jmp c\n".toUTF8.toList {} none).run.OutOfSymbols ∧
    ¬ (opened "a: mov b\nb: jmp c\n".toUTF8.toList { keywords := ["b", "c"] }
      none).run.OutOfSymbols ∧
    (opened "a: mov b\nb: jmp c\n".toUTF8.toList {} none).run.Renames
      (opened "a: mov b\nb: jmp c\n".toUTF8.toList { keywords := ["b", "c"] } none).run := by
  have hroom : ¬ (opened "a: mov b\nb: jmp c\n".toUTF8.toList {} none).run.OutOfSymbols :=
    not_outOfSymbols_of_short (by decide +kernel)
  have hroom' : ¬ (opened "a: mov b\nb: jmp c\n".toUTF8.toList { keywords := ["b", "c"] }
      none).run.OutOfSymbols :=
    not_outOfSymbols_of_short (by decide +kernel)
  exact ⟨hroom, hroom', parse_renamed _ _ _ _ _ (by simp) (by simp) hroom hroom'⟩

end LabelGraph
