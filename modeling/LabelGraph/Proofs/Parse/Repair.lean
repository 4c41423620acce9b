import LabelGraph.Proofs.Parse.Pairing
import LabelGraph.Proofs.Token.Comment

/-!
Stray bytes inside comments change what is reported, and nothing else. A run of them is
rejected wherever the line stands, and what is passed over up to the end of the line is nothing
but other such runs. So the actions of a text are those of the repaired text, and the graphs
differ in byte offsets only.
-/

namespace LabelGraph

/-! Lines and columns. -/

namespace Position

def cell (p : Position) : Nat × Nat := (p.line, p.column)

variable {p q p' q' : Position}

/-- Offsets only decide between positions of one line and column. -/
theorem isLE_compare (p q : Position) :
    (p.compare q).isLE = ((compare p.line q.line).then (compare p.column q.column)).isLE ∨
      p.cell = q.cell := by
  rw [Position.compare]
  cases horder : (compare p.line q.line).then (compare p.column q.column) with
  | lt => exact .inl rfl
  | gt => exact .inl rfl
  | eq =>
    obtain ⟨hline, hcolumn⟩ := Ordering.then_eq_eq.1 horder
    exact .inr (Prod.ext (Nat.compare_eq_eq.1 hline) (Nat.compare_eq_eq.1 hcolumn))

/-- Which of two positions comes first is told by the lines and columns, if it makes a
difference to them. -/
theorem cells_ordered (hp : p'.cell = p.cell) (hq : q'.cell = q.cell) :
    (p'.compare q').isLE = (p.compare q).isLE ∨ p.cell = q.cell := by
  obtain ⟨hline, hcolumn⟩ := Prod.mk.inj hp
  obtain ⟨hline', hcolumn'⟩ := Prod.mk.inj hq
  rcases isLE_compare p q with h | h
  · rcases isLE_compare p' q' with h' | h'
    · rw [h, h', hline, hcolumn, hline', hcolumn']
      exact .inl rfl
    · exact .inr (hp.symm.trans (h'.trans hq))
  · exact .inr h

theorem cell_min (hp : p'.cell = p.cell) (hq : q'.cell = q.cell) :
    (p'.min q').cell = (p.min q).cell := by
  unfold Position.min
  rcases cells_ordered hp hq with h | h
  · rw [h]
    split
    · exact hp
    · exact hq
  · split <;> split <;> simp only [hp, hq, h]

theorem cell_max (hp : p'.cell = p.cell) (hq : q'.cell = q.cell) :
    (p'.max q').cell = (p.max q).cell := by
  unfold Position.max
  rcases cells_ordered hp hq with h | h
  · rw [h]
    split
    · exact hq
    · exact hp
  · split <;> split <;> simp only [hp, hq, h]

end Position

def Span.cells (s : Span) : (Nat × Nat) × (Nat × Nat) := (s.start.cell, s.stop.cell)

/-! Errors and the ends of lines. -/

namespace Place

/-- What is done at a place whatever token comes next, unless it is a colon. -/
def lead : Place → List Action
  | .afterName word => [.intern word]
  | _ => []

def Rejects (actions : List Action) : Prop := ∀ a ∈ actions, ∃ t wanted, a = .reject t wanted

variable (place : Place) {t : Token}

/-- An error leads into recovery from everywhere. -/
theorem move_error (ht : t.kind = .error) :
    ∃ rejects, place.move t = .take (place.lead ++ rejects) [] .recovery ∧ Rejects rejects := by
  obtain ⟨_, text, span, bytes⟩ := t
  subst ht
  cases place with
  | recovery => exact ⟨[], rfl, by simp [Rejects]⟩
  | _ => exact ⟨[.reject _ _], rfl, by simp [Rejects]⟩

theorem move_newline (ht : t.kind = .newline) :
    ∃ rejects, place.move t = .endLine (place.lead ++ rejects) true ∧ Rejects rejects := by
  obtain ⟨_, text, span, bytes⟩ := t
  subst ht
  cases place with
  | item | afterName | operands | operandEnd | nameEnd | recovery =>
    exact ⟨[], rfl, by simp [Rejects]⟩
  | _ => exact ⟨[.reject _ _], rfl, by simp [Rejects]⟩

theorem move_eof (ht : t.kind = .eof) (hplace : place ≠ .item) :
    ∃ rejects, place.move t = .endLine (place.lead ++ rejects) false ∧ Rejects rejects := by
  obtain ⟨_, text, span, bytes⟩ := t
  subst ht
  cases place with
  | item => exact absurd rfl hplace
  | afterName | operands | operandEnd | nameEnd | recovery => exact ⟨[], rfl, by simp [Rejects]⟩
  | _ => exact ⟨[.reject _ _], rfl, by simp [Rejects]⟩

/-- At the end of a line every place does what it does anyway, and then what recovery does. -/
theorem script_end (hplace : place ≠ .item ∨ t.kind = .newline)
    (hend : t.kind = .newline ∨ t.kind = .eof) (rest : List Token) :
    ∃ rejects, Rejects rejects ∧ script place (t :: rest) =
      ((place.lead ++ rejects).map .perform ++ (script .recovery (t :: rest)).1,
        (script .recovery (t :: rest)).2) := by
  rcases hend with ht | ht
  · have hcorrupt : t.kind ≠ .corrupt := by rw [ht]; decide
    have hrecovery : Place.recovery.move t = .endLine [] true := by
      simp only [Place.move, Move.passOver, ht]
    obtain ⟨rejects, hmove, hrejects⟩ := place.move_newline ht
    refine ⟨rejects, hrejects, ?_⟩
    rw [script_newline hcorrupt hmove, script_newline hcorrupt hrecovery]
    simp
  · have hcorrupt : t.kind ≠ .corrupt := by rw [ht]; decide
    have hrecovery : Place.recovery.move t = .endLine [] false := by
      simp only [Place.move, Move.passOver, ht]
    have hitem : place ≠ .item := hplace.resolve_right (by rw [ht]; decide)
    obtain ⟨rejects, hmove, hrejects⟩ := place.move_eof ht hitem
    refine ⟨rejects, hrejects, ?_⟩
    rw [script_leave hcorrupt hmove, script_leave hcorrupt hrecovery]
    simp

end Place

namespace Comparison

open Parse

/-- Two parses under the same settings, with tokens that stand at the same lines and columns.
Nothing is asked of what they report. -/
def overComments (settings : Settings) : Comparison where
  left := settings
  right := settings
  exact := True
  token a b := b.outline = a.outline
  span a b := b.cells = a.cells
  reports _ _ := True

theorem overComments_lawful {settings : Settings} (hlimit : settings.maxDiagnostics = none) :
    (overComments settings).Lawful where
  text _ _ h := congrArg (·.2.1) h
  place a b h := show b.span.cells = a.span.cells from congrArg (·.2.2) h
  join a a' b b' ha hb := by
    obtain ⟨hstart, hstop⟩ := Prod.mk.inj ha
    obtain ⟨hstart', hstop'⟩ := Prod.mk.inj hb
    exact Prod.ext (Position.cell_min hstart hstart') (Position.cell_max hstop hstop')
  push _ _ _ _ _ _ := trivial
  limit := .inl ⟨hlimit, hlimit⟩
  depth := .inl rfl
  fatal _ _ _ _ _ _ := trivial

namespace Abreast

variable {C : Comparison} {es fs : List Event}

/-- The start of a line has no partner. -/
theorem of_nextLine {rest : List Token} (h : C.Abreast es (.nextLine rest :: fs)) :
    C.Abreast es fs := by
  generalize hall : Event.nextLine rest :: fs = all at h
  induction h with
  | nil => cases hall
  | act => cases hall
  | left he _ ih => exact .left he (ih hall)
  | right hf h =>
    cases hall
    exact h

end Abreast

section Script

variable {settings : Settings} {tokens tokens' : List Token} {place place' : Place}

theorem lead_actions (hplace : (overComments settings).Places place place') :
    List.Forall₂ (overComments settings).Actions place.lead place'.lead := by
  cases hplace with
  | afterName h => exact .cons (.intern h) .nil
  | same hheld =>
    cases place with
    | afterName word => cases hheld
    | _ => exact .nil

theorem overComments_silent (hlimit : settings.maxDiagnostics = none) :
    (overComments settings).Silent :=
  ⟨⟨hlimit, hlimit⟩, fun _ _ _ _ => ⟨trivial, trivial⟩⟩

theorem idle_rejects (hlimit : settings.maxDiagnostics = none) {rejects : List Action}
    (h : Place.Rejects rejects) :
    ∀ e ∈ rejects.map Event.perform, (overComments settings).Idle e := by
  intro e he
  obtain ⟨a, ha, rfl⟩ := List.mem_map.1 he
  obtain ⟨t, wanted, rfl⟩ := h a ha
  exact overComments_silent hlimit

/-- An error in front of the end of a line. -/
theorem equally_stray (hlimit : settings.maxDiagnostics = none) {e u : Token}
    (he : e.kind = .error) (hend : u.kind = .newline ∨ u.kind = .eof)
    (ih : (overComments settings).Equally tokens (u :: tokens')) :
    (overComments settings).Equally (e :: tokens) (u :: tokens') := by
  intro place place' hplace
  have hcorrupt : e.kind ≠ .corrupt := by rw [he]; decide
  obtain ⟨rejects, hmove, hrejects⟩ := place.move_error he
  have hidle := idle_rejects hlimit hrejects
  obtain ⟨hmore, hstop⟩ := ih .recovery .recovery (.same rfl)
  rw [script_take hcorrupt hmove, List.map_append, List.append_assoc]
  by_cases hplace' : place' ≠ .item ∨ u.kind = .newline
  case pos =>
    obtain ⟨rejects', hrejects', hscript⟩ := place'.script_end hplace' hend tokens'
    rw [hscript, List.map_append, List.append_assoc]
    have hidle' := idle_rejects hlimit hrejects'
    refine ⟨.acts (.lefts (.left trivial ?_) hidle) (lead_actions hplace), hstop⟩
    exact .rights hmore hidle'
  case neg =>
    -- The text ends where a line may start, and the repaired text ends at once.
    obtain ⟨hitem, hnewline⟩ := not_or.1 hplace'
    obtain rfl := not_not.1 hitem
    have hu := hend.resolve_left hnewline
    have hcorrupt' : u.kind ≠ .corrupt := by rw [hu]; decide
    have hmove' : Place.item.move u = .endText := by simp only [Place.move, hu]
    have hrecovery : Place.recovery.move u = .endLine [] false := by
      simp only [Place.move, Move.passOver, hu]
    rw [script_leave hcorrupt' hrecovery, script_endText hcorrupt' hmove'] at hmore hstop
    rw [script_endText hcorrupt' hmove']
    have hlead := lead_actions hplace
    generalize place.lead = lead at hlead
    cases hlead
    rw [List.map_nil, List.nil_append, List.nil_append]
    exact ⟨.lefts (.left trivial hmore.of_nextLine) hidle, hstop⟩

/-- In every position of the parse, what recovery passes over changes nothing. -/
theorem equally_of_strewn (hlimit : settings.maxDiagnostics = none)
    (h : Strewn tokens tokens') : (overComments settings).Equally tokens tokens' := by
  induction h with
  | nil => exact .nil
  | keep h _ ih => exact .cons (overComments_lawful hlimit) h (congrArg (·.1) h) ih
  | stray he hend _ ih => exact equally_stray hlimit he hend ih

end Script

end Comparison

/-- The two parses ended in the same phase, with the same symbols and with graphs that differ in
the byte offsets of their spans only. -/
structure Parse.SameCells (p q : Parse) : Prop where
  phase : q.phase = p.phase
  symbols : q.symbols = p.symbols
  nodeCount : q.graph.nodeCount = p.graph.nodeCount
  node : ∀ n node, p.graph.node n = .ok node → ∃ node' span span', q.graph.node n = .ok node' ∧
    node'.name = node.name ∧ node'.kind = node.kind ∧ p.graph.nodeSpan n = .ok span ∧
      q.graph.nodeSpan n = .ok span' ∧ span'.cells = span.cells
  edges : List.Forall₂ (fun e e' => e'.handle = e.handle ∧ e'.source = e.source ∧
    e'.target = e.target ∧ e'.label = e.label ∧ e'.direction = e.direction ∧
      e'.span.cells = e.span.cells) p.graph.edges q.graph.edges

theorem Comparison.Ends.sameCells {settings : Settings} {p q : Parse}
    (h : (overComments settings).Ends p q) : p.SameCells q := by
  obtain ⟨hphase, m, m', halike⟩ := h
  have hsymbols := halike.symbols trivial
  have hsame {s r : Symbol} (hword : p.symbols.SameWord s q.symbols r) : r = s := by
    rw [hsymbols] at hword
    exact hword.eq halike.left.symbols
  constructor
  case phase => exact hphase
  case symbols => exact hsymbols
  case nodeCount => exact halike.nodeCount_eq
  case node =>
    intro n node hnode
    obtain ⟨node', span, span', hnode', hkind, hword, hspan, hspan', hcells⟩ :=
      halike.node_forall hnode
    exact ⟨node', span, span', hnode', hsame hword, hkind, hspan, hspan', hcells⟩
  case edges =>
    refine halike.edges_forall.imp ?_
    rintro e e' ⟨hhandle, hsource, htarget, hdirection, hword, hcells⟩
    exact ⟨hhandle, hsource, htarget, hsame hword, hdirection, hcells⟩

/-- If every byte outside UTF-8 is in a comment once it is replaced, and no token of the repaired
text is corrupt, then the parses of both texts, without a limit on diagnostics, end in the same
phase, with the same symbols and the same graph, up to byte offsets. -/
theorem parse_repaired (source : List UInt8) (settings : Settings)
    (hlimit : settings.maxDiagnostics = none)
    (hcomments : ∀ o ∈ Utf8.replaced source, InComment (Utf8.repair source) o)
    (hcorrupt : ∀ t ∈ tokenize (Utf8.repair source), t.kind ≠ .corrupt) :
    (parse source settings).SameCells (parse (Utf8.repair source) settings) := by
  have hstart := Parse.opened_facing source (Utf8.repair source) settings none
  obtain ⟨hevents, hstop⟩ := Comparison.equally_of_strewn hlimit
    (tokenize_strewn hcomments hcorrupt) .item .item (.same rfl)
  have hsymbols := congrArg Parse.symbols hstart
  have hseed := congrArg Parse.seedError hstart
  have hrun := Comparison.run_sync source (Utf8.repair source) none none
    (Comparison.overComments_lawful hlimit) (by simp) (by simp) (fun _ => ⟨hsymbols, hseed⟩)
    trivial rfl hevents hstop
  exact (hrun.resolve_right fun h => h.1 trivial).sameCells

/-- Bytes outside UTF-8 in comments behind a comma and at the end of the text. -/
theorem parse_repaired_operands :
    let source := "a: mov b, ; ".toUTF8.toList ++ 0xFF :: "c\njmp a\n# ".toUTF8.toList ++ [0xC3]
    ({ maxDiagnostics := none } : Settings).maxDiagnostics = none ∧
    (∀ o ∈ Utf8.replaced source, InComment (Utf8.repair source) o) ∧
    (∀ t ∈ tokenize (Utf8.repair source), t.kind ≠ .corrupt) ∧
    (parse source { maxDiagnostics := none }).SameCells
      (parse (Utf8.repair source) { maxDiagnostics := none }) := by
  intro source
  have hcomments : ∀ o ∈ Utf8.replaced source, InComment (Utf8.repair source) o := by
    decide +kernel
  have hcorrupt : ∀ t ∈ tokenize (Utf8.repair source), t.kind ≠ .corrupt := by decide +kernel
  exact ⟨rfl, hcomments, hcorrupt, parse_repaired source _ rfl hcomments hcorrupt⟩

end LabelGraph
