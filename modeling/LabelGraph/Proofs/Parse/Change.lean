import LabelGraph.Parse.State
import LabelGraph.Proofs.Store.Symbols
import Mathlib.Logic.Relation

/-!
What the operations of a parse can do to its state. Whatever an operation does is a sequence
of a few kinds of changes. Its footprint tells what it can report, why it can fail, and
whether it moves on in the text.
-/

namespace LabelGraph

/-- The codes of the diagnostics that do not end a parse. -/
def Code.reports : List String :=
  [Code.lexical, Code.unexpected, Code.unresolved, Code.duplicate, Code.unbalanced]

/-- A diagnostic about the text. Only that of an undefined label can be less than an error. -/
def Diagnostic.IsReport (d : Diagnostic) : Prop :=
  d.code ∈ Code.reports ∧ (d.code ≠ Code.unresolved → d.severity = .error)

def Fatal.span : Fatal → Span
  | corrupt span => span
  | storage _ span => span
  | unclosed span => span
  | tooMany span => span

@[simp] theorem Fatal.diagnostic_span (limit : Option UInt32) (cause : Fatal) :
    (cause.diagnostic limit).span = cause.span := by
  cases cause with
  | storage cause span =>
    rw [diagnostic]
    split <;> rfl
  | _ => rfl

namespace Parse

/-! The diagnostics of the operations. -/

def duplicateName (name : String) (first span : Span) : Diagnostic :=
  { severity := .error, code := Code.duplicate, span
    message := s!"`{name}` is already declared"
    details := { found := some name, info := some s!"first declared at {first.start}" } }

def outsideLabel (name : Token) : Diagnostic :=
  { severity := .error, code := Code.unexpected, span := name.span
    message := s!"reference to `{name.text}` outside any label"
    details := { found := some name.text, expected := some "a label declaration first" } }

def tooDeep (limit : UInt32) (brace : Token) : Diagnostic :=
  { severity := .error, code := Code.unbalanced, span := brace.span
    message := s!"blocks nested deeper than {limit}"
    details := { found := some "\x7b" } }

def unmatchedBrace (brace : Token) : Diagnostic :=
  { severity := .error, code := Code.unbalanced, span := brace.span
    message := "`\x7d` without matching `\x7b`"
    details := { found := some "\x7d" } }

def undefinedLabel (p : Parse) (r : Reference) : Diagnostic :=
  { severity := p.settings.unresolvedSeverity, code := Code.unresolved, span := r.span
    message := s!"undefined label `{p.symbols.spell r.name}`"
    details := { found := some (p.symbols.spell r.name) } }

@[simp] theorem unexpected_span (t : Token) (wanted : Wanted) :
    (unexpected t wanted).span = t.span := by
  unfold unexpected
  split <;> rfl

end Parse

namespace Action

def tokens : Action → List Token
  | .intern word => [word]
  | .declareLabel name colon => [name, colon]
  | .declareExternal name => [name]
  | .refer name _ => [name]
  | .openBlock brace => [brace]
  | .closeBlock brace => [brace]
  | .reject t _ => [t]

def spans : Action → List Span
  | .declareLabel name colon => [name.span, name.span.join colon.span]
  | a => a.tokens.map (·.span)

inductive Reports : Action → Diagnostic → Prop where
  | label {name colon : Token} {first : Span} :
    Reports (.declareLabel name colon)
      (Parse.duplicateName name.text first (name.span.join colon.span))
  | external {name : Token} {first : Span} :
    Reports (.declareExternal name) (Parse.duplicateName name.text first name.span)
  | outside {name : Token} {d : Direction} : Reports (.refer name d) (Parse.outsideLabel name)
  | deep {limit : UInt32} {brace : Token} : Reports (.openBlock brace) (Parse.tooDeep limit brace)
  | unmatched {brace : Token} : Reports (.closeBlock brace) (Parse.unmatchedBrace brace)
  | reject {t : Token} {wanted : Wanted} :
    Reports (.reject t wanted) (Parse.unexpected t wanted)

section Reports

variable {a : Action} {d : Diagnostic}

theorem Reports.code_mem (h : a.Reports d) :
    d.code ∈ [Code.lexical, Code.unexpected, Code.duplicate, Code.unbalanced] := by
  cases h with
  | label => exact .tail _ (.tail _ (.head _))
  | external => exact .tail _ (.tail _ (.head _))
  | outside => exact .tail _ (.head _)
  | deep => exact .tail _ (.tail _ (.tail _ (.head _)))
  | unmatched => exact .tail _ (.tail _ (.tail _ (.head _)))
  | reject =>
    unfold Parse.unexpected
    split
    · exact .head _
    · exact .tail _ (.head _)

/-- Nothing is reported of a label that is declared nowhere while the lines are read. -/
theorem Reports.code (h : a.Reports d) : d.code ∈ Code.reports ∧ d.code ≠ Code.unresolved :=
  (by decide : ∀ code ∈ [Code.lexical, Code.unexpected, Code.duplicate, Code.unbalanced],
    code ∈ Code.reports ∧ code ≠ Code.unresolved) _ h.code_mem

theorem Reports.isReport (h : a.Reports d) : d.IsReport := by
  refine ⟨h.code.1, fun _ => ?_⟩
  cases h with
  | reject =>
    unfold Parse.unexpected
    split <;> rfl
  | _ => rfl

end Reports

end Action

/-- What an operation may do apart from writing to the tables and the graph and opening and
closing scopes, which every operation may. -/
structure Footprint where
  reports : Diagnostic → Prop
  causes : Fatal → Prop
  /-- It may move over a token. -/
  consumes : Prop
  /-- It may start a line, leave it or end the parse. -/
  turns : Prop

namespace Footprint

structure Within (F G : Footprint) : Prop where
  reports : ∀ d, F.reports d → G.reports d
  causes : ∀ cause, F.causes cause → G.causes cause
  consumes : F.consumes → G.consumes
  turns : F.turns → G.turns

theorem Within.trans {F G H : Footprint} (h : F.Within G) (h' : G.Within H) : F.Within H :=
  ⟨fun d hd => h'.reports d (h.reports d hd), fun cause hc => h'.causes cause (h.causes cause hc),
    fun hF => h'.consumes (h.consumes hF), fun hF => h'.turns (h.turns hF)⟩

def line : Footprint where
  reports := Diagnostic.IsReport
  causes _ := True
  consumes := True
  turns := False

/-- The end of a text, where nothing but what waits is reported. -/
def closing : Footprint where
  reports d := d.IsReport ∧ d.code = Code.unresolved
  causes _ := True
  consumes := False
  turns := True

def text : Footprint := { line with turns := True }

theorem line_within : line.Within text :=
  ⟨fun _ h => h, fun _ h => h, fun h => h, False.elim⟩

theorem closing_within : closing.Within text :=
  ⟨fun _ h => h.1, fun _ h => h, False.elim, fun h => h⟩

end Footprint

def Action.footprint (a : Action) : Footprint where
  reports := a.Reports
  causes cause := cause.span ∈ a.spans
  consumes := False
  turns := False

theorem Action.within_line (a : Action) : a.footprint.Within .line :=
  ⟨fun _ h => h.isReport, fun _ _ => trivial, False.elim, False.elim⟩

/-- A waiting reference is reported as undefined in some state, and fails at its own place. -/
def Reference.footprint (r : Reference) : Footprint where
  reports d := ∃ p, d = Parse.undefinedLabel p r
  causes cause := cause.span = r.span
  consumes := False
  turns := False

theorem Reference.within_closing (r : Reference) : r.footprint.Within .closing where
  reports := by
    rintro _ ⟨p, rfl⟩
    exact ⟨⟨(by decide : Code.unresolved ∈ Code.reports), fun hcode => absurd rfl hcode⟩, rfl⟩
  causes _ _ := trivial
  consumes := False.elim
  turns := False.elim

namespace Parse

def after {α : Type} (x : ParseM α) (p : Parse) : Parse :=
  match x p with
  | .ok _ q => q
  | .error _ q => q

section After

variable {α β : Type} {x : ParseM α} {g : α → ParseM β} {p q : Parse}

theorem after_of_ok {a : α} (h : x p = .ok a q) : after x p = q := by
  rw [after, h]

theorem after_of_error {e : Fatal} (h : x p = .error e q) : after x p = q := by
  rw [after, h]

theorem after_bind_of_ok {a : α} (h : x p = .ok a q) : after (x >>= g) p = after (g a) q := by
  rw [after, bind_of_ok h, after]

theorem after_bind_of_error {e : Fatal} (h : x p = .error e q) : after (x >>= g) p = q :=
  after_of_error (bind_of_error h)

/-- The report is made, and then it may be one too many. -/
theorem report_cases (d : Diagnostic) (p : Parse) :
    report d p = .ok () { p with diagnostics := p.diagnostics.push d } ∨
      (∃ limit, p.settings.maxDiagnostics = some limit) ∧
        report d p = .error (.tooMany d.span) { p with diagnostics := p.diagnostics.push d } := by
  simp only [report]
  cases p.settings.maxDiagnostics with
  | none => exact .inl rfl
  | some limit =>
    simp only
    split
    · exact .inr ⟨⟨limit, rfl⟩, rfl⟩
    · exact .inl rfl

@[simp] theorem after_report (d : Diagnostic) (p : Parse) :
    after (report d) p = { p with diagnostics := p.diagnostics.push d } := by
  rcases report_cases d p with h | ⟨-, h⟩
  · exact after_of_ok h
  · exact after_of_error h

end After

/-- One change within a footprint of what a parse has in hand and not of what it writes down. -/
inductive Shift (F : Footprint) (p : Parse) : Parse → Prop where
  | labels (labels : Std.HashMap Symbol NodeId) : Shift F p { p with labels }
  | scope (scope : Option NodeId) (blocks : Array Block) : Shift F p { p with scope, blocks }
  | pending (pending : Array Reference) : Shift F p { p with pending }
  | consume (h : F.consumes) (previous : Span) : Shift F p { p with previous }
  | turn (h : F.turns) (rest : List Token) {phase : Phase}
    (hphase : phase = .failed → p.phase = .failed) : Shift F p { p with rest, phase }

/-- One change of a state within a footprint. Words are only ever interned. -/
inductive Change (F : Footprint) (p : Parse) : Parse → Prop where
  | symbols {word : String} {s : Symbol} {t : SymbolTable}
    (h : SymbolTable.intern word p.symbols = .ok s t) : Change F p { p with symbols := t }
  | graph (graph : Graph) : Change F p { p with graph }
  | report {d : Diagnostic} (hd : F.reports d) :
    Change F p { p with diagnostics := p.diagnostics.push d }
  | shift {q : Parse} (h : Shift F p q) : Change F p q

def Changes (F : Footprint) : Parse → Parse → Prop := Relation.ReflTransGen (Change F)

/-- The parse has not failed, and all its diagnostics are about the text. -/
structure Reporting (p : Parse) : Prop where
  phase : p.phase ≠ .failed
  reports : ∀ d ∈ p.diagnostics, d.IsReport

section Shift

variable {F G : Footprint} {p q : Parse}

theorem Shift.mono (h : Shift F p q) (hwithin : F.Within G) : Shift G p q := by
  cases h with
  | labels labels => exact .labels labels
  | scope scope blocks => exact .scope scope blocks
  | pending pending => exact .pending pending
  | consume h previous => exact .consume (hwithin.consumes h) previous
  | turn h rest hphase => exact .turn (hwithin.turns h) rest hphase

def record (p : Parse) : Settings × SymbolTable × Graph × Array Diagnostic :=
  (p.settings, p.symbols, p.graph, p.diagnostics)

theorem Shift.record (h : Shift F p q) : q.record = p.record := by
  cases h <;> rfl

end Shift

namespace Changes

variable {F G : Footprint} {p q : Parse}

/-- What no single change touches, no number of changes does. -/
theorem kept {β : Type} {f : Parse → β} (h : Changes F p q)
    (hf : ∀ p q, Change F p q → f q = f p) : f q = f p := by
  induction h with
  | refl => rfl
  | tail _ hchange ih => exact (hf _ _ hchange).trans ih

theorem settings (h : Changes F p q) : q.settings = p.settings :=
  h.kept fun _ _ hchange => by
    cases hchange with
    | shift hshift => exact congrArg Prod.fst hshift.record
    | _ => rfl

theorem seedError (h : Changes F p q) : q.seedError = p.seedError :=
  h.kept fun _ _ hchange => by
    cases hchange with
    | shift hshift => cases hshift <;> rfl
    | _ => rfl

theorem previous (h : Changes F p q) (hF : ¬ F.consumes) : q.previous = p.previous :=
  h.kept fun _ _ hchange => by
    rcases hchange with _ | _ | _ | ⟨_ | _ | _ | hconsumes | _⟩
    case shift.consume => exact absurd hconsumes hF
    all_goals rfl

theorem phase (h : Changes F p q) (hF : ¬ F.turns) : q.phase = p.phase :=
  h.kept fun _ _ hchange => by
    rcases hchange with _ | _ | _ | ⟨_ | _ | _ | _ | hturns⟩
    case shift.turn => exact absurd hturns hF
    all_goals rfl

/-- No change takes a word from its handle. -/
theorem symbols (h : Changes F p q) (hp : p.symbols.Valid) :
    q.symbols.Valid ∧ p.symbols.Extends q.symbols := by
  induction h with
  | refl => exact ⟨hp, .refl _⟩
  | tail _ hchange ih =>
    cases hchange with
    | symbols hintern =>
      obtain ⟨hvalid, -, hextends⟩ := SymbolTable.intern_ok ih.1 hintern
      exact ⟨hvalid, ih.2.trans hextends⟩
    | shift hshift => cases hshift <;> exact ih
    | _ => exact ih

/-- Reports are put behind the others. -/
theorem reports (h : Changes F p q) :
    ∃ more, q.diagnostics.toList = p.diagnostics.toList ++ more ∧ ∀ d ∈ more, F.reports d := by
  induction h with
  | refl => exact ⟨[], by simp, by simp⟩
  | tail _ hchange ih =>
    obtain ⟨more, hq, hmore⟩ := ih
    cases hchange with
    | @report d hd =>
      refine ⟨more ++ [d], ?_, ?_⟩
      · rw [Array.toList_push, hq, List.append_assoc]
      · intro e he
        rcases List.mem_append.1 he with he | he
        · exact hmore e he
        · rw [List.mem_singleton.1 he]
          exact hd
    | shift hshift => cases hshift <;> exact ⟨more, hq, hmore⟩
    | _ => exact ⟨more, hq, hmore⟩

/-- Reports on the text alone leave a failure to the step that ends the parse. -/
theorem reporting (h : Changes F p q) (hF : ∀ d, F.reports d → d.IsReport) (hp : p.Reporting) :
    q.Reporting := by
  induction h with
  | refl => exact hp
  | tail _ hchange ih =>
    cases hchange with
    | report hd =>
      refine ⟨ih.phase, fun e he => ?_⟩
      rcases Array.mem_push.1 he with he | rfl
      · exact ih.reports e he
      · exact hF _ hd
    | shift hshift =>
      cases hshift with
      | turn _ _ hphase => exact ⟨fun hfailed => ih.phase (hphase hfailed), ih.reports⟩
      | _ => exact ⟨ih.phase, ih.reports⟩
    | _ => exact ⟨ih.phase, ih.reports⟩

end Changes

end Parse

end LabelGraph
