import LabelGraph.Proofs.Parse.Limit
import Mathlib.Logic.Function.Iterate

/-!
What the diagnostics of a parse say about its end. A cause that ends a parse is written down
by the step that ends it, and by nothing else, so it is the last diagnostic and stands for the
failure. All other diagnostics are about the text.
-/

namespace LabelGraph

def Code.fatal : List String :=
  [Code.capacity, Code.corrupt, Code.unclosed, Code.tooMany, Code.storage]

theorem Fatal.code_fatal (limit : Option UInt32) (cause : Fatal) :
    (cause.diagnostic limit).code ∈ Code.fatal := by
  cases cause with
  | storage cause span =>
    rw [diagnostic]
    by_cases h : cause.isCapacity
    · rw [if_pos h]
      exact (by decide : Code.capacity ∈ Code.fatal)
    · rw [if_neg h]
      exact (by decide : Code.storage ∈ Code.fatal)
  | corrupt span => exact (by decide : Code.corrupt ∈ Code.fatal)
  | unclosed span => exact (by decide : Code.unclosed ∈ Code.fatal)
  | tooMany span => exact (by decide : Code.tooMany ∈ Code.fatal)

@[simp] theorem Fatal.severity_error (limit : Option UInt32) (cause : Fatal) :
    (cause.diagnostic limit).severity = .error := by
  cases cause with
  | storage cause span =>
    rw [diagnostic]
    split <;> rfl
  | _ => rfl

theorem Diagnostic.IsReport.not_fatal {d : Diagnostic} (h : d.IsReport) : d.code ∉ Code.fatal :=
  (by decide : ∀ code ∈ Code.reports, code ∉ Code.fatal) d.code h.1

namespace Parse

/-- The parse has reported on the text alone, or it failed right behind that. -/
def Accounted (p : Parse) : Prop := p.Reporting ∨ ∃ q cause, Reporting q ∧ p = q.fail cause

/-- The state and the diagnostics of a parse tell the same. -/
structure Verdict (p : Parse) : Prop where
  one : p.diagnostics.toList.countP (·.code ∈ Code.fatal) ≤ 1
  last : ∀ d ∈ p.diagnostics, d.code ∈ Code.fatal →
    p.diagnostics.back? = some d ∧ d.severity = .error
  failed : p.phase = .failed ↔ ∃ d ∈ p.diagnostics, d.code ∈ Code.fatal
  reports : ∀ d ∈ p.diagnostics, d.code ∉ Code.fatal → d.IsReport
  stays : p.phase.isTerminal → ∀ n, step^[n] p = p
  success : p.phase.isTerminal → (p.isSuccess ↔ p.hasErrors = false)

variable {p q : Parse}

theorem readStep_reporting (hp : p.Reporting) : (after readStep p).Reporting := by
  have hstarted : p.started.Reporting := ⟨Phase.noConfusion, hp.reports⟩
  cases hseed : p.seedError with
  | some e => rwa [after_of_error (readStep_unseeded hseed)]
  | none =>
    have hroutine : Routine .text (do
        playAll (Place.item.line p.rest).1
        close (Place.item.line p.rest).2) :=
      (text_routine _).bind fun _ => (close_routine _).mono Footprint.closing_within
    rw [after, readStep_eq hseed]
    exact (hroutine.changes p.started).reporting (fun _ h => h) hstarted

theorem Accounted.step (h : p.Accounted) : p.step.Accounted := by
  cases hphase : p.phase.isTerminal with
  | true => rwa [step_of_terminal hphase]
  | false =>
    have hp : p.Reporting := by
      refine h.resolve_right ?_
      rintro ⟨q, cause, -, rfl⟩
      cases hphase
    have hread := readStep_reporting hp
    rw [step_of_ongoing hphase]
    cases h : readStep p with
    | ok a q =>
      rw [after_of_ok h] at hread
      exact .inl hread
    | error cause q =>
      rw [after_of_error h] at hread
      exact .inr ⟨q, cause, hread, rfl⟩

theorem Accounted.steps (h : p.Accounted) (n : Nat) : (Parse.step^[n] p).Accounted := by
  induction n generalizing p with
  | zero => exact h
  | succ n ih => exact ih h.step

theorem steps_of_terminal (h : p.phase.isTerminal) (n : Nat) : Parse.step^[n] p = p :=
  Function.iterate_fixed (step_of_terminal h) n

theorem isSuccess_of_succeeded (h : p.phase = .succeeded) :
    p.isSuccess ↔ p.hasErrors = false := by
  rw [isSuccess, h]
  cases p.hasErrors <;> decide

theorem Reporting.succeeded (h : p.Reporting) (hterminal : p.phase.isTerminal) :
    p.phase = .succeeded := by
  cases hphase : p.phase with
  | succeeded => rfl
  | failed => exact absurd hphase h.phase
  | _ =>
    rw [hphase] at hterminal
    cases hterminal

theorem Reporting.countP_fatal (h : p.Reporting) :
    p.diagnostics.toList.countP (·.code ∈ Code.fatal) = 0 := by
  rw [List.countP_eq_zero]
  intro d hd
  simpa using (h.reports d (Array.mem_toList_iff.1 hd)).not_fatal

/-- A parse that has not failed has no diagnostic of a failure. -/
theorem Reporting.verdict (h : p.Reporting) : p.Verdict := by
  have hnone : ∀ d ∈ p.diagnostics, d.code ∉ Code.fatal := fun d hd => (h.reports d hd).not_fatal
  constructor
  case one =>
    rw [h.countP_fatal]
    exact Nat.zero_le 1
  case last => exact fun d hd hfatal => absurd hfatal (hnone d hd)
  case failed =>
    refine iff_of_false h.phase ?_
    rintro ⟨d, hd, hfatal⟩
    exact hnone d hd hfatal
  case reports => exact fun d hd _ => h.reports d hd
  case stays => exact steps_of_terminal
  case success => exact fun hterminal => isSuccess_of_succeeded (h.succeeded hterminal)

/-- A parse that fails writes down its cause behind all that it reported. -/
theorem Reporting.verdict_fail (h : q.Reporting) (cause : Fatal) : (q.fail cause).Verdict := by
  have hcause := cause.code_fatal q.settings.maxDiagnostics
  have hseverity := cause.severity_error q.settings.maxDiagnostics
  have hmem : cause.diagnostic q.settings.maxDiagnostics ∈ (q.fail cause).diagnostics :=
    Array.mem_push_self
  have hcases : ∀ d ∈ (q.fail cause).diagnostics,
      d.IsReport ∨ d = cause.diagnostic q.settings.maxDiagnostics := by
    intro d hd
    exact (Array.mem_push.1 hd).imp_left (h.reports d)
  constructor
  case one =>
    rw [fail, Array.toList_push, List.countP_append, h.countP_fatal, Nat.zero_add]
    exact List.countP_le_length
  case last =>
    intro d hd hfatal
    rcases hcases d hd with hreport | rfl
    · exact absurd hfatal hreport.not_fatal
    · exact ⟨Array.back?_push, hseverity⟩
  case failed => exact iff_of_true rfl ⟨_, hmem, hcause⟩
  case reports =>
    intro d hd hnot
    rcases hcases d hd with hreport | rfl
    · exact hreport
    · exact absurd hcause hnot
  case stays => exact steps_of_terminal
  case success =>
    intro _
    have herrors : (q.fail cause).hasErrors = true := by
      rw [hasErrors, Array.any_eq_true']
      exact ⟨_, hmem, decide_eq_true hseverity⟩
    rw [herrors]
    simp [isSuccess, fail]

theorem Accounted.verdict (h : p.Accounted) : p.Verdict := by
  rcases h with h | ⟨q, cause, h, rfl⟩
  · exact h.verdict
  · exact h.verdict_fail cause

theorem opened_accounted (source : List UInt8) (settings : Settings)
    (table? : Option SymbolTable) : (opened source settings table?).Accounted := by
  obtain ⟨hphase, hdiagnostics, -⟩ := opened_start source settings table?
  refine .inl ⟨?_, ?_⟩
  · rw [hphase]
    exact Phase.noConfusion
  · rw [hdiagnostics]
    simp

theorem run_eq_steps (p : Parse) : ∃ n, p.run = Parse.step^[n] p := by
  fun_induction run p with
  | case1 p ended => exact ⟨0, rfl⟩
  | case2 p ongoing ih =>
    obtain ⟨n, hn⟩ := ih
    exact ⟨n + 1, hn⟩

end Parse

/-- At every step of a parse, and at its end, the state is the one that the diagnostics tell of.
So no parse that fails passes for one without errors. -/
theorem parse_verdict (source : List UInt8) (settings : Settings) (table? : Option SymbolTable) :
    (∀ n, (Parse.step^[n] (.opened source settings table?)).Verdict) ∧
      (Parse.opened source settings table?).run.Verdict := by
  have hsteps (n : Nat) := ((Parse.opened_accounted source settings table?).steps n).verdict
  obtain ⟨n, hrun⟩ := Parse.run_eq_steps (.opened source settings table?)
  refine ⟨hsteps, ?_⟩
  rw [hrun]
  exact hsteps n

end LabelGraph
