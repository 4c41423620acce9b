import LabelGraph.Proofs.Parse.Routine
import LabelGraph.Proofs.Parse.Script

/-!
A parse plays the script of its tokens. Each action changes the graph, the symbols,
the labels, the scope and the reports, and nothing else, so the steps of a parse join
into one sequence of actions that is played on the first state until one of them fails.
-/

namespace LabelGraph

namespace Parse

/-! Playing a script. -/

def play : Event → ParseM Unit
  | .perform a => act a
  | .consume t => consume t
  | .nextLine rest => modify fun p => { p with rest, phase := .parsing }

def playAll (events : List Event) : ParseM Unit := events.forM play

def conclude : Stop → ParseM LineEnd
  | .line rest => return .line rest
  | .text => return .text
  | .corrupt span => throw (.corrupt span)

theorem playAll_append (first second : List Event) :
    playAll (first ++ second) = (do playAll first; playAll second) := by
  simp [playAll]

theorem playAll_cons (e : Event) (events : List Event) :
    playAll (e :: events) = (do play e; playAll events) := rfl

theorem playAll_perform (actions : List Action) :
    playAll (actions.map .perform) = actions.forM act := by
  induction actions with
  | nil => rfl
  | cons a actions ih =>
      rw [List.map_cons, playAll_cons, ih]
      rfl

theorem readLine_eq (place : Place) (tokens : List Token) :
    readLine place tokens =
      (do playAll (place.line tokens).1; conclude (place.line tokens).2) := by
  induction tokens generalizing place with
  | nil => rfl
  | cons t rest ih =>
      rw [readLine, Place.line]
      by_cases ht : t.kind = .corrupt
      · rw [if_pos ht, if_pos ht]
        rfl
      rw [if_neg ht, if_neg ht]
      cases hmove : place.move t with
      | take before after next =>
        simp only [ih, playAll_append, playAll_cons, playAll_perform, play, bind_assoc]
      | endLine before taken =>
        cases taken with
        | true =>
          simp only [playAll_append, playAll_cons, playAll_perform, play, bind_assoc]
          rfl
        | false =>
          simp only [playAll_perform]
          rfl
      | endText => rfl

/-- A line leaves the start of the next one to the step behind it. -/
theorem line_passes (place : Place) (tokens rest : List Token) :
    .nextLine rest ∉ (place.line tokens).1 := by
  induction tokens generalizing place with
  | nil => exact List.not_mem_nil
  | cons t tokens ih =>
    rw [Place.line]
    by_cases ht : t.kind = .corrupt
    · rw [if_pos ht]
      exact List.not_mem_nil
    rw [if_neg ht]
    cases place.move t with
    | take before after next => simp [ih next]
    | endLine before taken => cases taken <;> simp
    | endText => exact List.not_mem_nil

section Routine

variable {events : List Event}

theorem play_routine {F : Footprint} {e : Event} (hconsumes : F.consumes)
    (hturns : ∀ rest, e = .nextLine rest → F.turns)
    (hacts : ∀ a, e = .perform a → a.footprint.Within F) : Routine F (play e) := by
  cases e with
  | perform a => exact (act_routine a).mono (hacts a rfl)
  | consume t => exact .of_modify (fun _ _ _ => rfl) fun p => .consume hconsumes t.span
  | nextLine rest =>
    have h := hturns rest rfl
    exact .of_turn h (fun _ _ => rfl) fun p => .turn h rest nofun

theorem playAll_routine {F : Footprint} (hconsumes : F.consumes)
    (hturns : ∀ rest, .nextLine rest ∈ events → F.turns)
    (hacts : ∀ a, .perform a ∈ events → a.footprint.Within F) : Routine F (playAll events) :=
  .forM fun _ he => play_routine hconsumes (fun rest heq => hturns rest (heq ▸ he))
    fun a heq => hacts a (heq ▸ he)

theorem line_routine (place : Place) (tokens : List Token) :
    Routine .line (playAll (place.line tokens).1) :=
  playAll_routine trivial (fun rest h => absurd h (line_passes place tokens rest)) fun a _ =>
    a.within_line

theorem text_routine (events : List Event) : Routine .text (playAll events) :=
  playAll_routine trivial (fun _ _ => trivial) fun a _ => a.within_line.trans Footprint.line_within

end Routine

/-- What a step does once the events of its line are played. -/
def close : Stop → ParseM Unit
  | .line rest => modify fun p => { p with rest }
  | .text => finish
  | .corrupt span => throw (.corrupt span)

theorem close_routine (stop : Stop) : Routine .closing (close stop) := by
  cases stop with
  | line rest => exact .of_turn trivial (fun _ _ => rfl) fun p => .turn trivial rest id
  | text => exact finish_routine
  | corrupt span => exact .of_throw trivial fun _ => nofun

def started (p : Parse) : Parse := { p with phase := .parsing }

theorem readStep_eq {p : Parse} (hseed : p.seedError = none) :
    readStep p = (do
      playAll (Place.item.line p.rest).1
      close (Place.item.line p.rest).2) p.started := by
  have hstarted : p.started.seedError = none := hseed
  rw [readStep, bind_modify]
  change (get >>= _ : ParseM Unit) p.started = _
  rw [bind_get, hstarted]
  change (get >>= _ : ParseM Unit) p.started = _
  rw [bind_get]
  change (readLine .item p.rest >>= _ : ParseM Unit) p.started = _
  rw [readLine_eq, bind_assoc]
  refine congrFun (congrArg (playAll _ >>= ·) (funext fun _ => ?_)) _
  cases (Place.item.line p.rest).2 <;> rfl

/-- Reserved words that do not fit into a table end the parse in its first step. -/
theorem readStep_unseeded {p : Parse} {e : StoreError} (hseed : p.seedError = some e) :
    readStep p = .error (.storage e .zero) p.started := by
  have hstarted : p.started.seedError = some e := hseed
  rw [readStep, bind_modify]
  change (get >>= _ : ParseM Unit) p.started = _
  rw [bind_get, hstarted]
  rfl

def performance (tokens : List Token) : ParseM Unit := do
  playAll (script .item tokens).1
  close (script .item tokens).2

theorem performance_routine (tokens : List Token) : Routine .text (performance tokens) :=
  (text_routine _).bind fun _ => (close_routine _).mono Footprint.closing_within

/-- The state in which a parse stays. -/
def ended : EStateM.Result Fatal Parse Unit → Parse
  | .ok _ q => q
  | .error cause q => q.fail cause

/-- What a failure does not change is as it was when the last operation ended. -/
theorem ended_keeps {β : Type} (f : Parse → β) (hfail : ∀ p cause, f (fail p cause) = f p)
    (x : ParseM Unit) (p : Parse) : f (ended (x p)) = f (after x p) := by
  unfold after
  cases x p with
  | ok _ q => rfl
  | error cause q => exact hfail q cause

theorem run_of_terminal {p : Parse} (h : p.phase.isTerminal) : p.run = p := by
  rw [run, dif_pos h]

theorem run_of_error {p q : Parse} {cause : Fatal} (hphase : p.phase.isTerminal = false)
    (h : readStep p = .error cause q) : p.run = q.fail cause := by
  have hstep : p.step = q.fail cause := by
    rw [step, if_neg (by simp [hphase]), h]
  rw [run, dif_neg (by simp [hphase]), hstep]
  exact run_of_terminal rfl

theorem run_of_ok {p q : Parse} (hphase : p.phase.isTerminal = false)
    (h : readStep p = .ok () q) : p.run = q.run := by
  have hstep : p.step = q := by
    rw [step, if_neg (by simp [hphase]), h]
  rw [run, dif_neg (by simp [hphase]), hstep]

section Performance

variable {tokens rest : List Token} {events : List Event} {p q : Parse}

theorem performance_of_stop {stop : Stop} (hline : Place.item.line tokens = (events, stop))
    (hstop : ∀ rest, stop ≠ .line rest) :
    performance tokens = (do playAll events; close stop) := by
  rw [performance, script_of_stop hline hstop]

theorem performance_of_line (hline : Place.item.line tokens = (events, .line rest)) :
    performance tokens = (do
      playAll events
      playAll (.nextLine rest :: (script .item rest).1)
      close (script .item rest).2) := by
  rw [performance, script_of_line hline, playAll_append, bind_assoc]

theorem performance_of_nextLine (hline : Place.item.line tokens = (events, .line rest))
    (hplay : playAll events p = .ok () q) :
    performance tokens p = performance rest (started { q with rest }) := by
  rw [performance_of_line hline, bind_of_ok hplay, playAll_cons, bind_assoc]
  rfl

/-- The end of the text ends the parse, and so does an error in the last line. -/
theorem run_of_stop {stop : Stop} (hphase : p.phase.isTerminal = false) (hseed : p.seedError = none)
    (hline : Place.item.line p.rest = (events, stop)) (hstop : ∀ rest, stop ≠ .line rest) :
    p.run = ended (performance p.rest p.started) := by
  have hread := readStep_eq hseed
  rw [hline] at hread
  rw [performance_of_stop hline hstop]
  cases hend : (do playAll events; close stop : ParseM Unit) p.started with
  | error cause q =>
    rw [hend] at hread
    exact run_of_error hphase hread
  | ok _ q =>
    rw [hend] at hread
    obtain ⟨_, r, -, hclose⟩ := bind_ok_iff.1 hend
    rw [run_of_ok hphase hread]
    cases stop with
    | line rest => exact absurd rfl (hstop rest)
    | text =>
      apply run_of_terminal
      rw [finish_phase hclose]
      rfl
    | corrupt span => cases hclose

end Performance

/-- A parse plays the script of its tokens. -/
theorem run_eq {p : Parse} (hphase : p.phase.isTerminal = false) (hseed : p.seedError = none) :
    p.run = ended (performance p.rest p.started) := by
  induction hn : p.rest.length using Nat.strongRecOn generalizing p with
  | ind n ih =>
    subst hn
    cases hline : Place.item.line p.rest with
    | mk events stop =>
    cases stop with
    | text => exact run_of_stop hphase hseed hline (by simp)
    | corrupt span => exact run_of_stop hphase hseed hline (by simp)
    | line rest =>
      have hread := readStep_eq hseed
      rw [hline] at hread
      cases hplay : playAll events p.started with
      | error cause q =>
        have hperformance : performance p.rest p.started = .error cause q := by
          rw [performance_of_line hline]
          exact bind_of_error hplay
        rw [run_of_error hphase (hread.trans (bind_of_error hplay)), hperformance]
        rfl
      | ok _ q =>
        have hroutine := line_routine .item p.rest
        rw [hline] at hroutine
        have hchanges := hroutine.changes_of_ok hplay
        have hparsing : q.phase = .parsing := hchanges.phase id
        have hseed' : q.seedError = none := hchanges.seedError.trans hseed
        rw [run_of_ok hphase (hread.trans (bind_of_ok hplay)), performance_of_nextLine hline hplay]
        exact ih rest.length ((Place.line_length hline).2 rfl) (by rw [hparsing]; rfl) hseed' rfl

/-! The steps of a parse. -/

section Steps

variable {p : Parse}

theorem step_of_terminal (h : p.phase.isTerminal) : p.step = p := by
  rw [step, if_pos h]

theorem step_of_ongoing (h : p.phase.isTerminal = false) : p.step = ended (readStep p) := by
  rw [step, if_neg (by simp [h])]
  cases readStep p <;> rfl

/-- A parse before its first step, with the reserved words or with a table of its own. -/
def opened (source : List UInt8) (settings : Settings) : Option SymbolTable → Parse
  | none => ofSource source settings
  | some symbols => ofTable source settings symbols

theorem opened_facing (source source' : List UInt8) (settings : Settings)
    (table? : Option SymbolTable) :
    opened source' settings table? =
      (opened source settings table?).facing (tokenize source') := by
  cases table? with
  | some symbols => rfl
  | none =>
    simp only [opened, ofSource]
    cases SymbolTable.seeded settings.reserved <;> rfl

/-- A parse that was just opened holds nothing but its symbols. -/
theorem opened_eq (source : List UInt8) (settings : Settings) (table? : Option SymbolTable) :
    ∃ symbols seedError,
      opened source settings table? = { ofTable source settings symbols with seedError } := by
  cases table? with
  | some symbols => exact ⟨symbols, none, rfl⟩
  | none =>
    simp only [opened, ofSource]
    cases SymbolTable.seeded settings.reserved with
    | ok symbols => exact ⟨symbols, none, rfl⟩
    | error e => exact ⟨.empty, some e, rfl⟩

theorem opened_start (source : List UInt8) (settings : Settings) (table? : Option SymbolTable) :
    (opened source settings table?).phase = .fresh ∧
      (opened source settings table?).diagnostics = #[] ∧
      (opened source settings table?).rest = tokenize source := by
  obtain ⟨symbols, seedError, hopened⟩ := opened_eq source settings table?
  rw [hopened]
  exact ⟨rfl, rfl, rfl⟩

end Steps

end Parse

end LabelGraph
