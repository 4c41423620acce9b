import LabelGraph.Proofs.Parse.Comparison
import LabelGraph.Proofs.Parse.Pace
import LabelGraph.Proofs.Parse.Segment

/-!
Recovery from errors. However much of the script is played, of each segment of the text one
token at most is reported as a syntax error. A parse without a limit on its diagnostics goes on
behind it, and up to the boundary nothing but its position changes.
-/

namespace LabelGraph

open Comparison (report_unlimited)

/-! The events that are played. -/

section Played

open Parse (rejection? unexpected)

variable {segment : List Token} {segs : List (List Token)} {parts : List (List Event)}
  {first events played more : List Event} {fault : Option Diagnostic}

/-- The segment has no fault, or the fault is the rejection of one of its tokens. The rejection
is among the events that are played, and those that follow it move over the tokens in front of
the boundary. -/
def Rejects (events played : List Event) (segment : List Token) (fault : Option Diagnostic) :
    Prop :=
  ∀ d ∈ fault, ∃ front t behind wanted before after, segment = front ++ t :: behind ∧
    d = unexpected t wanted ∧ before ++ [.perform (.reject t wanted)] <+: played ∧
    events = before ++ .perform (.reject t wanted) :: (skipping (t :: behind) ++ after)

theorem Rejects.behind (h : Rejects events played segment fault)
    (hplayed : ∀ before e, before ++ [e] <+: played → first ++ (before ++ [e]) <+: more) :
    Rejects (first ++ events) more segment fault := by
  intro d hd
  obtain ⟨front, t, behind, wanted, before, after, hsegment, hfault, hbefore, rfl⟩ := h d hd
  refine ⟨front, t, behind, wanted, first ++ before, after, hsegment, hfault, ?_, ?_⟩
  · rw [List.append_assoc]
    exact hplayed before _ hbefore
  · rw [List.append_assoc]

theorem prefix_append_cases {later : List Event} (h : played <+: first ++ later) :
    played <+: first ∨ ∃ more, played = first ++ more ∧ more <+: later := by
  obtain ⟨tail, htail⟩ := h
  rcases List.append_eq_append_iff.1 htail with ⟨more, hfirst, -⟩ | ⟨more, hplayed, hlater⟩
  · exact .inl ⟨more, hfirst.symm⟩
  · exact .inr ⟨more, hplayed, tail, hlater.symm⟩

theorem rejections_initial (h : events.filterMap rejection? = []) (hplayed : played <+: events) :
    played.filterMap rejection? = [] :=
  List.prefix_nil.1 (h ▸ hplayed.filterMap rejection?)

/-- What is played of the events of a segment rejects one token at most. -/
theorem Share.rejects (h : Share segment first) (hplayed : played <+: first) :
    ∃ fault, played.filterMap rejection? = fault.toList ∧
      ∀ events more, Rejects (first ++ events) (played ++ more) segment fault := by
  have hnone (h : played.filterMap rejection? = []) : ∃ fault,
      played.filterMap rejection? = fault.toList ∧
        ∀ events more, Rejects (first ++ events) (played ++ more) segment fault :=
    ⟨none, h, fun _ _ _ hd => by cases hd⟩
  cases h with
  | clean h => exact hnone (rejections_initial h hplayed)
  | @fault front behind t wanted before after hbefore hafter =>
    rcases prefix_append_cases hplayed with hplayed | ⟨more, rfl, hmore⟩
    · exact hnone (rejections_initial hbefore hplayed)
    · rcases List.prefix_cons_iff.1 hmore with rfl | ⟨later, rfl, hlater⟩
      · exact hnone (by rw [List.append_nil, hbefore])
      · have hskipped := rejections_append (rejections_skipping (t :: behind)) hafter
        have hreject : rejection? (.perform (.reject t wanted)) = some (unexpected t wanted) := rfl
        refine ⟨some (unexpected t wanted), ?_, ?_⟩
        · rw [List.filterMap_append, hbefore, List.filterMap_cons_some hreject,
            rejections_initial hskipped hlater]
          rfl
        · rintro events more _ ⟨⟩
          refine ⟨front, t, behind, wanted, before, after ++ events, rfl, rfl, ?_, ?_⟩
          · exact ⟨later ++ more, by simp⟩
          · simp

theorem reduceOption_cons (fault : Option Diagnostic) (faults : List (Option Diagnostic)) :
    (fault :: faults).reduceOption = fault.toList ++ faults.reduceOption := by
  cases fault <;> rfl

/-- However many of the events are played, they reject one token of each segment at most. -/
theorem shares_rejects (h : List.Forall₂ Share segs parts) (hplayed : played <+: parts.flatten) :
    ∃ faults, played.filterMap rejection? = faults.reduceOption ∧
      List.Forall₂ (Rejects parts.flatten played) segs faults := by
  induction h generalizing played with
  | nil =>
    rw [List.prefix_nil.1 hplayed]
    exact ⟨[], rfl, .nil⟩
  | @cons segment part segs parts hshare _ ih =>
    rw [List.flatten_cons] at hplayed ⊢
    rcases prefix_append_cases hplayed with hplayed | ⟨later, rfl, hlater⟩
    · obtain ⟨fault, hfault, hrejects⟩ := hshare.rejects hplayed
      obtain ⟨faults, hnone, hmore⟩ := ih List.nil_prefix
      refine ⟨fault :: faults, ?_, .cons ?_ (hmore.imp fun _ _ hlater => hlater.behind ?_)⟩
      · rw [reduceOption_cons, hfault, ← hnone, List.filterMap_nil, List.append_nil]
      · exact List.append_nil played ▸ hrejects _ []
      · intro before e hbefore
        exact absurd (List.prefix_nil.1 hbefore) (by simp)
    · obtain ⟨fault, hfault, hrejects⟩ := hshare.rejects List.prefix_rfl
      obtain ⟨faults, hfaults, hmore⟩ := ih hlater
      refine ⟨fault :: faults, ?_, .cons (hrejects _ _) (hmore.imp fun _ _ h => h.behind ?_)⟩
      · rw [reduceOption_cons, List.filterMap_append, hfault, hfaults]
      · exact fun _ _ hbefore => (List.prefix_append_right_inj part).2 hbefore

end Played

@[simp] theorem Fatal.not_syntaxError (limit : Option UInt32) (cause : Fatal) :
    (cause.diagnostic limit).isSyntaxError = false := by
  have hcodes : ∀ code ∈ Code.fatal, (code == Code.lexical) = false ∧
      (code == Code.unexpected) = false := by decide
  obtain ⟨hlexical, hunexpected⟩ := hcodes _ (cause.code_fatal limit)
  rw [Diagnostic.isSyntaxError, hlexical, hunexpected]
  rfl

namespace Parse

/-! The syntax errors of a parse without a limit. -/

section Unlimited

variable {p q : Parse} {e : Event}

@[simp] theorem fail_syntaxErrors (p : Parse) (cause : Fatal) :
    (p.fail cause).syntaxErrors = p.syntaxErrors :=
  syntaxErrors_other rfl (cause.not_syntaxError _)

/-- Without a limit no event fails that rejects a token. -/
theorem play_unlimited {cause : Fatal} (hlimit : p.settings.maxDiagnostics = none)
    (h : play e p = .error cause q) : rejection? e = none := by
  cases e with
  | consume t => rfl
  | nextLine rest => rfl
  | perform a =>
    cases a with
    | reject t wanted =>
      rw [play, act, report_unlimited hlimit] at h
      cases h
    | _ => rfl

/-- The syntax errors are those of the events that are played, of which the one that fails is
none. -/
theorem playAll_unlimited (events : List Event) (hlimit : p.settings.maxDiagnostics = none) :
    ∃ played q, played <+: events ∧ playAll played p = .ok () q ∧
      (after (playAll events) p).syntaxErrors =
        p.syntaxErrors ++ played.filterMap rejection? := by
  induction events generalizing p with
  | nil => exact ⟨[], p, List.prefix_rfl, rfl, (List.append_nil _).symm⟩
  | cons e events ih =>
    have hfirst := play_syntaxErrors e p
    rw [playAll_cons]
    cases hplay : play e p with
    | error cause q =>
      rw [after_of_error hplay, play_unlimited hlimit hplay] at hfirst
      rw [after_bind_of_error hplay]
      exact ⟨[], p, List.nil_prefix, rfl, hfirst⟩
    | ok _ q =>
      have hroutine : Routine .text (play e) := play_routine trivial (fun _ _ => trivial) fun a _ =>
        a.within_line.trans Footprint.line_within
      have hsettings : q.settings = p.settings := (hroutine.changes_of_ok hplay).settings
      rw [after_of_ok hplay] at hfirst
      rw [after_bind_of_ok hplay]
      obtain ⟨played, r, hplayed, hmore, herrors⟩ := ih (hsettings ▸ hlimit)
      refine ⟨e :: played, r, (List.prefix_cons_inj e).2 hplayed, ?_, ?_⟩
      · rw [playAll_cons, bind_of_ok hplay, hmore]
      · rw [herrors, hfirst, List.append_assoc]
        cases hevent : rejection? e <;> simp [hevent]

end Unlimited

theorem performance_syntaxErrors (tokens : List Token) (p : Parse) :
    (after (performance tokens) p).syntaxErrors =
      (after (playAll (script .item tokens).1) p).syntaxErrors := by
  rw [performance]
  cases hplay : playAll (script .item tokens).1 p with
  | error cause q => rw [after_bind_of_error hplay, after_of_error hplay]
  | ok _ q =>
    rw [after_bind_of_ok hplay, after_of_ok hplay]
    exact ((close_routine _).changes q).syntaxErrors fun _ hd => unresolved_isSyntaxError hd.2

section Stages

variable {source : List UInt8} {settings : Settings} {table? : Option SymbolTable}

theorem opened_unlimited (source : List UInt8) (table? : Option SymbolTable)
    (hlimit : settings.maxDiagnostics = none) :
    (opened source settings table?).started.settings.maxDiagnostics = none ∧
      (opened source settings table?).started.syntaxErrors = [] := by
  cases table? with
  | some symbols => exact ⟨hlimit, rfl⟩
  | none =>
    simp only [opened, ofSource]
    cases SymbolTable.seeded settings.reserved <;> exact ⟨hlimit, rfl⟩

/-- A parse without a limit comes to a stage behind which it reports no syntax error more. -/
theorem stage_unlimited (source : List UInt8) (table? : Option SymbolTable)
    (hlimit : settings.maxDiagnostics = none) :
    ∃ played p, Stage source settings table? played p ∧
      (opened source settings table?).run.syntaxErrors = played.filterMap rejection? := by
  have hongoing := opened_ongoing source settings table?
  have hrest := (opened_start source settings table?).2.2
  obtain ⟨hstart, hnone⟩ := opened_unlimited source table? hlimit
  cases hseed : (opened source settings table?).seedError with
  | some e =>
    refine ⟨[], _, ⟨List.nil_prefix, rfl⟩, ?_⟩
    rw [run_of_error hongoing (readStep_unseeded hseed), fail_syntaxErrors, hnone]
    rfl
  | none =>
    obtain ⟨played, p, hplayed, hplay, herrors⟩ :=
      playAll_unlimited (script .item (tokenize source)).1 hstart
    refine ⟨played, p, ⟨planned_of_seeded hseed ▸ hplayed, hplay⟩, ?_⟩
    rw [run_eq hongoing hseed, hrest, ended_keeps syntaxErrors fail_syntaxErrors,
      performance_syntaxErrors, herrors, hnone, List.nil_append]

theorem playAll_consume (tokens : List Token) (p : Parse) :
    playAll (tokens.map .consume) p =
      .ok () { p with previous := lastSpan p.previous tokens } := by
  induction tokens generalizing p with
  | nil => rfl
  | cons t tokens ih =>
    have hlast := lastSpan_append p.previous [t] tokens
    rw [List.singleton_append] at hlast
    rw [List.map_cons, playAll_cons, play, consume, bind_modify, ih, hlast]
    rfl

theorem Stage.skip {events : List Event} {p : Parse} (h : Stage source settings table? events p)
    {passed : List Token}
    (hnext : events ++ passed.map .consume <+: planned source settings table?) :
    Stage source settings table? (events ++ passed.map .consume)
      { p with previous := lastSpan p.previous passed } := by
  refine ⟨hnext, ?_⟩
  rw [playAll_append, bind_of_ok h.play, playAll_consume]

/-- The token `t` is reported, behind these events and in this state. Behind it the parse moves
over the tokens in front of the boundary, and nothing but its position changes. -/
structure Recovers (source : List UInt8) (settings : Settings) (table? : Option SymbolTable)
    (t : Token) (behind : List Token) (d : Diagnostic) (events : List Event) (p : Parse) :
    Prop where
  span : d.span = t.span
  lexical : d.code = Code.lexical ↔ t.kind = .error
  rejected : ∃ wanted, events.getLast? = some (.perform (.reject t wanted))
  reported : p.diagnostics.back? = some d
  quiet : ∀ passed, passed <+: upToBoundary (t :: behind) →
    Stage source settings table? (events ++ passed.map .consume)
      { p with previous := lastSpan p.previous passed }

/-- The parse reports no syntax error in the segment, or one, at a token of the segment, behind
which it recovers. -/
def Yields (source : List UInt8) (settings : Settings) (table? : Option SymbolTable)
    (segment : List Token) (fault : Option Diagnostic) : Prop :=
  ∀ d ∈ fault, ∃ front t behind events p, segment = front ++ t :: behind ∧
    Recovers source settings table? t behind d events p

theorem unexpected_lexical (t : Token) (wanted : Wanted) :
    (unexpected t wanted).code = Code.lexical ↔ t.kind = .error := by
  unfold unexpected
  split
  · next ht => exact ⟨fun _ => ht, fun _ => rfl⟩
  · next ht =>
    exact ⟨fun hcode => absurd hcode (by decide : Code.unexpected ≠ Code.lexical),
      fun herror => absurd herror ht⟩

/-- A rejection that is played is followed by recovery, as the script says. -/
theorem Stage.recovers {played before after : List Event} {p : Parse} {t : Token}
    {wanted : Wanted} {behind : List Token} (h : Stage source settings table? played p)
    (hbefore : before ++ [.perform (.reject t wanted)] <+: played)
    (hplanned : planned source settings table? =
      before ++ .perform (.reject t wanted) :: (skipping (t :: behind) ++ after)) :
    ∃ q, Recovers source settings table? t behind (unexpected t wanted)
      (before ++ [.perform (.reject t wanted)]) q := by
  obtain ⟨later, rfl⟩ := hbefore
  obtain ⟨q, hq, -⟩ := h.split
  obtain ⟨r, -, hreject⟩ := hq.split
  refine ⟨q, ?_⟩
  constructor
  case span => exact Parse.unexpected_span t wanted
  case lexical => exact unexpected_lexical t wanted
  case rejected => exact ⟨wanted, List.getLast?_concat⟩
  case reported =>
    rw [playAll_cons] at hreject
    obtain ⟨_, q', hreport, hnone⟩ := bind_ok_iff.1 hreject
    cases hnone
    have hpush := (after_of_ok hreport).symm.trans (after_report (unexpected t wanted) r)
    rw [hpush, Array.back?_push]
  case quiet =>
    intro passed hpassed
    refine hq.skip ?_
    rw [hplanned, List.append_assoc, List.singleton_append, List.prefix_append_right_inj,
      List.prefix_cons_inj]
    exact (hpassed.map Event.consume).trans (List.prefix_append ..)

theorem planned_cases (source : List UInt8) (settings : Settings) (table? : Option SymbolTable) :
    planned source settings table? = (script .item (tokenize source)).1 ∨
      planned source settings table? = [] := by
  unfold planned
  split
  · exact .inl rfl
  · exact .inr rfl

/-- What is played is what the script says. -/
theorem Stage.scripted {played : List Event} {p : Parse}
    (h : Stage source settings table? played p) :
    played <+: (script .item (tokenize source)).1 := by
  rcases planned_cases source settings table? with hplanned | hplanned
  · exact hplanned ▸ h.begins
  · exact List.prefix_nil.1 (hplanned ▸ h.begins) ▸ List.nil_prefix

theorem Stage.yields {played : List Event} {p : Parse} (h : Stage source settings table? played p)
    {segment : List Token} {fault : Option Diagnostic}
    (hrejects : Rejects (script .item (tokenize source)).1 played segment fault) :
    Yields source settings table? segment fault := by
  intro d hd
  obtain ⟨front, t, behind, wanted, before, after, hsegment, rfl, hbefore, hscript⟩ :=
    hrejects d hd
  have hbegins := hbefore.trans h.begins
  rcases planned_cases source settings table? with hplanned | hplanned
  · obtain ⟨q, hq⟩ := h.recovers hbefore (hplanned.trans hscript)
    exact ⟨front, t, behind, _, q, hsegment, hq⟩
  · rw [hplanned, List.prefix_nil] at hbegins
    exact absurd hbegins (by simp)

end Stages

end Parse

open Parse

/-- A parse without a limit reports once and recovers. The tokens that it looks at are cut
behind each boundary, and of each segment it reports one syntax error at most, at one of the
tokens of the segment. It says that the input is malformed exactly if the token is. The tokens
from there up to the boundary change nothing but the position of the parse. -/
theorem parse_recovers (source : List UInt8) (settings : Settings) (table? : Option SymbolTable)
    (hlimit : settings.maxDiagnostics = none) :
    (segments (intact (tokenize source))).flatten = intact (tokenize source) ∧
      (∀ before segment behind,
        segments (intact (tokenize source)) = before ++ segment :: behind →
          ∃ front last, segment = front ++ [last] ∧ (∀ t ∈ front, ¬ t.kind.isBoundary) ∧
            (behind ≠ [] → last.kind.isBoundary)) ∧
      ∃ faults, (opened source settings table?).run.syntaxErrors = faults.reduceOption ∧
        List.Forall₂ (Yields source settings table?) (segments (intact (tokenize source)))
          faults := by
  refine ⟨flatten_segments _, fun _ _ _ => segments_cut, ?_⟩
  obtain ⟨played, p, hstage, herrors⟩ := stage_unlimited source table? hlimit
  obtain ⟨parts, hshares, hscript, -⟩ := script_shares .item (tokenize source)
  have hplayed : played <+: parts.flatten := hscript ▸ hstage.scripted
  obtain ⟨faults, hfaults, hrejects⟩ := shares_rejects hshares hplayed
  refine ⟨faults, herrors.trans hfaults, hrejects.imp fun _ _ hrejected => ?_⟩
  exact hstage.yields (hscript ▸ hrejected)

/-- A line of two wrong tokens, of which the first one is reported. -/
theorem parse_recovers_line :
    ({ maxDiagnostics := none } : Settings).maxDiagnostics = none ∧
      ∃ faults, faults.reduceOption.length = 1 ∧
        (opened [0x2B, 0x2B, 0x0A] { maxDiagnostics := none } (some .empty)).run.syntaxErrors =
          faults.reduceOption ∧
        List.Forall₂ (Yields [0x2B, 0x2B, 0x0A] { maxDiagnostics := none } (some .empty))
          (segments (intact (tokenize [0x2B, 0x2B, 0x0A]))) faults := by
  obtain ⟨-, -, faults, herrors, hyields⟩ :=
    parse_recovers [0x2B, 0x2B, 0x0A] { maxDiagnostics := none } (some .empty) rfl
  refine ⟨rfl, faults, ?_, herrors, hyields⟩
  have hend : (Parse.step^[2] (opened [0x2B, 0x2B, 0x0A] { maxDiagnostics := none }
    (some .empty))).phase.isTerminal := by decide +kernel
  rw [← herrors, ← run_of_steps hend]
  decide +kernel

end LabelGraph
