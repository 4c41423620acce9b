import LabelGraph.Proofs.Parse.Language
import LabelGraph.Proofs.Parse.Outcome
import LabelGraph.Proofs.Token.Stream

/-!
The parser accepts its grammar. A parse reports a syntax error for each token that its
script rejects, and for no other reason. So it reports none exactly if the tokens of the
text are a sequence of items.
-/

namespace LabelGraph

/-- The diagnostic says that a token is malformed or cannot stand where it does. -/
def Diagnostic.isSyntaxError (d : Diagnostic) : Bool :=
  d.code == Code.lexical ||
    d.code == Code.unexpected && "unexpected ".toList.isPrefixOf d.message.toList

namespace Scanner

/-- The tokens of a text end with its end. -/
theorem tokens_ended (s : Scanner) : Grammar.Ended s.tokens := by
  induction hn : s.rest.length using Nat.strongRecOn generalizing s with
  | ind n ih =>
    subst hn
    by_cases hend : s.next.1.kind = .eof
    · rw [tokens_of_eof hend]
      exact .last hend
    · rw [tokens_of_more hend]
      exact .cons hend (ih _ (length_next s hend) s.next.2 rfl)

end Scanner

namespace Parse

variable {p q : Parse} {a : Action}

@[simp] theorem unexpected_isSyntaxError (t : Token) (wanted : Wanted) :
    (unexpected t wanted).isSyntaxError := by
  unfold unexpected
  split
  · rfl
  · simp [Diagnostic.isSyntaxError, toString, String.toList_append]

@[simp] theorem outsideLabel_isSyntaxError (name : Token) :
    (outsideLabel name).isSyntaxError = false := by
  have hmessage : "unexpected ".toList.isPrefixOf (outsideLabel name).message.toList = false := by
    simp only [outsideLabel, toString, String.toList_append]
    rfl
  rw [Diagnostic.isSyntaxError, hmessage]
  rfl

def rejection? : Event → Option Diagnostic
  | .perform (.reject t wanted) => some (unexpected t wanted)
  | _ => none

def syntaxErrors (p : Parse) : List Diagnostic := p.diagnostics.toList.filter (·.isSyntaxError)

theorem syntaxErrors_push {d : Diagnostic} (h : q.diagnostics = p.diagnostics.push d) :
    q.syntaxErrors = p.syntaxErrors ++ if d.isSyntaxError then [d] else [] := by
  rw [syntaxErrors, h, Array.toList_push, List.filter_append]
  cases hd : d.isSyntaxError <;> simp [syntaxErrors, hd]

theorem syntaxErrors_other {d : Diagnostic} (h : q.diagnostics = p.diagnostics.push d)
    (hd : d.isSyntaxError = false) : q.syntaxErrors = p.syntaxErrors := by
  rw [syntaxErrors_push h, hd]
  simp

/-- Reports that are no syntax errors add none. -/
theorem Changes.syntaxErrors {F : Footprint} (h : Changes F p q)
    (hF : ∀ d, F.reports d → d.isSyntaxError = false) : q.syntaxErrors = p.syntaxErrors := by
  obtain ⟨more, hmore, hreports⟩ := h.reports
  have hnone : more.filter (·.isSyntaxError) = [] :=
    List.filter_eq_nil_iff.2 fun d hd => by simp [hF d (hreports d hd)]
  rw [Parse.syntaxErrors, hmore, List.filter_append, hnone, List.append_nil]
  rfl

theorem unresolved_isSyntaxError {d : Diagnostic} (h : d.code = Code.unresolved) :
    d.isSyntaxError = false := by
  rw [Diagnostic.isSyntaxError, h]
  rfl

theorem reports_isSyntaxError {d : Diagnostic} (h : a.Reports d)
    (ha : rejection? (.perform a) = none) : d.isSyntaxError = false := by
  cases h with
  | reject => cases ha
  | outside => exact outsideLabel_isSyntaxError _
  | _ => rfl

/-- An event reports a syntax error exactly if it rejects a token. -/
theorem play_syntaxErrors (e : Event) (p : Parse) :
    (after (play e) p).syntaxErrors = p.syntaxErrors ++ (rejection? e).toList := by
  cases e with
  | consume t => exact (List.append_nil _).symm
  | nextLine rest => exact (List.append_nil _).symm
  | perform a =>
    cases hrejection : rejection? (.perform a) with
    | none =>
      rw [Option.toList_none, List.append_nil]
      exact ((act_routine a).changes p).syntaxErrors fun _ hd => reports_isSyntaxError hd hrejection
    | some d =>
      cases a with
      | reject t wanted =>
        cases hrejection
        have hpush := congrArg diagnostics (after_report (unexpected t wanted) p)
        have hreport := syntaxErrors_push hpush
        rwa [if_pos (unexpected_isSyntaxError t wanted)] at hreport
      | _ => cases hrejection

theorem playAll_syntaxErrors {events : List Event} (h : playAll events p = .ok () q) :
    q.syntaxErrors = p.syntaxErrors ++ events.filterMap rejection? := by
  induction events generalizing p with
  | nil =>
    cases h
    exact (List.append_nil _).symm
  | cons e events ih =>
    obtain ⟨_, r, hplay, hmore⟩ := bind_ok_iff.1 h
    have hfirst := play_syntaxErrors e p
    rw [after_of_ok hplay] at hfirst
    rw [ih hmore, hfirst, List.append_assoc]
    cases hevent : rejection? e <;> simp [hevent]

/-- The syntax errors of a parse are the reports of the rejected tokens, in their order. -/
theorem Finishes.syntaxErrors {source : List UInt8} {settings : Settings} {played resolved : Parse}
    (h : Finishes source settings played resolved) :
    (parse source settings).syntaxErrors =
      (script .item (tokenize source)).1.filterMap rejection? := by
  obtain ⟨⟨-, hplay, hresolve⟩, hend⟩ := h
  have hstart : (ofSource source settings).started.syntaxErrors = [] := by
    obtain ⟨symbols, seedError, hsource, -⟩ := ofSource_eq source settings
    rw [hsource]
    rfl
  have hresolved : resolved.syntaxErrors =
      (script .item (tokenize source)).1.filterMap rejection? := by
    have hwaiting := resolvePending_routine.changes_of_ok hresolve
    rw [hwaiting.syntaxErrors fun _ hd => unresolved_isSyntaxError hd.2,
      playAll_syntaxErrors hplay, hstart, List.nil_append]
  rcases hend with hend | ⟨span, hend⟩
  · rw [hend]
    exact hresolved
  · rw [hend, ← hresolved]
    exact syntaxErrors_other rfl rfl

theorem noReject_iff_rejections (events : List Event) :
    Grammar.NoReject (performed events) ↔ events.filterMap rejection? = [] := by
  rw [List.filterMap_eq_nil_iff]
  constructor
  · intro h e he
    cases e with
    | perform a =>
      cases a with
      | reject t wanted => exact absurd (mem_performed.2 he) (h t wanted)
      | _ => rfl
    | _ => rfl
  · intro h t wanted hmem
    exact absurd (h _ (mem_performed.1 hmem)) (Option.some_ne_none _)

end Parse

/-- A parse that is not cut short reports no syntax error exactly if the tokens of the text
are a sequence of items. Then it performs what the items stand for, in their order, and comes
to its end. -/
theorem accepts_iff_items (source : List UInt8) (settings : Settings)
    (hcorrupt : ∀ t ∈ tokenize source, t.kind ≠ .corrupt) (hlimit : settings.maxDiagnostics = none)
    (hroom : ¬ (parse source settings).FailedWith Code.capacity) :
    ((∀ d ∈ (parse source settings).diagnostics, d.isSyntaxError = false) ↔
      ∃ actions, Grammar.Items (tokenize source) actions) ∧
    ∀ actions, Grammar.Items (tokenize source) actions →
      performed (script .item (tokenize source)).1 = actions ∧ ∃ played,
        Parse.playAll (script .item (tokenize source)).1 (Parse.ofSource source settings).started =
          .ok () played ∧
        parse source settings = Parse.ended (Parse.finish played) := by
  obtain ⟨played, resolved, hfinishes⟩ := Parse.finishes_of_unlimited hcorrupt hlimit hroom
  have hitems (actions : List Action) :
      Grammar.Performs (script .item (tokenize source)).1 actions ↔
        Grammar.Items (tokenize source) actions :=
    Grammar.performs_iff (Scanner.tokens_ended _) hcorrupt (by simp) actions
  constructor
  · have hnone : (∀ d ∈ (parse source settings).diagnostics, d.isSyntaxError = false) ↔
        (parse source settings).syntaxErrors = [] := by
      simp [Parse.syntaxErrors, List.filter_eq_nil_iff]
    rw [hnone, hfinishes.syntaxErrors, ← Parse.noReject_iff_rejections]
    simp only [← hitems, Grammar.Performs, exists_eq_left']
  · intro actions hactions
    refine ⟨((hitems actions).2 hactions).1, played, hfinishes.1.play, ?_⟩
    rw [hfinishes.parse_eq, Parse.ended_finish hfinishes.1.resolve]

/-- A line with a memory operand that a brace ends. -/
theorem accepts_iff_items_memory_operand :
    ((∀ d ∈ (parse "a: mov [a + 1], -2 \x7b\n\x7d\n".toUTF8.toList
          { maxDiagnostics := none }).diagnostics, d.isSyntaxError = false) ↔
      ∃ actions,
        Grammar.Items (tokenize "a: mov [a + 1], -2 \x7b\n\x7d\n".toUTF8.toList) actions) ∧
    ∀ actions, Grammar.Items (tokenize "a: mov [a + 1], -2 \x7b\n\x7d\n".toUTF8.toList) actions →
      performed (script .item (tokenize "a: mov [a + 1], -2 \x7b\n\x7d\n".toUTF8.toList)).1 =
        actions ∧ ∃ played,
        Parse.playAll (script .item (tokenize "a: mov [a + 1], -2 \x7b\n\x7d\n".toUTF8.toList)).1
            (Parse.ofSource "a: mov [a + 1], -2 \x7b\n\x7d\n".toUTF8.toList
              { maxDiagnostics := none }).started =
          .ok () played ∧
        parse "a: mov [a + 1], -2 \x7b\n\x7d\n".toUTF8.toList { maxDiagnostics := none } =
          Parse.ended (Parse.finish played) :=
  accepts_iff_items _ _ (by decide +kernel) rfl (Parse.not_capacity_of_short (by decide +kernel))

end LabelGraph
