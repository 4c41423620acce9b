import LabelGraph.Proofs.Parse.Braces
import LabelGraph.Proofs.Parse.Verdict
import LabelGraph.Proofs.Token.Lines

/-!
Parsing a text line by line. A step reads up to the newline of its line and no further, and
what it does depends on nothing behind. So a parse that has not come to the end of some whole
lines is the same, whatever text follows them.
-/

namespace LabelGraph

structure Token.Lines (tokens : List Token) : Prop where
  more : ∀ t ∈ tokens, t.kind ≠ .eof
  newline : ∀ t ∈ tokens.getLast?, t.kind = .newline

theorem Token.Lines.tail {t : Token} {rest : List Token} (h : Token.Lines (t :: rest)) :
    Token.Lines rest where
  more := (List.forall_mem_cons.1 h.more).2
  newline u hu := h.newline u (by rw [List.getLast?_cons, Option.mem_def.1 hu]; rfl)

theorem Scanner.LineTokens.lines {s : Scanner} {init : List Token} {eof : Token}
    (h : s.LineTokens init eof) : Token.Lines init where
  more := h.more
  newline t ht := by
    by_cases hnil : s.rest = []
    · rw [h.none hnil] at ht
      cases ht
    · obtain ⟨u, hu, hkind⟩ := h.newline hnil
      rwa [Option.mem_unique ht hu]

/-! The reading of a line. -/

theorem take_ne_newline {place next : Place} {t : Token} {before after : List Action}
    (hmove : place.move t = .take before after next) : t.kind ≠ .newline := by
  intro ht
  cases place <;>
    simp [Place.move, ht, Move.operands, Move.operand, Move.finish, Move.passOver, Move.reject,
      Move.afterAction, Kind.isBoundary] at hmove

theorem endText_eof {place : Place} {t : Token} (hmove : place.move t = .endText) :
    t.kind = .eof := by
  have hbraced := move_braced place t
  rwa [hmove] at hbraced

/-- The first of these lines ends within them, or stops at a corrupt token, and has the same
events whatever tokens follow. -/
theorem line_followed {tokens : List Token} (h : Token.Lines tokens) (hne : tokens ≠ [])
    (place : Place) :
    ∃ events,
      (∃ left, Token.Lines left ∧
        ∀ tail, place.line (tokens ++ tail) = (events, .line (left ++ tail))) ∨
      ∃ span, ∀ tail, place.line (tokens ++ tail) = (events, .corrupt span) := by
  induction tokens generalizing place with
  | nil => exact absurd rfl hne
  | cons t rest ih =>
    by_cases ht : t.kind = .corrupt
    · refine ⟨[], .inr ⟨t.span, fun tail => ?_⟩⟩
      rw [List.cons_append, Place.line, if_pos ht]
    cases hmove : place.move t with
    | take before after next =>
      have hrest : rest ≠ [] := by
        rintro rfl
        exact take_ne_newline hmove (h.newline t rfl)
      obtain ⟨events, hline⟩ := ih h.tail hrest next
      refine ⟨before.map .perform ++ .consume t :: (after.map .perform ++ events), ?_⟩
      have hcons {stop : Stop} {tail : List Token}
          (hnext : next.line (rest ++ tail) = (events, stop)) :
          place.line (t :: rest ++ tail) =
            (before.map .perform ++ .consume t :: (after.map .perform ++ events), stop) := by
        rw [List.cons_append, Place.line, if_neg ht, hmove]
        simp only [hnext]
      refine hline.imp ?_ ?_
      · rintro ⟨left, hleft, hsame⟩
        exact ⟨left, hleft, fun tail => hcons (hsame tail)⟩
      · rintro ⟨span, hsame⟩
        exact ⟨span, fun tail => hcons (hsame tail)⟩
    | endLine before taken =>
      cases taken with
      | true =>
        refine ⟨before.map .perform ++ [.consume t], .inl ⟨rest, h.tail, fun tail => ?_⟩⟩
        rw [List.cons_append, Place.line, if_neg ht, hmove]
      | false =>
        refine ⟨before.map .perform, .inl ⟨t :: rest, h, fun tail => ?_⟩⟩
        rw [List.cons_append, Place.line, if_neg ht, hmove]
    | endText => exact absurd (endText_eof hmove) (h.more t (List.mem_cons_self ..))

namespace Parse

variable {p : Parse} {tokens : List Token} {eof : Token}

/-! The steps. -/

theorem step_ongoing (h : p.step.phase.isTerminal = false) : p.phase.isTerminal = false := by
  cases hphase : p.phase.isTerminal with
  | false => rfl
  | true => rwa [step_of_terminal hphase, hphase] at h

/-- A step that does not end the parse does not fail. -/
theorem readStep_ongoing (h : p.step.phase.isTerminal = false) : readStep p = .ok () p.step := by
  have hended := step_of_ongoing (step_ongoing h)
  cases hread : readStep p with
  | ok _ q => rw [hended, hread]; rfl
  | error cause q =>
    rw [hended, hread] at h
    cases h

theorem seeded_ongoing (h : p.step.phase.isTerminal = false) : p.seedError = none := by
  cases hseed : p.seedError with
  | none => rfl
  | some e =>
    have hread := readStep_ongoing h
    rw [readStep_unseeded hseed] at hread
    cases hread

/-- A step over whole lines that does not end the parse is the same in front of more text. -/
theorem step_followed (hlines : Token.Lines tokens) (heof : eof.kind = .eof)
    (hrest : p.rest = tokens ++ [eof]) (h : p.step.phase.isTerminal = false) :
    ∃ left, Token.Lines left ∧ p.step.rest = left ++ [eof] ∧
      ∀ tail, (p.facing (tokens ++ tail)).step = p.step.facing (left ++ tail) := by
  have hphase := step_ongoing h
  have hseed := seeded_ongoing h
  have hread := readStep_ongoing h
  rw [readStep_eq hseed, hrest] at hread
  obtain ⟨_, r, hplay, hclose⟩ := bind_ok_iff.1 hread
  have hne : tokens ≠ [] := by
    rintro rfl
    have hstop : (Place.item.line ([] ++ [eof])).2 = .text := by
      rw [List.nil_append, Place.line, if_neg (by rw [heof]; decide)]
      simp only [Place.move, heof]
    rw [hstop] at hclose
    rw [finish_phase hclose] at h
    cases h
  have hroutine := line_routine .item (tokens ++ [eof])
  obtain ⟨events, ⟨left, hleft, hline⟩ | ⟨span, hline⟩⟩ := line_followed hlines hne .item
  · rw [hline] at hplay hclose hroutine
    have hstep : p.step = r.facing (left ++ [eof]) := (EStateM.Result.ok.inj hclose).2.symm
    refine ⟨left, hleft, by rw [hstep]; rfl, ?_⟩
    intro tail
    have hongoing : (p.facing (tokens ++ tail)).phase.isTerminal = false := hphase
    have hplay' : playAll events (p.facing (tokens ++ tail)).started =
        .ok () (r.facing (tokens ++ tail)) := by
      have hblind := hroutine.blind id (tokens ++ tail) p.started
      rwa [hplay] at hblind
    have hread' : readStep (p.facing (tokens ++ tail)) = .ok () (r.facing (left ++ tail)) := by
      have hfacing : (p.facing (tokens ++ tail)).rest = tokens ++ tail := rfl
      rw [readStep_eq (p := p.facing (tokens ++ tail)) hseed, hfacing, hline]
      exact (bind_of_ok hplay').trans rfl
    rw [step_of_ongoing hongoing, hread', hstep]
    rfl
  · rw [hline] at hclose
    cases hclose

theorem steps_followed (hlines : Token.Lines tokens) (heof : eof.kind = .eof)
    (hrest : p.rest = tokens ++ [eof]) {k : Nat}
    (h : (Parse.step^[k] p).phase.isTerminal = false) :
    ∃ left, Token.Lines left ∧ (Parse.step^[k] p).rest = left ++ [eof] ∧
      ∀ tail, Parse.step^[k] (p.facing (tokens ++ tail)) =
        (Parse.step^[k] p).facing (left ++ tail) := by
  induction k with
  | zero => exact ⟨tokens, hlines, hrest, fun _ => rfl⟩
  | succ k ih =>
    rw [Function.iterate_succ_apply'] at h ⊢
    obtain ⟨left, hleft, hstep, hsame⟩ := ih (step_ongoing h)
    obtain ⟨left', hleft', hstep', hsame'⟩ := step_followed hleft heof hstep h
    refine ⟨left', hleft', hstep', ?_⟩
    intro tail
    rw [Function.iterate_succ_apply', hsame, hsame']

end Parse

open Utf8

/-- A parse is streaming. As long as it has not come to the end of the lines it reads, it does
the same in front of any text behind these lines, and only the tokens still to be read differ. -/
theorem parse_streaming {lines : List UInt8} (hlines : WholeLines lines) (text : List UInt8)
    (settings : Settings) (table? : Option SymbolTable) {k : Nat}
    (h : (Parse.step^[k] (.opened lines settings table?)).phase = .parsing) :
    Parse.step^[k] (.opened (lines ++ text) settings table?) =
      { Parse.step^[k] (.opened lines settings table?) with
        rest := (Parse.step^[k] (.opened lines settings table?)).rest.dropLast ++
          (tokenize text).map (Token.behind lines) } := by
  obtain ⟨init, eof, htokens, htext⟩ := hlines.tokens
  have hrest : (Parse.opened lines settings table?).rest = init ++ [eof] :=
    (Parse.opened_start lines settings table?).2.2.trans htokens.tokens
  have hongoing : (Parse.step^[k] (.opened lines settings table?)).phase.isTerminal = false := by
    rw [h]
    rfl
  obtain ⟨left, -, hleft, hsame⟩ :=
    Parse.steps_followed htokens.lines htokens.eof hrest hongoing
  rw [Parse.opened_facing lines, htext, hsame, hleft, List.dropLast_concat]
  rfl

/-- A line with an open block and an error, in front of a NUL and a byte outside UTF-8. -/
theorem parse_streaming_corrupt :
    WholeLines [0x7B, 0x2B, 0x0A] ∧
      (Parse.step^[1] (.opened [0x7B, 0x2B, 0x0A] {} (some .empty))).phase = .parsing ∧
      Parse.step^[1] (.opened ([0x7B, 0x2B, 0x0A] ++ [0x00, 0xFF]) {} (some .empty)) =
        { Parse.step^[1] (.opened [0x7B, 0x2B, 0x0A] {} (some .empty)) with
          rest := (Parse.step^[1] (.opened [0x7B, 0x2B, 0x0A] {} (some .empty))).rest.dropLast ++
            (tokenize [0x00, 0xFF]).map (Token.behind [0x7B, 0x2B, 0x0A]) } :=
  ⟨by decide, by decide +kernel, parse_streaming (by decide) _ _ _ (by decide +kernel)⟩

end LabelGraph
