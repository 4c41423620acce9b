import LabelGraph.Proofs.Text.Place
import LabelGraph.Proofs.Token.Cover
import LabelGraph.Proofs.Token.Order

/-!
Where the tokens of a text are reported. The scanner moves its position over every atom that
it passes, skipped or not. So all positions that it hands out are the true ones.
-/

namespace LabelGraph

def Position.IsTrue (source : List UInt8) (p : Position) : Prop := p = .ofOffset source p.offset

/-- The position is one that the reading of the text comes to. -/
def Position.Within (source : List UInt8) (p : Position) : Prop :=
  ∃ front, front <+: Utf8.decode source ∧ p = Position.start.advance front

theorem Position.Within.isTrue {source : List UInt8} {p : Position} (h : p.Within source) :
    p.IsTrue source := by
  obtain ⟨front, ⟨back, hsource⟩, rfl⟩ := h
  rw [IsTrue, Position.advance_eq_ofOffset hsource.symm]
  rfl

namespace Scanner

variable {s t : Scanner}

def afterCalls (s : Scanner) : Nat → Scanner
  | 0 => s
  | n + 1 => s.next.2.afterCalls n

theorem call_eq (s : Scanner) (n : Nat) : s.call n = (s.afterCalls n).next.1 := by
  induction n generalizing s with
  | zero => rfl
  | succ n ih => exact ih s.next.2

theorem cutOpenString_stop (s : Scanner) (body : List Atom) :
    (s.cutOpenString body).1.span.stop = (s.cutOpenString body).2.cursor := by
  unfold cutOpenString
  split
  · rfl
  · dsimp only
    split <;> rfl

/-- A token ends where the scanner goes on. -/
theorem cutToken_stop (s : Scanner) : s.cutToken.1.span.stop = s.cutToken.2.cursor := by
  unfold cutToken
  split
  · rfl
  · rfl
  · split
    · rfl
    · split
      · exact cutOpenString_stop s _
      · rfl

theorem next_ahead (s : Scanner) : s.Ahead s.next.2 :=
  (skip_ahead s).trans (cutToken_ahead s.skip).1

theorem afterCalls_ahead (s : Scanner) (n : Nat) : s.Ahead (s.afterCalls n) := by
  induction n generalizing s with
  | zero => exact .refl s
  | succ n ih => exact (next_ahead s).trans (ih s.next.2)

/-- What a scanner of a text has passed, and what it has ahead. -/
theorem Ahead.split {source : List UInt8} (h : (ofBytes source).Ahead s) :
    ∃ front, Utf8.decode source = front ++ s.rest ∧ s.cursor = Position.start.advance front := by
  obtain ⟨n, hrest, hcursor⟩ := h
  refine ⟨(Utf8.decode source).take n, ?_, hcursor⟩
  rw [hrest]
  exact (List.take_append_drop n _).symm

theorem Ahead.within {source : List UInt8} (h : (ofBytes source).Ahead s) :
    s.cursor.Within source := by
  obtain ⟨front, hdecode, hcursor⟩ := h.split
  exact ⟨front, ⟨s.rest, hdecode.symm⟩, hcursor⟩

/-- Wherever a scanner comes to in a text, it knows its true position. -/
theorem Ahead.isTrue {source : List UInt8} (h : (ofBytes source).Ahead s) :
    s.cursor.IsTrue source :=
  h.within.isTrue

end Scanner

def Token.Placed (source : List UInt8) (t : Token) : Prop :=
  t.span.start.IsTrue source ∧ t.span.stop.IsTrue source

def Token.Within (source : List UInt8) (t : Token) : Prop :=
  t.span.start.Within source ∧ t.span.stop.Within source

theorem Scanner.call_within (source : List UInt8) (n : Nat) :
    ((Scanner.ofBytes source).call n).Within source := by
  have hahead := (afterCalls_ahead (ofBytes source) n).trans (skip_ahead _)
  rw [call_eq]
  constructor
  · rw [start_next]
    exact hahead.within
  · have hstop := cutToken_stop ((ofBytes source).afterCalls n).skip
    rw [next, hstop]
    exact (hahead.trans (cutToken_ahead _).1).within

theorem Scanner.call_placed (source : List UInt8) (n : Nat) :
    ((Scanner.ofBytes source).call n).Placed source :=
  (call_within source n).imp Position.Within.isTrue Position.Within.isTrue

/-- All positions of a scanner are true: its own after any number of calls, and those of every
token of the text, the last one included, and of every answer behind it. -/
theorem scan_placed (source : List UInt8) :
    (∀ n, ((Scanner.ofBytes source).afterCalls n).cursor.IsTrue source) ∧
      (∀ n, ((Scanner.ofBytes source).call n).Placed source) ∧
      ∀ t ∈ tokenize source, t.Placed source := by
  refine ⟨fun n => (Scanner.afterCalls_ahead _ n).isTrue, Scanner.call_placed source, ?_⟩
  intro t ht
  obtain ⟨n, hn⟩ := List.mem_iff_getElem?.1 ht
  have hcall := (Scanner.ofBytes source).call_tokens n
  rw [← tokenize, hn, Option.some_or] at hcall
  rw [Option.some.inj hcall]
  exact Scanner.call_placed source n

end LabelGraph
