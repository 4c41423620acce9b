import LabelGraph.Proofs.Text.Slice
import LabelGraph.Proofs.Token.Fence

/-!
A lexer over one piece of valid text. It reports what it finds by byte offsets, and can be
moved on by a number of bytes. It finds the tokens that the scanner cuts off, and the same
blanks and comments in front of them.
-/

namespace LabelGraph

open Atom Lexeme Utf8

namespace Lexeme

def trivia (atoms : List Atom) : Nat :=
  let blanks := run isBlank atoms
  if headIs startsComment (atoms.drop blanks) then
    blanks + run isCommentChar (atoms.drop blanks)
  else blanks

variable {atoms fence : List Atom} {text : List Char}

theorem trivia_le (atoms : List Atom) : trivia atoms ≤ atoms.length := by
  have hblanks := run_le isBlank atoms
  have hcomment := run_le isCommentChar (atoms.drop (run isBlank atoms))
  rw [List.length_drop] at hcomment
  simp only [trivia]
  split <;> omega

theorem trivia_fence (h : Fenced fence) (atoms : List Atom) :
    trivia (atoms ++ fence) = trivia atoms := by
  simp only [trivia, run_fence h, List.drop_append_of_le_length (run_le _ _), headIs_fence h]

theorem not_comment_of_blank {c : Char} (hc : isBlank c) : startsComment c = false := by
  rcases blank_cases hc with rfl | rfl | rfl | rfl <;> rfl

/-- In a piece of blanks and a comment, a sign of a comment is where the comment starts. -/
theorem headIs_of_trivia (h : text.length ≤ trivia (text.map .char)) :
    headIs startsComment ((text.map .char).drop (run isBlank (text.map .char))) =
      text.any startsComment := by
  have hblanks : (text.take (run isBlank (text.map .char))).any startsComment = false := by
    rw [List.any_eq_false]
    intro c hc
    have hblank := all_take_run isBlank (text.map .char) (.char c)
      (by rw [← List.map_take]; exact List.mem_map_of_mem hc)
    exact Bool.eq_false_iff.1 (not_comment_of_blank hblank)
  have hany : text.any startsComment =
      (text.drop (run isBlank (text.map .char))).any startsComment := by
    rw [← List.take_append_drop (run isBlank (text.map .char)) text, List.any_append, hblanks,
      Bool.false_or, List.take_append_drop]
  rw [← List.map_drop, hany]
  cases hbehind : text.drop (run isBlank (text.map .char)) with
  | nil => rfl
  | cons c behind =>
    -- If no comment started behind the blanks, the text would end there.
    by_cases hc : startsComment c
    · rw [List.any_cons, hc]
      exact hc
    · have hhead : headIs startsComment
          ((text.map .char).drop (run isBlank (text.map .char))) = false := by
        rw [← List.map_drop, hbehind]
        exact Bool.eq_false_iff.2 hc
      simp only [trivia, hhead, Bool.false_eq_true, if_false] at h
      rw [List.drop_eq_nil_of_le h] at hbehind
      cases hbehind

end Lexeme

/-- What is open ends within the text, where it closes or else with the text. -/
theorem Construct.close?_getD_le (c : Construct) (text : List Char) :
    (c.close? (text.map .char)).getD text.length ≤ text.length := by
  cases hclose : c.close? (text.map .char) with
  | none => exact Nat.le_refl _
  | some n => simpa using close?_le hclose

namespace Scanner

variable {s : Scanner} {text : List Char} {fence : List Atom}

theorem advance_over {first more : List Atom} {n : Nat} (hrest : s.rest = first ++ more)
    (hn : first.length = n) :
    s.advance n = { s with rest := more, cursor := s.cursor.advance first } := by
  rw [advance, hrest, List.take_left' hn, List.drop_left' hn]

theorem cut_over {first more : List Atom} {n : Nat} (hrest : s.rest = first ++ more)
    (hn : first.length = n) (kind : Kind) :
    s.cut kind n =
      ({ kind, text := textOf first, span := ⟨s.cursor, s.cursor.advance first⟩
         bytes := first.filterMap Atom.byte? },
        { s with rest := more, cursor := s.cursor.advance first }) := by
  rw [cut, advance_over hrest hn, hrest, List.take_left' hn]

theorem skipTrivia_char {c : Char} {rest : List Atom}
    (h : s.rest.drop (trivia s.rest) = .char c :: rest) :
    s.skipTrivia = s.advance (trivia s.rest) := by
  have hbehind : (s.advance (run isBlank s.rest)).rest = s.rest.drop (run isBlank s.rest) := rfl
  simp only [trivia] at h ⊢
  simp only [skipTrivia, hbehind]
  split
  · next hcomment =>
    rw [if_pos hcomment] at h
    have hrest : (s.advance (run isBlank s.rest + run isCommentChar
        (s.rest.drop (run isBlank s.rest)))).rest = .char c :: rest := h
    rw [advance_advance, hrest]
  · rfl

theorem skipTrivia_end (h : Fenced fence) (hrest : s.rest = text.map .char ++ fence)
    (htrivia : text.length ≤ trivia (text.map .char)) :
    s.skipTrivia = { s.advance text.length with
      construct := if text.any startsComment ∧ fence ≠ [] then .comment else s.construct } := by
  have hbehind : (s.advance (run isBlank s.rest)).rest = s.rest.drop (run isBlank s.rest) := rfl
  have hwhole : trivia s.rest = text.length := by
    have hle := trivia_le (text.map Atom.char)
    rw [List.length_map] at hle
    rw [hrest, trivia_fence h]
    omega
  have hhead :
      headIs startsComment (s.rest.drop (run isBlank s.rest)) = text.any startsComment := by
    rw [← headIs_of_trivia htrivia, hrest, run_fence h, List.drop_append_of_le_length (run_le _ _),
      headIs_fence h]
  have hleft : (s.advance text.length).rest = fence := by
    rw [advance_over hrest (List.length_map _)]
  have hconstruct : (s.advance text.length).construct = s.construct := rfl
  simp only [trivia, hhead] at hwhole
  simp only [skipTrivia, hbehind, hhead]
  split
  · next hcomment =>
    rw [if_pos hcomment] at hwhole
    rw [advance_advance, hwhole, ← hconstruct]
    generalize s.advance text.length = u at hleft
    obtain ⟨rest, construct, cursor⟩ := u
    obtain rfl : rest = fence := hleft
    rcases h.cases with rfl | ⟨b, rest, rfl⟩
    · rw [if_neg fun hpair => hpair.2 rfl]
    · rw [if_pos ⟨hcomment, List.cons_ne_nil _ _⟩]
  · next hcomment =>
    rw [if_neg hcomment] at hwhole
    rw [hwhole, if_neg fun hpair => hcomment hpair.1]
    rfl

theorem cutOpenString_fence (h : Fenced fence)
    (hrest : s.rest = .char '"' :: (text.map .char ++ fence)) :
    let n := (Construct.string.close? (text.map .char)).getD text.length
    s.cutOpenString (text.map .char ++ fence) =
      ((s.cut .error (1 + n)).1,
        { (s.cut .error (1 + n)).2 with
          construct :=
            if (Construct.string.close? (text.map .char)).isNone ∧ fence ≠ [] then .string
            else s.construct }) := by
  have hclose := Construct.close?_fence h .string (text.map .char)
  rw [cutOpenString, hclose]
  cases Construct.string.close? (text.map .char) with
  | some n =>
    simp only [Option.getD_some, Option.isNone_some, Bool.false_eq_true, false_and, if_false]
    rfl
  | none =>
    have hleft : (s.cut .error (1 + text.length)).2.rest = fence := by
      have hquote : s.rest = (.char '"' :: text.map .char) ++ fence := hrest
      rw [cut_over hquote (by rw [List.length_cons, List.length_map, Nat.add_comm])]
    have hconstruct : (s.cut .error (1 + text.length)).2.construct = s.construct := rfl
    simp only [Option.getD_none, Option.isNone_none, true_and, validRun_fence h]
    rw [← hconstruct]
    generalize s.cut .error (1 + text.length) = cut at hleft
    obtain ⟨token, rest, construct, cursor⟩ := cut
    obtain rfl : rest = fence := hleft
    rcases h.cases with rfl | ⟨b, rest, rfl⟩
    · rw [if_neg fun hne => hne rfl]
    · rw [if_pos (List.cons_ne_nil _ _)]

end Scanner

/-- What the lexer found: a kind or else an error, and the offsets of the first byte and
behind the last one. -/
structure Lexer.Match where
  kind : Option Kind
  start : Nat
  stop : Nat

/-- The text, how far the lexer has come in it, and what is ahead. -/
structure Lexer where
  text : List Char
  ahead : List Char
  stop : Nat

namespace Lexer

def ofText (text : List Char) : Lexer := { text, ahead := text, stop := 0 }

/-- What starts with the character `c`: its kind, if it has one, and its length. An error is
one character long. But at a quote with no string behind it, it also takes what was looked at,
which `reach` tells. -/
def first (reach : List Char → Nat) (c : Char) (rest : List Char) : Option Kind × Nat :=
  match longest? c (rest.map .char) with
  | some (kind, n) => (some kind, n)
  | none => (none, if c = '"' then 1 + reach rest else 1)

def next (reach : List Char → Nat) (l : Lexer) : Option (Match × Lexer) :=
  let skipped := trivia (l.ahead.map .char)
  match l.ahead.drop skipped with
  | [] => none
  | c :: rest =>
    let (kind, n) := first reach c rest
    let start := l.stop + width (l.ahead.take skipped)
    let stop := start + width ((c :: rest).take n)
    some ({ kind, start, stop }, { l with ahead := (c :: rest).drop n, stop })

/-- Moves on by a number of bytes, which must end in the text and between characters. -/
def bump? (l : Lexer) (n : Nat) : Option Lexer :=
  (splitAt? n l.ahead).map fun (_, ahead) => { l with ahead, stop := l.stop + n }

theorem bump?_eq {l : Lexer} {passed ahead : List Char} (hahead : l.ahead = passed ++ ahead) :
    l.bump? (width passed) = some { l with ahead, stop := l.stop + width passed } := by
  rw [bump?, hahead, splitAt?_width]
  rfl

end Lexer

end LabelGraph
