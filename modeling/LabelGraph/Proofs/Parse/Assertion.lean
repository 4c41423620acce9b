import LabelGraph.Proofs.Parse.Pace
import LabelGraph.Proofs.Parse.Sequence
import LabelGraph.Proofs.Token.Reading

/-!
What the reading of a text takes for granted. A reader tests its offsets, and the parse relies
on the order of the tokens: it never moves back, and the span from the name of a label to its
colon is one. None of this ever fails.
-/

namespace LabelGraph

open Parse

/-- The tokens that a script moves over are the first ones of the text. -/
theorem script_consumes (place : Place) (tokens : List Token) :
    (script place tokens).1.filterMap Event.token? <+: tokens := by
  induction place, tokens using script_induct with
  | nil place => simp
  | corrupt place t rest ht => simp [script_corrupt ht]
  | take place t rest before after next ht hmove ih =>
    simpa [script_take ht hmove, filterMap_perform, -List.filterMap_map] using ih
  | newline place t rest before ht hmove ih =>
    simpa [script_newline ht hmove, filterMap_perform, -List.filterMap_map] using ih
  | leave place t rest before ht hmove ih =>
    simpa [script_leave ht hmove, filterMap_perform, -List.filterMap_map] using ih
  | endText place t rest ht hmove => simp [script_endText ht hmove]

namespace Parse

variable {source : List UInt8} {settings : Settings} {table? : Option SymbolTable}
  {events : List Event} {p : Parse}

theorem planned_consumes :
    (planned source settings table?).filterMap Event.token? <+: tokenize source := by
  unfold planned
  split
  · exact script_consumes .item (tokenize source)
  · exact List.nil_prefix

/-- Between its events a parse stands at the last token that it moved over. -/
theorem Stage.previous (h : Stage source settings table? events p) :
    p.previous = lastSpan .zero (events.filterMap Event.token?) := by
  have hplayed := playAll_previous events (opened source settings table?).started
  rw [after_of_ok h.play, consumed_of_ok h.play] at hplayed
  rw [hplayed]
  exact congrArg (lastSpan · _) (opened_previous source settings table?)

/-- A parse moves over a token only if this does not start in front of the end of the last
one. -/
theorem Stage.consume_onward {t : Token} (h : Stage source settings table? events p)
    (hnext : events ++ [.consume t] <+: planned source settings table?) :
    p.previous.stop.offset ≤ t.span.start.offset := by
  have htokens : events.filterMap Event.token? ++ [t] <+: tokenize source := by
    have hfilter := hnext.filterMap Event.token?
    rw [List.filterMap_append] at hfilter
    exact hfilter.trans planned_consumes
  rw [h.previous]
  rcases List.eq_nil_or_concat (events.filterMap Event.token?) with hnone | ⟨first, last, heq⟩
  · rw [hnone]
    exact Nat.zero_le _
  · rw [List.concat_eq_append] at heq
    have hpair : [last, t] <:+: tokenize source := by
      rw [heq, List.append_assoc] at htokens
      exact (List.suffix_append first [last, t]).isInfix.trans htokens.isInfix
    have hspan : lastSpan .zero (first ++ [last]) = last.span := by
      rw [lastSpan, List.getLast?_append, List.getLast?_singleton]
      rfl
    rw [heq, hspan]
    exact Token.stop_le_start hpair

/-- The span of a label is one. -/
theorem label_joins {name colon : Token}
    (h : .perform (.declareLabel name colon) ∈ planned source settings table?) :
    Span.new? (name.span.start.min colon.span.start) (name.span.stop.max colon.span.stop) =
      some (name.span.join colon.span) := by
  have hstands := item_stands (planned_subset h)
  exact if_pos (Token.join_sits hstands.1).offsets

end Parse

open Parse

/-- The reading of a text never fails at what it takes for granted. All tests of a reader come
out right, however often it is asked for a token, and it answers as the scanner; this is so
however far the lexer looks behind an opening quote, within the line. And a parse never moves
back, and the ends of the span of a label are in order. -/
theorem reading_holds (reach : List Char → Nat)
    (hreach : ∀ body, reach body ≤ (body.takeWhile (· != '\n')).length) (source : List UInt8) :
    (∀ n, ChunkReader.answers? reach {} (Utf8.chunks source) n =
      some ((List.range n).map (Scanner.ofBytes source).call)) ∧
    ∀ settings table? events p, Stage source settings table? events p →
      (∀ t, events ++ [.consume t] <+: planned source settings table? →
        p.previous.stop.offset ≤ t.span.start.offset) ∧
      ∀ name colon,
        events ++ [.perform (.declareLabel name colon)] <+: planned source settings table? →
          Span.new? (name.span.start.min colon.span.start) (name.span.stop.max colon.span.stop) =
            some (name.span.join colon.span) := by
  refine ⟨reader_answers reach hreach source, fun settings table? events p hstage => ⟨?_, ?_⟩⟩
  · exact fun t hnext => hstage.consume_onward hnext
  · exact fun name colon hnext => label_joins (hnext.subset (by simp))

/-- A label, and behind it a string that broken bytes interrupt. -/
theorem reading_holds_broken :
    let source := "a:\"é\\é".toUTF8.toList ++ [0xC3, 0xFF, 0x22]
    let reach (body : List Char) := (body.takeWhile (· != '\n')).length
    (∀ body, reach body ≤ (body.takeWhile (· != '\n')).length) ∧
    ChunkReader.answers? reach {} (Utf8.chunks source) 5 =
      some ((List.range 5).map (Scanner.ofBytes source).call) ∧
    ∃ name colon p q, Stage source {} (some .empty) [.consume name] p ∧
      Stage source {} (some .empty) [.consume name, .consume colon] q ∧
      p.previous.stop.offset ≤ colon.span.start.offset ∧
      Span.new? (name.span.start.min colon.span.start) (name.span.stop.max colon.span.stop) =
        some (name.span.join colon.span) := by
  intro source reach
  have hreach (body : List Char) : reach body ≤ (body.takeWhile (· != '\n')).length :=
    Nat.le_refl _
  obtain ⟨hanswers, hstage⟩ := reading_holds reach hreach source
  obtain ⟨name, colon, hplanned⟩ : ∃ name colon,
      [.consume name, .consume colon, .perform (.declareLabel name colon)] <+:
        planned ("a:\"é\\é".toUTF8.toList ++ [0xC3, 0xFF, 0x22]) {} (some .empty) := by
    refine ⟨⟨.identifier, "a", ⟨⟨1, 1, 0⟩, ⟨1, 2, 1⟩⟩, []⟩,
      ⟨.colon, ":", ⟨⟨1, 2, 1⟩, ⟨1, 3, 2⟩⟩, []⟩, ?_⟩
    refine List.IsPrefix.trans ?_ (script_begins .item _)
    exact List.isPrefixOf_iff_prefix.1 (by decide +kernel)
  have hname : Stage source {} (some .empty) [.consume name] _ :=
    ⟨(List.prefix_append [_] [_, _]).trans hplanned, rfl⟩
  have hcolon : Stage source {} (some .empty) [.consume name, .consume colon] _ :=
    ⟨(List.prefix_append [_, _] [_]).trans hplanned, rfl⟩
  refine ⟨hreach, hanswers 5, name, colon, _, _, hname, hcolon, ?_, ?_⟩
  · exact (hstage _ _ _ _ hname).1 colon ((List.prefix_append [_, _] [_]).trans hplanned)
  · exact (hstage _ _ _ _ hcolon).2 name colon hplanned

end LabelGraph
