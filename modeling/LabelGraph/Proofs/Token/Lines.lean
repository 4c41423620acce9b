import LabelGraph.Proofs.Text.Lines
import LabelGraph.Proofs.Token.Followed

/-!
Scanning line by line. Whatever the scanner looks for in front of a line feed, it looks no
further: no token and nothing that stands open crosses it. So the tokens of whole lines are
the same whatever text follows, and the tokens of this text do not depend on the lines.
-/

namespace LabelGraph

open Atom Lexeme

variable {atoms : List Atom}

/-! Looking up to a line feed. -/

theorem InLine.feed_not_mem (h : InLine atoms) : .char '\n' ∉ atoms := by
  intro hmem
  obtain ⟨c, heq, hc⟩ := h _ hmem
  cases heq
  exact hc rfl

theorem InLine.feed_drop {n : Nat} (h : InLine (atoms.take n)) (hfeed : .char '\n' ∈ atoms) :
    .char '\n' ∈ atoms.drop n := by
  rw [← List.take_append_drop n atoms] at hfeed
  exact (List.mem_append.1 hfeed).resolve_left h.feed_not_mem

/-- Whatever stands open closes at the line feed at the latest. -/
theorem Construct.Decided.of_feed {construct : Construct} (hfeed : .char '\n' ∈ atoms) :
    construct.Decided atoms := by
  by_cases hclose : construct.close? atoms = none
  case neg => exact .inl hclose
  case pos =>
    refine .inr (Classical.not_forall_not.1 fun hnone => ?_)
    have hline := inLine_of_open hclose
    have hrun : Scanner.validRun (atoms ++ []) = atoms.length := Scanner.validRun_of_valid hnone []
    rw [List.append_nil] at hrun
    rw [hrun, List.take_length] at hline
    exact hline.feed_not_mem hfeed

namespace Scanner

variable {s t : Scanner} {lines : List UInt8}

theorem closeConstruct_feed (hfeed : .char '\n' ∈ s.rest) : .char '\n' ∈ s.closeConstruct.rest := by
  cases hfound : s.construct.close? s.rest with
  | some n =>
    rw [closeConstruct_some hfound]
    exact (Construct.inLine_of_close hfound).feed_drop hfeed
  | none =>
    rw [closeConstruct_none hfound]
    exact (Construct.inLine_of_open hfound).feed_drop hfeed

/-- What is skipped stays in its line, and code or bytes outside UTF-8 stand behind it. -/
theorem skip_inLine (s : Scanner) :
    ∃ gap, s.Over gap s.skip ∧ InLine gap ∧
      (s.skip.construct = .code ∨ s.skip.rest = [] ∨ s.skip.StrayAhead) := by
  have hany : s.construct = .code ∨ True ∨ s.StrayAhead := .inr (.inl trivial)
  obtain ⟨gap, hover, hgap, hend⟩ := skip_over hany
  exact ⟨gap, hover, hgap.inLine, hend⟩

theorem skip_feed (hfeed : .char '\n' ∈ s.rest) : .char '\n' ∈ s.skip.rest := by
  obtain ⟨gap, hover, hline, -⟩ := skip_inLine s
  rw [hover.rest] at hfeed
  exact (List.mem_append.1 hfeed).resolve_left hline.feed_not_mem

/-- In front of a line feed the scanner does not see what is behind it. -/
theorem next_followed (hfeed : .char '\n' ∈ s.rest) (more : List Atom) :
    (s.followed more).next = (s.next.1, s.next.2.followed more) := by
  rw [next, skip_followed stop_feed (.of_feed hfeed) (closeConstruct_feed hfeed),
    cutToken_followed stop_feed (skip_feed hfeed) fun rest hrest => .of_feed ?_]
  · rfl
  · have hmem := skip_feed hfeed
    rw [hrest] at hmem
    simpa using hmem

/-- The scanner has whole lines ahead. Behind them nothing stands open. -/
def HasLines (s : Scanner) : Prop :=
  s.rest.getLast? = some (.char '\n') ∨ s.rest = [] ∧ s.construct = .code

/-- A token in front of a line feed is no end, and the last one there is the line feed. -/
theorem next_lines (h : s.rest.getLast? = some (.char '\n')) :
    s.next.1.kind ≠ .eof ∧ s.next.2.HasLines ∧
      s.next.2.cursor.advance s.next.2.rest = s.cursor.advance s.rest ∧
      (s.next.2.rest = [] → s.next.1.kind = .newline) := by
  have hfeed := skip_feed (List.mem_of_getLast? h)
  obtain ⟨gap, hover, -, hend⟩ := skip_inLine s
  have hnil : s.skip.rest ≠ [] := List.ne_nil_of_mem hfeed
  obtain ⟨lexeme, hcuts⟩ :=
    cuts_cutToken hnil (hend.imp_right fun hstray => hstray.resolve_left hnil)
  have hrest : s.rest = gap ++ (lexeme ++ s.next.2.rest) := by
    rw [hover.rest, hcuts.passed.rest]
    rfl
  -- If nothing is left, the line feed is the end of the lexeme.
  have hlast (hdone : s.next.2.rest = []) : .char '\n' ∈ lexeme := by
    rw [hrest, hdone, List.append_nil, List.getLast?_append_of_ne_nil _ hcuts.taken] at h
    exact List.mem_of_getLast? h
  refine ⟨hcuts.more, ?_, ?_, ?_⟩
  · by_cases hdone : s.next.2.rest = []
    · refine .inr ⟨hdone, ?_⟩
      rcases hcuts.behind with hcode | hstray | ⟨b, rest, hahead⟩
      · exact hcode
      · rcases hcuts.cut.spells hcuts.taken with ⟨-, hall⟩ | ⟨hnot, -⟩
        · cases hall _ (hlast hdone)
        · exact absurd hstray hnot
      · cases hahead.symm.trans hdone
    · left
      rw [hrest, List.getLast?_append_of_ne_nil, List.getLast?_append_of_ne_nil _ hdone] at h
      · exact h
      · simp [hdone]
  · have hcursor : s.next.2.cursor = s.skip.cursor.advance lexeme := hcuts.passed.cursor
    simp [hrest, hcursor, hover.cursor]
  · intro hdone
    rcases hcuts.cut.newline with ⟨hkind, -⟩ | ⟨-, hnone⟩
    · exact hkind
    · cases hnone _ (hlast hdone)

/-- The tokens of whole lines: their end, and those in front of it, which are the same with any
text behind the lines. -/
structure LineTokens (s : Scanner) (init : List Token) (eof : Token) : Prop where
  tokens : s.tokens = init ++ [eof]
  eof : eof.kind = .eof
  more : ∀ t ∈ init, t.kind ≠ .eof
  none : s.rest = [] → init = []
  newline : s.rest ≠ [] → ∃ t ∈ init.getLast?, t.kind = .newline
  followed : ∀ more, (s.followed more).tokens =
    init ++ Scanner.tokens { rest := more, cursor := s.cursor.advance s.rest }

theorem lineTokens_nil (hnil : s.rest = []) (hcode : s.construct = .code) :
    s.LineTokens [] { kind := .eof, text := "", span := .point s.skip.cursor } where
  tokens := tokens_of_end (skip_nil hnil).1
  eof := rfl
  more := by simp
  none _ := rfl
  newline hne := absurd hnil hne
  followed more := by
    simp only [Scanner.followed, hnil, hcode]
    rfl

theorem LineTokens.cons {init : List Token} {eof : Token}
    (hlast : s.rest.getLast? = some (.char '\n')) (h : s.next.2.LineTokens init eof) :
    s.LineTokens (s.next.1 :: init) eof := by
  obtain ⟨hmore, -, hcursor, hnewline⟩ := next_lines hlast
  constructor
  case tokens =>
    rw [tokens_of_more hmore, h.tokens]
    rfl
  case eof => exact h.eof
  case more => exact List.forall_mem_cons.2 ⟨hmore, h.more⟩
  case none =>
    intro hnil
    rw [hnil] at hlast
    cases hlast
  case newline =>
    intro _
    by_cases hdone : s.next.2.rest = []
    · rw [h.none hdone]
      exact ⟨s.next.1, rfl, hnewline hdone⟩
    · obtain ⟨t, ht, hkind⟩ := h.newline hdone
      refine ⟨t, ?_, hkind⟩
      rw [List.getLast?_cons, Option.mem_def.1 ht]
      rfl
  case followed =>
    intro more
    have hnext := next_followed (List.mem_of_getLast? hlast) more
    rw [tokens_of_more (by rwa [hnext]), hnext, h.followed, hcursor]
    rfl

theorem HasLines.tokens (h : s.HasLines) : ∃ init eof, s.LineTokens init eof := by
  induction hn : s.rest.length using Nat.strongRecOn generalizing s with
  | ind n ih =>
    subst hn
    rcases h with hlast | ⟨hnil, hcode⟩
    · obtain ⟨hmore, hlines, -⟩ := next_lines hlast
      obtain ⟨init, eof, htokens⟩ := ih _ (length_next s hmore) hlines rfl
      exact ⟨s.next.1 :: init, eof, htokens.cons hlast⟩
    · exact ⟨[], _, lineTokens_nil hnil hcode⟩

end Scanner

/-! Lines in front. -/

def Span.behind (lines : List UInt8) (s : Span) : Span :=
  { start := s.start.behind lines, stop := s.stop.behind lines }

def Token.behind (lines : List UInt8) (t : Token) : Token :=
  { t with span := t.span.behind lines }

theorem Token.behind_behind (lines text : List UInt8) (t : Token) :
    (t.behind text).behind lines = t.behind (lines ++ text) := by
  simp [behind, Span.behind]

namespace Scanner

variable {s : Scanner}

def behind (lines : List UInt8) (s : Scanner) : Scanner :=
  { s with cursor := s.cursor.behind lines }

theorem advance_behind (lines : List UInt8) (s : Scanner) (n : Nat) :
    (s.behind lines).advance n = (s.advance n).behind lines := by
  simp [behind, advance]

theorem cut_behind (lines : List UInt8) (s : Scanner) (kind : Kind) (n : Nat) :
    (s.behind lines).cut kind n =
      ((s.cut kind n).1.behind lines, (s.cut kind n).2.behind lines) := by
  simp only [cut, advance_behind]
  rfl

theorem closeConstruct_behind (lines : List UInt8) (s : Scanner) :
    (s.behind lines).closeConstruct = s.closeConstruct.behind lines := by
  cases hclose : s.construct.close? s.rest with
  | some n =>
    rw [closeConstruct_some hclose, closeConstruct_some (s := s.behind lines) hclose,
      advance_behind]
    rfl
  | none =>
    rw [closeConstruct_none hclose, closeConstruct_none (s := s.behind lines) hclose,
      ← advance_behind]
    rfl

theorem skipTrivia_behind (lines : List UInt8) (s : Scanner) :
    (s.behind lines).skipTrivia = s.skipTrivia.behind lines := by
  have hrest (t : Scanner) : (t.behind lines).rest = t.rest := rfl
  unfold skipTrivia
  simp only [hrest, advance_behind]
  generalize s.advance (run isBlank s.rest) = t
  split
  · generalize t.advance (run isCommentChar t.rest) = u
    cases u.rest with
    | nil => rfl
    | cons a rest => cases a <;> rfl
  · rfl

theorem skip_behind (lines : List UInt8) (s : Scanner) :
    (s.behind lines).skip = s.skip.behind lines := by
  have hsame : (s.closeConstruct.behind lines).construct = s.closeConstruct.construct := rfl
  simp only [skip, closeConstruct_behind, hsame]
  cases s.closeConstruct.construct with
  | code => exact skipTrivia_behind lines s.closeConstruct
  | comment => rfl
  | string => rfl

theorem cutOpenString_behind (lines : List UInt8) (s : Scanner) (body : List Atom) :
    (s.behind lines).cutOpenString body =
      ((s.cutOpenString body).1.behind lines, (s.cutOpenString body).2.behind lines) := by
  unfold cutOpenString
  split
  · exact cut_behind lines s .error _
  · rw [cut_behind]
    generalize s.cut .error (1 + validRun body) = result
    obtain ⟨token, rest, construct, cursor⟩ := result
    cases rest with
    | nil => rfl
    | cons a rest => cases a <;> rfl

theorem cutToken_behind (lines : List UInt8) (s : Scanner) :
    (s.behind lines).cutToken = (s.cutToken.1.behind lines, s.cutToken.2.behind lines) := by
  have hrest : (s.behind lines).rest = s.rest := rfl
  cases hs : s.rest with
  | nil =>
    simp only [cutToken, hrest, hs]
    exact cut_behind lines s .eof 0
  | cons a rest =>
    cases a with
    | stray b =>
      simp only [cutToken, hrest, hs]
      exact cut_behind lines s .error _
    | char c =>
      simp only [cutToken, hrest, hs]
      split
      · exact cut_behind lines s _ _
      · split
        · exact cutOpenString_behind lines s rest
        · exact cut_behind lines s .error 1

/-- Nothing but its places tells a token what stands in front of its text. -/
theorem next_behind (lines : List UInt8) (s : Scanner) :
    (s.behind lines).next = (s.next.1.behind lines, s.next.2.behind lines) := by
  rw [next, skip_behind, cutToken_behind]
  rfl

theorem tokens_behind (lines : List UInt8) (s : Scanner) :
    (s.behind lines).tokens = s.tokens.map (Token.behind lines) := by
  have hnext := next_behind lines s
  induction hn : s.rest.length using Nat.strongRecOn generalizing s with
  | ind n ih =>
    subst hn
    by_cases hend : s.next.1.kind = .eof
    · rw [tokens_of_eof hend, tokens_of_eof (by rwa [hnext]), hnext]
      rfl
    · rw [tokens_of_more hend, tokens_of_more (by rwa [hnext]), hnext,
        ih _ (length_next s hend) s.next.2 (next_behind lines s.next.2) rfl]
      rfl

end Scanner

namespace Utf8

variable {lines : List UInt8}

theorem WholeLines.hasLines (h : WholeLines lines) : (Scanner.ofBytes lines).HasLines :=
  h.decode_last.symm.imp_right fun hnil => ⟨hnil, rfl⟩

/-- The tokens of whole lines and of the text behind them. -/
theorem WholeLines.tokens (h : WholeLines lines) :
    ∃ init eof, (Scanner.ofBytes lines).LineTokens init eof ∧
      ∀ text, tokenize (lines ++ text) = init ++ (tokenize text).map (Token.behind lines) := by
  obtain ⟨init, eof, htokens⟩ := h.hasLines.tokens
  refine ⟨init, eof, htokens, ?_⟩
  intro text
  have hfollowed := htokens.followed (decode text)
  have hsource : Scanner.ofBytes (lines ++ text) =
      (Scanner.ofBytes lines).followed (decode text) := by
    rw [Scanner.ofBytes, h.decode_append]
    rfl
  have hstart : (Scanner.ofBytes lines).cursor.advance (Scanner.ofBytes lines).rest =
      Position.start.behind lines := Position.start_advance_lines h
  rw [hstart] at hfollowed
  rw [tokenize, hsource, hfollowed, tokenize, ← Scanner.tokens_behind]
  rfl

end Utf8

open Utf8

/-- Scanning is local to lines. Behind whole lines a text has the tokens it has by itself, at
places moved by the lines, and the lines have theirs. So no line has a say in the tokens of the
lines around it, whatever it leaves open. -/
theorem scan_lines {lines : List UInt8} (h : WholeLines lines) (text : List UInt8) :
    (∃ eof, (tokenize lines).getLast? = some eof ∧ eof.kind = .eof) ∧
      tokenize (lines ++ text) =
        (tokenize lines).dropLast ++ (tokenize text).map (Token.behind lines) ∧
      ∀ line, WholeLines line → tokenize (lines ++ line ++ text) =
        (tokenize lines).dropLast ++ (tokenize line).dropLast.map (Token.behind lines) ++
          (tokenize text).map (Token.behind (lines ++ line)) := by
  obtain ⟨init, eof, htokens, hlines⟩ := h.tokens
  have hinit : tokenize lines = init ++ [eof] := htokens.tokens
  rw [hinit, List.dropLast_concat]
  refine ⟨⟨eof, List.getLast?_concat, htokens.eof⟩, hlines text, ?_⟩
  intro line hline
  obtain ⟨init', eof', htokens', htext⟩ := hline.tokens
  have hinit' : tokenize line = init' ++ [eof'] := htokens'.tokens
  rw [List.append_assoc, hlines, htext, hinit', List.dropLast_concat, List.map_append, List.map_map,
    List.append_assoc]
  simp only [Function.comp_def, Token.behind_behind]

/-- A line that leaves a string open, and one that breaks off a character in a comment, in front
of the bytes that the character lacks and a quote. -/
theorem scan_lines_truncated :
    WholeLines [0x22, 0x0A] ∧ WholeLines [0x3B, 0xE2, 0x0A] ∧
      tokenize ([0x22, 0x0A] ++ [0x3B, 0xE2, 0x0A] ++ [0x82, 0xAC, 0x22]) =
        (tokenize [0x22, 0x0A]).dropLast ++
          (tokenize [0x3B, 0xE2, 0x0A]).dropLast.map (Token.behind [0x22, 0x0A]) ++
            (tokenize [0x82, 0xAC, 0x22]).map
              (Token.behind ([0x22, 0x0A] ++ [0x3B, 0xE2, 0x0A])) :=
  ⟨by decide, by decide, (scan_lines (by decide) [0x82, 0xAC, 0x22]).2.2 _ (by decide)⟩

end LabelGraph
