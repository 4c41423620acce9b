import LabelGraph.Proofs.Text.Stray
import LabelGraph.Proofs.Token.Construct

/-!
The tokens of a text lie side by side. Between two of them there is nothing but what the
scanner skips, and each token is cut from the atoms right behind. So the text is its gaps
and its lexemes, one after another.
-/

namespace LabelGraph

open Atom Lexeme

def InLine (atoms : List Atom) : Prop := ∀ a ∈ atoms, ∃ c, a = .char c ∧ c ≠ '\n'

def Trivia (atoms : List Atom) : Prop :=
  ∃ blanks comment, atoms = blanks ++ comment ∧ (∀ a ∈ blanks, a.satisfies isBlank) ∧
    (comment = [] ∨ ∃ c text, comment = .char c :: text ∧ startsComment c ∧
      ∀ a ∈ text, a.satisfies isCommentChar)

namespace Token

def IsStray (t : Token) : Prop := t.kind = .error ∧ t.text = ""

def start (t : Token) : Nat := t.span.start.offset

def stop (t : Token) : Nat := t.span.stop.offset

end Token

/-- What can stand in front of a token. Behind bytes outside UTF-8 this is also the rest of
what they interrupt. -/
structure Gap (behindStray : Prop) (atoms : List Atom) : Prop where
  inLine : InLine atoms
  trivia : ¬ behindStray → Trivia atoms

inductive Cut (lexeme rest : List Atom) (t : Token) : Prop where
  | stray (hkind : t.kind = .error) (htext : t.text = "") (hall : ∀ a ∈ lexeme, a.isStray)
    (hrest : ∀ a ∈ rest.head?, a.isStray = false)
  | feed (hkind : t.kind = .newline) (htext : t.text = textOf lexeme)
    (hlexeme : lexeme = [.char '\n'])
  | line (hkind : t.kind ≠ .newline) (htext : t.text = textOf lexeme) (hline : InLine lexeme)

/-- The tokens stand in the atoms, the first of which is at `offset`. -/
inductive Tiles : Prop → Nat → List Atom → List Token → Prop where
  | last {behindStray : Prop} {offset : Nat} {gap : List Atom} {t : Token}
    (hgap : Gap behindStray gap) (hkind : t.kind = .eof) (htext : t.text = "")
    (hspan : t.span = .point t.span.start) (hstart : t.start = offset + extent gap) :
    Tiles behindStray offset gap [t]
  | more {behindStray : Prop} {offset : Nat} {gap lexeme rest : List Atom} {t : Token}
    {tokens : List Token} (hgap : Gap behindStray gap) (hcut : Cut lexeme rest t)
    (hkind : t.kind ≠ .eof) (hlexeme : lexeme ≠ []) (hstart : t.start = offset + extent gap)
    (hstop : t.stop = t.start + extent lexeme) (hrest : Tiles t.IsStray t.stop rest tokens) :
    Tiles behindStray offset (gap ++ lexeme ++ rest) (t :: tokens)

/-! Atoms of one line. -/

section InLine

variable {atoms more : List Atom}

theorem inLine_nil : InLine [] := by simp [InLine]

theorem inLine_cons {c : Char} (hc : c ≠ '\n') (h : InLine atoms) : InLine (.char c :: atoms) :=
  List.forall_mem_cons.2 ⟨⟨c, rfl, hc⟩, h⟩

theorem inLine_append (h : InLine atoms) (h' : InLine more) : InLine (atoms ++ more) :=
  List.forall_mem_append.2 ⟨h, h'⟩

theorem chars_of_class {p : Char → Bool} (h : ∀ a ∈ atoms, a.satisfies p) :
    ∀ a ∈ atoms, ∃ c, a = .char c ∧ p c := by
  intro a ha
  cases a with
  | stray b => cases h _ ha
  | char c => exact ⟨c, rfl, h _ ha⟩

theorem inLine_of_class {p : Char → Bool} (hp : p '\n' = false)
    (h : ∀ a ∈ atoms, a.satisfies p) : InLine atoms := by
  intro a ha
  obtain ⟨c, rfl, hclass⟩ := chars_of_class h a ha
  refine ⟨c, rfl, ?_⟩
  rintro rfl
  rw [hp] at hclass
  cases hclass

theorem all_take_run (p : Char → Bool) (atoms : List Atom) :
    ∀ a ∈ atoms.take (run p atoms), a.satisfies p := by
  intro a ha
  rw [run, ← List.prefix_iff_eq_take.1 (List.takeWhile_prefix _)] at ha
  exact List.all_eq_true.1 List.all_takeWhile a ha

theorem inLine_run {p : Char → Bool} (hp : p '\n' = false) (atoms : List Atom) :
    InLine (atoms.take (run p atoms)) :=
  inLine_of_class hp (all_take_run p atoms)

theorem char_of_head {p : Char → Bool} (h : headIs p atoms) :
    ∃ c rest, atoms = .char c :: rest ∧ p c := by
  cases atoms with
  | nil => cases h
  | cons a rest =>
    cases a with
    | stray b => cases h
    | char c => exact ⟨c, rest, rfl, h⟩

theorem take_one_add (a : Atom) (n : Nat) (atoms : List Atom) :
    (a :: atoms).take (1 + n) = a :: atoms.take n := by
  rw [Nat.add_comm, List.take_succ_cons]

end InLine

namespace Construct

theorem inLine_of_closeString {count n : Nat} {atoms : List Atom}
    (h : closeStringAfter count atoms = some n) :
    ∃ k, n = count + k ∧ InLine (atoms.take k) := by
  fun_induction closeStringAfter count atoms with
  | case1 count rest =>
    cases h
    exact ⟨1, rfl, inLine_cons (by decide) inLine_nil⟩
  | case2 count rest =>
    cases h
    exact ⟨0, rfl, inLine_nil⟩
  | case3 count rest =>
    cases h
    exact ⟨1, rfl, inLine_cons (by decide) inLine_nil⟩
  | case4 count c rest hc ih =>
    obtain ⟨k, rfl, hline⟩ := ih h
    exact ⟨k + 2, by omega, inLine_cons (by decide) (inLine_cons hc hline)⟩
  | case5 count c rest hquote hfeed hescape ih =>
    obtain ⟨k, rfl, hline⟩ := ih h
    exact ⟨k + 1, by omega, inLine_cons hfeed hline⟩
  | case6 => cases h
  | case7 => cases h

theorem inLine_of_openString {count : Nat} {atoms : List Atom}
    (h : closeStringAfter count atoms = none) :
    InLine (atoms.take (Scanner.validRun atoms)) := by
  have hchar (c : Char) (rest : List Atom) :
      (Atom.char c :: rest).take (Scanner.validRun (.char c :: rest)) =
        .char c :: rest.take (Scanner.validRun rest) := by
    rw [Scanner.validRun, run_char rfl]
    rfl
  fun_induction closeStringAfter count atoms with
  | case1 => cases h
  | case2 => cases h
  | case3 => cases h
  | case4 count c rest hc ih =>
    rw [hchar, hchar]
    exact inLine_cons (by decide) (inLine_cons hc (ih h))
  | case5 count c rest hquote hfeed hescape ih =>
    rw [hchar]
    exact inLine_cons hfeed (ih h)
  | case6 count b rest =>
    rw [Scanner.validRun_stray]
    exact inLine_nil
  | case7 => exact inLine_nil

/-- What stands open closes in its line. -/
theorem inLine_of_close {c : Construct} {n : Nat} {atoms : List Atom}
    (h : c.close? atoms = some n) : InLine (atoms.take n) := by
  cases c with
  | code =>
    cases h
    exact inLine_nil
  | comment =>
    rw [close?] at h
    split at h
    · cases h
      exact inLine_run rfl atoms
    · cases h
  | string =>
    obtain ⟨k, rfl, hline⟩ := inLine_of_closeString h
    rwa [Nat.zero_add]

/-- What does not close before the valid text ends goes on in one line up to there. -/
theorem inLine_of_open {c : Construct} {atoms : List Atom} (h : c.close? atoms = none) :
    InLine (atoms.take (Scanner.validRun atoms)) := by
  cases c with
  | code => cases h
  | comment =>
    have hend : ∀ d more, atoms.drop (run isCommentChar atoms) ≠ .char d :: more := by
      intro d more hdrop
      simp only [close?, hdrop] at h
      cases h
    rw [Scanner.validRun_of_run hend]
    exact inLine_run rfl atoms
  | string => exact inLine_of_openString h

theorem close?_stray {c : Construct} (hopen : c ≠ .code) (b : UInt8) (rest : List Atom) :
    c.close? (.stray b :: rest) = none := by
  cases c with
  | code => exact absurd rfl hopen
  | comment => exact close?_comment_stray b rest
  | string => rfl

end Construct

namespace Lexeme

section Longest

variable {c : Char} {rest : List Atom}

theorem inLine_class {p : Char → Bool} (hc : c ≠ '\n') (hp : p '\n' = false) :
    InLine ((.char c :: rest).take (1 + run p rest)) := by
  rw [take_one_add]
  exact inLine_cons hc (inLine_run hp rest)

theorem inLine_number (hc : c ≠ '\n') :
    InLine ((.char c :: rest).take (numberLength (.char c :: rest))) := by
  unfold numberLength
  split
  · next x more heq =>
    cases heq
    split
    · next hhex =>
      have hx : x ≠ '\n' := by
        rintro rfl
        cases hhex
      rw [Nat.add_comm]
      exact inLine_cons (by decide) (inLine_cons hx (inLine_run rfl more))
    · exact inLine_class hc rfl
  · next heq =>
    cases heq
    exact inLine_class hc rfl
  · next heq => cases heq

/-- A lexeme is a line feed, or stays in its line. -/
theorem inLine_longest {kind : Kind} {n : Nat} (h : longest? c rest = some (kind, n)) :
    kind = .newline ∧ (.char c :: rest).take n = [.char '\n'] ∨
      kind ≠ .newline ∧ InLine ((.char c :: rest).take n) := by
  by_cases hc : c = '\n'
  · subst hc
    cases h
    exact .inl ⟨rfl, rfl⟩
  right
  unfold longest? at h
  split at h
  · next kind' hkind =>
    cases h
    refine ⟨?_, inLine_cons hc inLine_nil⟩
    rintro rfl
    unfold punctuation? at hkind
    split at hkind <;> cases hkind
    exact hc rfl
  split at h
  · cases h
    exact ⟨by decide, inLine_class hc rfl⟩
  split at h
  · cases h
    exact ⟨by decide, inLine_number hc⟩
  split at h
  · cases h
    exact ⟨by decide, inLine_class hc rfl⟩
  split at h
  · cases h
    exact ⟨by decide, inLine_class hc rfl⟩
  split at h
  · obtain ⟨m, hquoted, heq⟩ := Option.map_eq_some_iff.1 h
    cases heq
    have hclose : Construct.string.close? rest = some m :=
      Construct.closeStringAfter_of_quotedAfter hquoted
    rw [take_one_add]
    exact ⟨by decide, inLine_cons hc (Construct.inLine_of_close hclose)⟩
  · cases h

end Longest

end Lexeme

namespace Scanner

structure Over (s : Scanner) (atoms : List Atom) (t : Scanner) : Prop where
  rest : s.rest = atoms ++ t.rest
  cursor : t.cursor = s.cursor.advance atoms

def StrayAhead (s : Scanner) : Prop := ∃ b rest, s.rest = .stray b :: rest

variable {s t u : Scanner} {atoms more : List Atom}

theorem Over.of_advance (s : Scanner) (n : Nat) : s.Over (s.rest.take n) (s.advance n) :=
  ⟨(List.take_append_drop n s.rest).symm, rfl⟩

theorem Over.trans (h : s.Over atoms t) (h' : t.Over more u) : s.Over (atoms ++ more) u where
  rest := by rw [h.rest, h'.rest, List.append_assoc]
  cursor := by simp [h'.cursor, h.cursor]

theorem Over.with_construct (h : s.Over atoms t) (construct : Construct) :
    s.Over atoms { t with construct } := ⟨h.rest, h.cursor⟩

theorem valid_ahead (s : Scanner) :
    (s.advance (validRun s.rest)).rest = [] ∨ (s.advance (validRun s.rest)).StrayAhead := by
  cases hrest : (s.advance (validRun s.rest)).rest with
  | nil => exact .inl rfl
  | cons a rest =>
    cases a with
    | stray b => exact .inr ⟨b, rest, hrest⟩
    | char c => exact absurd (stop_of_run hrest) (by simp)

/-- In code, blanks and a comment are skipped. -/
theorem skipTrivia_over (hcode : s.construct = .code) :
    ∃ gap, s.Over gap s.skipTrivia ∧ Trivia gap ∧ InLine gap ∧
      (s.skipTrivia.construct = .code ∨ s.skipTrivia.StrayAhead) := by
  have hblanks := Over.of_advance s (run isBlank s.rest)
  have hline := inLine_run (p := isBlank) rfl s.rest
  have hclass := all_take_run isBlank s.rest
  have hcode' : (s.advance (run isBlank s.rest)).construct = .code := hcode
  generalize s.rest.take (run isBlank s.rest) = blanks at hblanks hline hclass
  unfold skipTrivia
  generalize s.advance (run isBlank s.rest) = t at hblanks hcode'
  by_cases hcomment : headIs startsComment t.rest
  case neg =>
    rw [if_neg hcomment]
    exact ⟨blanks, hblanks, ⟨blanks, [], by simp, hclass, .inl rfl⟩, hline, .inl hcode'⟩
  case pos =>
    rw [if_pos hcomment]
    obtain ⟨c, more, hrest, hc⟩ := char_of_head hcomment
    have hcommentChar : isCommentChar c := by
      have hstart := comment_cases hc
      rcases hstart with rfl | rfl <;> rfl
    have htake : t.rest.take (run isCommentChar t.rest) =
        .char c :: more.take (run isCommentChar more) := by
      rw [hrest, run_char hcommentChar]
      rfl
    have hover := hblanks.trans (.of_advance t (run isCommentChar t.rest))
    have hcode'' : (t.advance (run isCommentChar t.rest)).construct = .code := hcode'
    have htrivia : Trivia (blanks ++ t.rest.take (run isCommentChar t.rest)) := by
      refine ⟨blanks, _, rfl, hclass, .inr ⟨c, _, htake, hc, ?_⟩⟩
      exact all_take_run isCommentChar more
    refine ⟨_, ?_, htrivia, inLine_append hline (inLine_run rfl t.rest), ?_⟩
    all_goals simp only
    · split
      · exact hover.with_construct _
      · exact hover
    · split
      · next b rest hstray => exact .inr ⟨b, rest, hstray⟩
      · exact .inl hcode''

/-- What is skipped in front of a token. -/
theorem skip_over {behindStray : Prop} (h : s.construct = .code ∨ behindStray ∨ s.StrayAhead) :
    ∃ gap, s.Over gap s.skip ∧ Gap behindStray gap ∧
      (s.skip.construct = .code ∨ s.skip.rest = [] ∨ s.skip.StrayAhead) := by
  by_cases hcode : s.construct = .code
  · obtain ⟨gap, hover, htrivia, hline, hend⟩ := skipTrivia_over hcode
    rw [skip_code hcode]
    exact ⟨gap, hover, ⟨hline, fun _ => htrivia⟩, hend.imp_right .inr⟩
  have hbehind : ¬ behindStray → s.StrayAhead := (h.resolve_left hcode).resolve_left
  cases hclose : s.construct.close? s.rest with
  | none =>
    rw [skip_open hcode hclose]
    refine ⟨_, .of_advance s _, ⟨Construct.inLine_of_open hclose, ?_⟩, .inr (valid_ahead s)⟩
    intro hnot
    obtain ⟨b, rest, hstray⟩ := hbehind hnot
    rw [hstray, validRun_stray]
    exact ⟨[], [], rfl, by simp, .inl rfl⟩
  | some n =>
    have hskip : s.skip = skipTrivia { s.advance n with construct := .code } := by
      rw [skip, closeConstruct_some hclose]
    obtain ⟨gap, hover, -, hline, hend⟩ :=
      skipTrivia_over (s := { s.advance n with construct := .code }) rfl
    have hfirst := (Over.of_advance s n).with_construct .code
    rw [hskip]
    refine ⟨_, hfirst.trans hover, ⟨inLine_append (Construct.inLine_of_close hclose) hline, ?_⟩,
      hend.imp_right .inr⟩
    intro hnot
    obtain ⟨b, rest, hstray⟩ := hbehind hnot
    rw [hstray, Construct.close?_stray hcode] at hclose
    cases hclose

/-- A token and the scanner behind it, if the token is cut from atoms of its line. -/
structure Cuts (s : Scanner) (lexeme : List Atom) (token : Token) (t : Scanner) : Prop where
  passed : s.Over lexeme t
  cut : Cut lexeme t.rest token
  taken : lexeme ≠ []
  more : token.kind ≠ .eof
  span : token.span = { start := s.cursor, stop := t.cursor }
  behind : t.construct = .code ∨ token.IsStray ∨ t.StrayAhead

theorem cuts_of_line {kind : Kind} {n : Nat} (hcode : s.construct = .code) (hrest : s.rest ≠ [])
    (hn : n ≠ 0) (heof : kind ≠ .eof)
    (h : kind = .newline ∧ s.rest.take n = [.char '\n'] ∨
      kind ≠ .newline ∧ InLine (s.rest.take n)) :
    s.Cuts (s.rest.take n) (s.cut kind n).1 (s.cut kind n).2 := by
  refine ⟨.of_advance s n, ?_, by simp [hn, hrest], heof, rfl, .inl hcode⟩
  rcases h with ⟨hkind, hfeed⟩ | ⟨hkind, hline⟩
  · exact .feed hkind rfl hfeed
  · exact .line hkind rfl hline

theorem textOf_stray (h : ∀ a ∈ atoms, a.isStray) : textOf atoms = "" := by
  have hnil : atoms.filterMap Atom.char? = [] := by
    apply List.filterMap_eq_nil_iff.2
    intro a ha
    cases a with
    | char c => cases h _ ha
    | stray b => rfl
  rw [textOf, hnil, String.ofList_nil]

theorem cuts_of_stray {b : UInt8} {rest : List Atom} (hs : s.rest = .stray b :: rest) :
    ∃ lexeme, s.Cuts lexeme s.cutToken.1 s.cutToken.2 := by
  have htake : s.rest.take (1 + (rest.takeWhile isStray).length) =
      .stray b :: rest.takeWhile isStray := by
    rw [hs, take_one_add, ← List.prefix_iff_eq_take.1 (List.takeWhile_prefix _)]
  have hdrop : s.rest.drop (1 + (rest.takeWhile isStray).length) = rest.dropWhile isStray := by
    rw [hs, Nat.add_comm, List.drop_succ_cons]
    nth_rewrite 2 [← List.takeWhile_append_dropWhile (p := isStray) (l := rest)]
    exact List.drop_left
  have hall : ∀ a ∈ Atom.stray b :: rest.takeWhile isStray, a.isStray :=
    List.forall_mem_cons.2 ⟨rfl, List.all_eq_true.1 List.all_takeWhile⟩
  have hend : ∀ a ∈ (rest.dropWhile isStray).head?, a.isStray = false := by
    intro a ha
    have hnot := List.head?_dropWhile_not isStray rest
    rwa [ha] at hnot
  have hover := Over.of_advance s (1 + (rest.takeWhile isStray).length)
  rw [htake] at hover
  rw [cutToken_stray hs]
  have htext : (s.cut .error (1 + (rest.takeWhile isStray).length)).1.text = "" := by
    simp only [cut, htake, textOf_stray hall]
  rw [← hdrop] at hend
  exact ⟨_, hover, .stray rfl htext hall hend, List.cons_ne_nil _ _, Kind.noConfusion, rfl,
    .inr (.inl ⟨rfl, htext⟩)⟩

/-- An opening quote without a closing one is an error up to the end of its line, or of the
valid text. -/
theorem cuts_of_openString {rest : List Atom} (hcode : s.construct = .code)
    (hs : s.rest = .char '"' :: rest) :
    ∃ lexeme, s.Cuts lexeme (s.cutOpenString rest).1 (s.cutOpenString rest).2 := by
  have hrest : s.rest ≠ [] := by simp [hs]
  have hline {n : Nat} (h : InLine (rest.take n)) :
      s.Cuts (s.rest.take (1 + n)) (s.cut .error (1 + n)).1 (s.cut .error (1 + n)).2 := by
    refine cuts_of_line hcode hrest (by omega) Kind.noConfusion (.inr ⟨Kind.noConfusion, ?_⟩)
    rw [hs, take_one_add]
    exact inLine_cons (by decide) h
  cases hclose : Construct.string.close? rest with
  | some n =>
    simp only [cutOpenString, hclose]
    exact ⟨_, hline (Construct.inLine_of_close hclose)⟩
  | none =>
    have hcuts := hline (Construct.inLine_of_open hclose)
    simp only [cutOpenString, hclose]
    split
    · next b more hstray =>
      exact ⟨_, hcuts.passed.with_construct _, hcuts.cut, hcuts.taken, hcuts.more, hcuts.span,
        .inr (.inr ⟨b, more, hstray⟩)⟩
    · exact ⟨_, hcuts⟩

/-- The token behind a gap is cut from the atoms there. -/
theorem cuts_cutToken (hrest : s.rest ≠ []) (h : s.construct = .code ∨ s.StrayAhead) :
    ∃ lexeme, s.Cuts lexeme s.cutToken.1 s.cutToken.2 := by
  cases hs : s.rest with
  | nil => exact absurd hs hrest
  | cons a rest =>
    cases a with
    | stray b => exact cuts_of_stray hs
    | char c =>
      have hcode : s.construct = .code := by
        refine h.resolve_right ?_
        rintro ⟨b, more, hstray⟩
        rw [hs] at hstray
        cases hstray
      cases hlongest : longest? c rest with
      | some result =>
        obtain ⟨kind, n⟩ := result
        have hline := inLine_longest hlongest
        rw [← hs] at hline
        rw [cutToken_lexeme hs hlongest]
        exact ⟨_, cuts_of_line hcode hrest (Nat.ne_of_gt (longest?_pos hlongest))
          (longest?_kind hlongest).2 hline⟩
      | none =>
        by_cases hquote : c = '"'
        · subst hquote
          rw [cutToken_open hs hlongest]
          exact cuts_of_openString hcode hs
        · have hc : c ≠ '\n' := by
            rintro rfl
            cases hlongest
          rw [cutToken_unknown hs hlongest hquote]
          refine ⟨_, cuts_of_line hcode hrest Nat.one_ne_zero Kind.noConfusion
            (.inr ⟨Kind.noConfusion, ?_⟩)⟩
          rw [hs]
          exact inLine_cons hc inLine_nil

/-- From a place where code goes on, or bytes outside UTF-8 stand right before or ahead,
the tokens lie side by side. -/
theorem tokens_tiled {behindStray : Prop} (s : Scanner)
    (h : s.construct = .code ∨ behindStray ∨ s.StrayAhead) :
    Tiles behindStray s.cursor.offset s.rest s.tokens := by
  induction hn : s.rest.length using Nat.strongRecOn generalizing s behindStray with
  | ind n ih =>
    subst hn
    obtain ⟨gap, hover, hgap, hend⟩ := skip_over h
    have hoffset : s.skip.cursor.offset = s.cursor.offset + extent gap := by
      rw [hover.cursor, Position.offset_advance]
      rfl
    by_cases hnil : s.skip.rest = []
    · have hrest : s.rest = gap := by rw [hover.rest, hnil, List.append_nil]
      rw [tokens_of_end hnil, hrest]
      exact .last hgap rfl rfl rfl hoffset
    · obtain ⟨lexeme, hcuts⟩ :=
        cuts_cutToken hnil (hend.imp_right fun hstray => hstray.resolve_left hnil)
      have hrest : s.rest = gap ++ lexeme ++ s.next.2.rest := by
        rw [List.append_assoc, hover.rest, hcuts.passed.rest]
        rfl
      have hstart : s.next.1.start = s.skip.cursor.offset :=
        congrArg (·.start.offset) hcuts.span
      have hstop : s.next.1.stop = s.next.2.cursor.offset :=
        congrArg (·.stop.offset) hcuts.span
      have hcursor : s.next.2.cursor = s.skip.cursor.advance lexeme := hcuts.passed.cursor
      have hmore := ih _ (length_next s hcuts.more) s.next.2 hcuts.behind rfl
      rw [tokens_of_more hcuts.more, hrest]
      refine .more hgap hcuts.cut hcuts.more hcuts.taken (hstart.trans hoffset) ?_ ?_
      · rw [hstop, hstart, hcursor, Position.offset_advance]
        rfl
      · rw [← hstop] at hmore
        exact hmore

end Scanner

end LabelGraph
