import LabelGraph.Proofs.Token.Place

/-!
What a span quotes from its text. A token quotes what it spells. A name and the colon right
behind it, which have only blanks between them, quote the name, these blanks and the colon.
-/

namespace LabelGraph

open Atom Lexeme

/-- The span covers these bytes of the text, and its two ends are true positions. -/
structure Span.Quotes (source : List UInt8) (span : Span) (bytes : List UInt8) : Prop where
  bytes : slice source span.start.offset span.stop.offset = bytes
  start : span.start.IsTrue source
  stop : span.stop.IsTrue source

namespace Position

theorem advance_ahead (p : Position) (atoms : List Atom) :
    p.line < (p.advance atoms).line ∨ p.line = (p.advance atoms).line ∧
      p.column ≤ (p.advance atoms).column ∧ p.offset ≤ (p.advance atoms).offset := by
  induction atoms generalizing p with
  | nil => exact .inr ⟨rfl, Nat.le_refl _, Nat.le_refl _⟩
  | cons a atoms ih =>
    have hmore := ih (p.after a)
    have hstep : p.line < (p.after a).line ∨ p.line = (p.after a).line ∧
        p.column ≤ (p.after a).column ∧ p.offset ≤ (p.after a).offset := by
      unfold after
      split
      · exact .inl (Nat.lt_succ_self _)
      · exact .inr ⟨rfl, Nat.le_succ _, Nat.le_add_right _ _⟩
    simp only [advance, List.foldl_cons] at hmore ⊢
    omega

/-- A position is not ahead of one that it moves to. -/
theorem compare_advance (p : Position) (atoms : List Atom) :
    (p.compare (p.advance atoms)).isLE := by
  have hle {i j : Nat} (hij : i ≤ j) : compare i j = .lt ∨ compare i j = .eq :=
    (Nat.lt_or_eq_of_le hij).imp Nat.compare_eq_lt.2 Nat.compare_eq_eq.2
  unfold Position.compare
  rcases advance_ahead p atoms with hline | ⟨hline, hcolumn, hoffset⟩
  · simp [Nat.compare_eq_lt.2 hline]
  · rcases hle hcolumn with hcolumn | hcolumn <;> rcases hle hoffset with hoffset | hoffset <;>
      simp [Nat.compare_eq_eq.2 hline, hcolumn, hoffset]

/-- A position is ahead of one from which it came over something. -/
theorem advance_compare {p : Position} {atoms : List Atom}
    (h : p.offset < (p.advance atoms).offset) : ((p.advance atoms).compare p).isLE = false := by
  unfold Position.compare
  rcases advance_ahead p atoms with hline | ⟨hline, hcolumn, -⟩
  · simp [Nat.compare_eq_gt.2 hline]
  · rcases Nat.lt_or_eq_of_le hcolumn with hcolumn | hcolumn
    · simp [Nat.compare_eq_eq.2 hline.symm, Nat.compare_eq_gt.2 hcolumn]
    · simp [Nat.compare_eq_eq.2 hline.symm, Nat.compare_eq_eq.2 hcolumn.symm,
        Nat.compare_eq_gt.2 h]

/-! Positions of one text. -/

namespace Within

variable {source : List UInt8} {p q : Position}

theorem advance (hp : p.Within source) (hq : q.Within source) (hle : p.offset ≤ q.offset) :
    ∃ more, q = p.advance more := by
  obtain ⟨front, hfront, rfl⟩ := hp
  obtain ⟨front', hfront', rfl⟩ := hq
  rw [Position.start_advance, Position.start_advance] at hle
  obtain ⟨more, rfl⟩ := Atom.prefix_of_extent hfront hfront' hle
  exact ⟨more, advance_append _ _ _⟩

/-- Positions of one text are ordered as their offsets are. -/
theorem compare_isLE (hp : p.Within source) (hq : q.Within source) :
    (p.compare q).isLE = decide (p.offset ≤ q.offset) := by
  by_cases hle : p.offset ≤ q.offset
  · obtain ⟨more, rfl⟩ := hp.advance hq hle
    rw [compare_advance, decide_eq_true hle]
  · obtain ⟨more, rfl⟩ := hq.advance hp (Nat.le_of_not_le hle)
    rw [advance_compare (Nat.lt_of_not_le hle), decide_eq_false hle]

theorem min_eq (hp : p.Within source) (hq : q.Within source) :
    p.min q = if p.offset ≤ q.offset then p else q := by
  simp only [Position.min, hp.compare_isLE hq, decide_eq_true_eq]

theorem max_eq (hp : p.Within source) (hq : q.Within source) :
    p.max q = if p.offset ≤ q.offset then q else p := by
  simp only [Position.max, hp.compare_isLE hq, decide_eq_true_eq]

theorem offset_le (hp : p.Within source) : p.offset ≤ source.length := by
  obtain ⟨front, ⟨back, hsource⟩, rfl⟩ := hp
  rw [Position.start_advance, ← Utf8.bytesOf_decode source, bytesOf_length, ← hsource,
    extent_append]
  exact Nat.le_add_right _ _

end Within

end Position

/-- The span of two stretches of text, the second one of which starts behind where the first
one starts, and ends behind where it ends. -/
theorem Span.join_advance {a b : Span} {first second : List Atom}
    (hstart : b.start = a.start.advance first) (hstop : b.stop = a.stop.advance second) :
    a.join b = { start := a.start, stop := b.stop } := by
  have hmin := Position.compare_advance a.start first
  have hmax := Position.compare_advance a.stop second
  rw [← hstart] at hmin
  rw [← hstop] at hmax
  rw [join, Position.min, Position.max, if_pos hmin, if_pos hmax]

namespace Scanner

variable {s : Scanner}

/-- What stands behind a comment is no token of a statement. -/
theorem cutToken_behind_comment (h : ∀ c more, s.rest = .char c :: more → isCommentChar c = false) :
    s.cutToken.1.kind ∈ [.newline, .corrupt, .error, .eof] := by
  cases hrest : s.rest with
  | nil => simp [cutToken_end hrest]
  | cons a more =>
    cases a with
    | stray b => simp [cutToken_stray hrest, cut]
    | char c =>
      rcases stop_cases (h c more hrest) with rfl | rfl <;>
        simp [cutToken_lexeme hrest rfl, cut]

/-- A kind of punctuation stands for one character. -/
theorem punctuation?_inj {c d : Char} {kind : Kind} (h : punctuation? c = some kind)
    (h' : punctuation? d = some kind) : c = d := by
  unfold punctuation? at h
  split at h <;> cases h <;> unfold punctuation? at h' <;> split at h' <;> cases h' <;> rfl

theorem longest?_punctuation {c d : Char} {rest : List Atom} {kind : Kind} {n : Nat}
    (hkind : punctuation? d = some kind) (h : longest? c rest = some (kind, n)) :
    c = d ∧ n = 1 := by
  unfold longest? at h
  split at h
  · next hpunctuation =>
    cases h
    exact ⟨punctuation?_inj hpunctuation hkind, rfl⟩
  · have hspelled : kind ∉ [.identifier, .number, .directive, .register, .stringLiteral] := by
      unfold punctuation? at hkind
      split at hkind <;> cases hkind <;> decide
    repeat' split at h
    all_goals
      first
      | contradiction
      | cases h
        simp at hspelled
      | obtain ⟨_, _, heq⟩ := Option.map_eq_some_iff.1 h
        cases heq
        simp at hspelled

/-- In front of a token of a statement only blanks are skipped. -/
theorem skip_blanks (h : s.construct = .code ∨ s.StrayAhead)
    (hkind : s.next.1.kind ∉ [.newline, .corrupt, .error, .eof]) :
    ∃ blanks, s.Over blanks s.skip ∧ ∀ a ∈ blanks, a.satisfies isBlank := by
  by_cases hcode : s.construct = .code
  case neg =>
    obtain ⟨b, more, hstray⟩ := h.resolve_left hcode
    have hskip := skip_open hcode (hstray ▸ Construct.close?_stray hcode b more)
    rw [hstray, validRun_stray, advance_zero] at hskip
    refine absurd ?_ hkind
    simp [next, hskip, cutToken_stray hstray, cut]
  have hskip := skip_code hcode
  unfold skipTrivia at hskip
  refine ⟨_, ?_, all_take_run isBlank s.rest⟩
  by_cases hcomment : headIs startsComment (s.advance (run isBlank s.rest)).rest
  case neg =>
    rw [if_neg hcomment] at hskip
    rw [hskip]
    exact .of_advance s _
  case pos =>
    rw [if_pos hcomment] at hskip
    refine absurd (cutToken_behind_comment fun c more hrest => ?_) hkind
    rw [hskip] at hrest
    simp only at hrest
    split at hrest
    · next hstray =>
      rw [hstray] at hrest
      cases hrest
    · exact stop_of_run hrest

/-- A token that is not the last one, the gap in front of it, and what it is cut from. -/
theorem next_cuts (h : s.next.1.kind ≠ .eof) :
    ∃ lexeme, s.skip.Cuts lexeme s.next.1 s.next.2 := by
  have hbehind : s.construct = .code ∨ True ∨ s.StrayAhead := .inr (.inl trivial)
  obtain ⟨gap, -, -, hend⟩ := skip_over hbehind
  have hmore : s.skip.rest ≠ [] := by
    intro hnil
    apply h
    rw [next_eof hnil]
  exact cuts_cutToken hmore (hend.imp_right fun hstray => hstray.resolve_left hmore)

theorem cutToken_punctuation {c : Char} {kind : Kind} (hkind : punctuation? c = some kind)
    (h : s.cutToken.1.kind = kind) : s.cutToken.1.text.toList = [c] := by
  have hnone : kind ∉ [.error, .eof] := by
    unfold punctuation? at hkind
    split at hkind <;> cases hkind <;> decide
  cases hrest : s.rest with
  | nil => simp [← h, cutToken_end hrest] at hnone
  | cons a more =>
    cases a with
    | stray b => simp [← h, cutToken_stray hrest, cut] at hnone
    | char d =>
      cases hlongest : longest? d more with
      | some found =>
        obtain ⟨kind', n⟩ := found
        rw [cutToken_lexeme hrest hlongest] at h ⊢
        cases (show kind' = kind from h)
        obtain ⟨rfl, rfl⟩ := longest?_punctuation hkind hlongest
        simp [cut, hrest, textOf, Atom.char?]
      | none =>
        by_cases hquote : d = '"'
        · subst hquote
          obtain ⟨n, hcut⟩ := cutOpenString_text s more
          rw [cutToken_open hrest hlongest, hcut] at h
          exact absurd (h ▸ hnone) (by simp [cut])
        · rw [cutToken_unknown hrest hlongest hquote] at h
          exact absurd (h ▸ hnone) (by simp [cut])

variable {t : Scanner} {source : List UInt8} {atoms : List Atom}

/-- What a scanner of a text passes over is what stands there. -/
theorem Over.slice_eq (h : s.Over atoms t) (hs : (ofBytes source).Ahead s) :
    slice source s.cursor.offset t.cursor.offset = bytesOf atoms := by
  obtain ⟨front, hdecode, hcursor⟩ := hs.split
  rw [← Utf8.bytesOf_decode source, hdecode, h.rest]
  apply Tiles.slice_atoms
  · rw [hcursor, Position.start_advance]
  · rw [h.cursor, Position.offset_advance]
    rfl

/-- A token and its gap, cut from a text. Its text is what it is cut from. -/
theorem next_spells (h : s.next.1.kind ∉ [.error, .eof]) :
    ∃ lexeme, s.skip.Cuts lexeme s.next.1 s.next.2 ∧
      bytesOf lexeme = Utf8.encode s.next.1.text.toList ∧
      (s.next.2.construct = .code ∨ s.next.2.StrayAhead) := by
  have hkind : s.next.1.kind ≠ .error ∧ s.next.1.kind ≠ .eof := by simpa using h
  have hnot : ¬ s.next.1.IsStray := fun hstray => hkind.1 hstray.1
  obtain ⟨lexeme, hcuts⟩ := next_cuts hkind.2
  have hspells := (hcuts.cut.spells hcuts.taken).resolve_left fun hstray => hnot hstray.1
  exact ⟨lexeme, hcuts, hspells.2.2.symm,
    hcuts.behind.imp_right fun hbehind => hbehind.resolve_left hnot⟩

theorem next_quotes (hs : (ofBytes source).Ahead s) (h : s.next.1.kind ∉ [.error, .eof]) :
    s.next.1.span.Quotes source (Utf8.encode s.next.1.text.toList) := by
  obtain ⟨lexeme, hcuts, hbytes, -⟩ := next_spells h
  have hskip := hs.trans (skip_ahead s)
  rw [hcuts.span]
  refine ⟨?_, hskip.isTrue, (hs.trans (next_ahead s)).isTrue⟩
  rw [← hbytes]
  exact hcuts.passed.slice_eq hskip

theorem bytesOf_strays {atoms : List Atom} (h : ∀ a ∈ atoms, a.isStray) :
    bytesOf atoms = atoms.filterMap Atom.byte? := by
  induction atoms with
  | nil => rfl
  | cons a atoms ih =>
    obtain ⟨ha, hmore⟩ := List.forall_mem_cons.1 h
    cases a with
    | char c => cases ha
    | stray b =>
      rw [bytesOf_cons, ih hmore]
      rfl

/-- An error over bytes outside UTF-8 holds the bytes of its span. -/
theorem next_bytes (hs : (ofBytes source).Ahead s) (h : s.next.1.IsStray) :
    s.next.1.bytes = slice source s.next.1.start s.next.1.stop := by
  obtain ⟨lexeme, hcuts⟩ := next_cuts (s := s) (by rw [h.1]; decide)
  have hall := ((hcuts.cut.spells hcuts.taken).resolve_right fun hnot => hnot.1 h).2
  have hslice := hcuts.passed.slice_eq (hs.trans (skip_ahead s))
  have hrest := hcuts.passed.rest
  have hbytes : s.next.1.bytes = lexeme.filterMap Atom.byte? := by
    cases hlexeme : lexeme with
    | nil => exact absurd hlexeme hcuts.taken
    | cons a more =>
      rw [hlexeme] at hrest hall
      cases a with
      | char c => cases hall _ List.mem_cons_self
      | stray b =>
        have hnext : ∃ n, s.next = s.skip.cut .error n := by
          rw [next, cutToken_stray hrest]
          exact ⟨_, rfl⟩
        obtain ⟨n, hcut⟩ := hnext
        have htake : s.skip.rest.take n = .stray b :: more := by
          have hsplit := List.take_append_drop n s.skip.rest
          rw [hcut] at hrest
          exact List.append_cancel_right (hsplit.trans hrest)
        rw [hcut, cut, htake]
  rw [hbytes, ← bytesOf_strays hall, ← hslice, Token.start, Token.stop, hcuts.span]

/-- A colon behind a name has only blanks in front of it. -/
theorem quotes_colon (hs : (ofBytes source).Ahead s) (hname : s.next.1.kind = .identifier)
    (hcolon : s.next.2.next.1.kind = .colon) :
    ∃ blanks, (∀ b ∈ blanks, b ∈ [0x20, 0x09, 0x0C, 0x0D]) ∧
      (s.next.1.span.join s.next.2.next.1.span).Quotes source
        (Utf8.encode s.next.1.text.toList ++ blanks ++ [0x3A]) := by
  obtain ⟨name, hfirst, hnameBytes, hcode⟩ := next_spells (s := s) (by rw [hname]; decide)
  obtain ⟨blanks, hgap, hclass⟩ := skip_blanks hcode (by rw [hcolon]; decide)
  obtain ⟨colon, hsecond, hcolonBytes, -⟩ :=
    next_spells (s := s.next.2) (by rw [hcolon]; decide)
  rw [show s.next.2.next.1.text.toList = [':'] from cutToken_punctuation rfl hcolon] at hcolonBytes
  have hjoin := Span.join_advance (a := s.next.1.span) (b := s.next.2.next.1.span)
    (by rw [hfirst.span, hsecond.span]; exact (hfirst.passed.trans hgap).cursor)
    (by rw [hfirst.span, hsecond.span]; exact (hgap.trans hsecond.passed).cursor)
  have hskip := hs.trans (skip_ahead s)
  refine ⟨bytesOf blanks, blanks_bytes hclass, ?_⟩
  rw [hjoin, hfirst.span, hsecond.span]
  refine ⟨?_, hskip.isTrue, ((hs.trans (next_ahead s)).trans (next_ahead _)).isTrue⟩
  rw [((hfirst.passed.trans hgap).trans hsecond.passed).slice_eq hskip, bytesOf_append,
    bytesOf_append, hnameBytes, hcolonBytes]
  rfl

theorem afterCalls_succ (s : Scanner) (n : Nat) :
    s.afterCalls (n + 1) = (s.afterCalls n).next.2 := by
  induction n generalizing s with
  | zero => rfl
  | succ n ih => exact ih s.next.2

end Scanner

section Tokens

variable {source : List UInt8}

theorem next_of_token {t : Token} {n : Nat} (h : (tokenize source)[n]? = some t) :
    ((Scanner.ofBytes source).afterCalls n).next.1 = t := by
  have hcall := (Scanner.ofBytes source).call_tokens n
  rw [← tokenize, h, Option.some_or] at hcall
  rw [← Scanner.call_eq, ← Option.some.inj hcall]

/-- A token that spells something quotes it. -/
theorem Token.quotes {t : Token} (ht : t ∈ tokenize source) (hkind : t.kind ∉ [.error, .eof]) :
    t.span.Quotes source (Utf8.encode t.text.toList) := by
  obtain ⟨n, hn⟩ := List.mem_iff_getElem?.1 ht
  have hnext := next_of_token hn
  rw [← hnext] at hkind ⊢
  exact Scanner.next_quotes (Scanner.afterCalls_ahead _ n) hkind

/-- A name with the colon behind it quotes the name, blanks and the colon. -/
theorem Token.quotes_colon {name colon : Token} (h : [name, colon] <:+: tokenize source)
    (hname : name.kind = .identifier) (hcolon : colon.kind = .colon) :
    ∃ blanks, (∀ b ∈ blanks, b ∈ [0x20, 0x09, 0x0C, 0x0D]) ∧
      (name.span.join colon.span).Quotes source
        (Utf8.encode name.text.toList ++ blanks ++ [0x3A]) := by
  obtain ⟨first, second, htokens⟩ := h
  have hname' : (tokenize source)[first.length]? = some name := by simp [← htokens]
  have hcolon' : (tokenize source)[first.length + 1]? = some colon := by simp [← htokens]
  have hfirst := next_of_token hname'
  have hsecond := next_of_token hcolon'
  rw [Scanner.afterCalls_succ] at hsecond
  rw [← hfirst] at hname ⊢
  rw [← hsecond] at hcolon ⊢
  exact Scanner.quotes_colon (Scanner.afterCalls_ahead _ _) hname hcolon

theorem Token.stray_bytes {t : Token} (ht : t ∈ tokenize source) (hstray : t.IsStray) :
    t.bytes = slice source t.start t.stop := by
  obtain ⟨n, hn⟩ := List.mem_iff_getElem?.1 ht
  have hnext := next_of_token hn
  rw [← hnext] at hstray ⊢
  exact Scanner.next_bytes (Scanner.afterCalls_ahead _ n) hstray

theorem Token.within {t : Token} (ht : t ∈ tokenize source) : t.Within source := by
  obtain ⟨n, hn⟩ := List.mem_iff_getElem?.1 ht
  rw [← next_of_token hn, ← Scanner.call_eq]
  exact Scanner.call_within source n

end Tokens

end LabelGraph
