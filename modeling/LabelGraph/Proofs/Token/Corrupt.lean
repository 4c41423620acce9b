import LabelGraph.Proofs.Text.Lines
import LabelGraph.Proofs.Token.Followed
import LabelGraph.Proofs.Token.Quote

/-!
What stands behind a NUL. A step of the scanner that stays in front of a NUL does not depend on
what follows it: only a string that is still open there looks further, and such a step passes
the NUL. So where a token is cut from a NUL, the tokens up to it are the same in every text that
starts like this one.
-/

namespace LabelGraph

open Atom Lexeme

variable {atoms rest more : List Atom}

/-! What is passed by a string that is still open. -/

namespace Construct

variable {count n : Nat}

theorem le_of_closeStringAfter (h : closeStringAfter count atoms = some n) : count ≤ n := by
  obtain ⟨k, rfl, -⟩ := inLine_of_closeString h
  exact Nat.le_add_right ..

/-- An open string takes any character in front of it but a line feed. -/
theorem lt_of_closeStringAfter {c : Char} (hfeed : c ≠ '\n')
    (h : closeStringAfter count (.char c :: rest) = some n) : count < n := by
  generalize hatoms : Atom.char c :: rest = atoms at h
  fun_induction closeStringAfter count atoms with
  | case1 => cases h; exact Nat.lt_succ_self _
  | case2 => cases hatoms; exact absurd rfl hfeed
  | case3 => cases h; exact Nat.lt_succ_self _
  | case4 => exact Nat.lt_of_succ_lt (le_of_closeStringAfter h)
  | case5 => exact le_of_closeStringAfter h
  | case6 => cases hatoms
  | case7 => cases hatoms

/-- A string that is still open behind the atoms does not close in front of there. -/
theorem length_le_of_closeStringAfter (hopen : closeStringAfter count atoms = none)
    (hvalid : ∀ b, .stray b ∉ atoms) (h : closeStringAfter count (atoms ++ more) = some n) :
    count + atoms.length ≤ n := by
  fun_induction closeStringAfter count atoms with
  | case1 => cases hopen
  | case2 => cases hopen
  | case3 => cases hopen
  | case4 count c rest hc ih =>
    have hrest := ih hopen (fun b hb => hvalid b (by simp [hb]))
      ((closeStringAfter_escape hc count (rest ++ more)).symm.trans h)
    simp only [List.length_cons]
    omega
  | case5 count c rest hquote hfeed hescape ih =>
    cases rest with
    | nil => exact lt_of_closeStringAfter hfeed h
    | cons a rest =>
      have hrest := ih hopen (fun b hb => hvalid b (List.mem_cons_of_mem _ hb)) (by
        rw [List.cons_append, closeStringAfter] at h
        · exact h
        · exact hquote
        · exact hfeed
        · intro d tail heq hc
          exact hescape d rest (congrArg (· :: rest) (List.cons.inj heq).1) hc)
      rw [List.length_cons]
      omega
  | case6 count b rest => exact absurd (List.mem_cons_self ..) (hvalid b)
  | case7 count => exact le_of_closeStringAfter h

/-- What is not decided in front of a NUL is an open string, in valid text. -/
theorem open_of_not_decided {construct : Construct} (hnul : .char '\x00' ∈ atoms)
    (h : ¬ construct.Decided atoms) :
    construct = .string ∧ closeStringAfter 0 atoms = none ∧ ∀ b, .stray b ∉ atoms := by
  have hstring : construct = .string :=
    Decidable.not_not.1 fun hne => h (.of_stop hne stop_nul hnul)
  subst hstring
  exact ⟨rfl, Decidable.not_not.1 fun hclose => h (.inl hclose), fun b hb => h (.inr ⟨b, hb⟩)⟩

end Construct

namespace Scanner

variable {s t : Scanner}

/-! Where the text ends. -/

def endOffset (s : Scanner) : Nat := s.cursor.offset + extent s.rest

theorem offset_advance (s : Scanner) (n : Nat) :
    (s.advance n).cursor.offset = s.cursor.offset + extent (s.rest.take n) :=
  Position.offset_advance ..

theorem Ahead.endOffset (h : s.Ahead t) : t.endOffset = s.endOffset := by
  obtain ⟨n, hrest, hcursor⟩ := h
  have htext := extent_append (s.rest.take n) (s.rest.drop n)
  rw [List.take_append_drop] at htext
  rw [Scanner.endOffset, Scanner.endOffset, hrest, hcursor, offset_advance, htext, Nat.add_assoc]
  rfl

/-- A scanner that has not passed the text has its last atom ahead. -/
theorem Ahead.getLast? {a : Atom} (h : s.Ahead t) (hlast : s.rest.getLast? = some a)
    (hlt : t.cursor.offset < s.endOffset) : t.rest.getLast? = some a := by
  have hmore : t.rest ≠ [] := by
    intro hnil
    rw [← h.endOffset, Scanner.endOffset, hnil] at hlt
    exact Nat.lt_irrefl _ hlt
  obtain ⟨n, hrest, -⟩ := h
  change t.rest = s.rest.drop n at hrest
  rw [hrest] at hmore ⊢
  rw [List.getLast?_drop, if_neg (by simpa using hmore), hlast]

/-- Moving over at least the text in front leaves it behind. -/
theorem endOffset_le_advance {n : Nat} (hn : s.rest.length ≤ n) :
    s.endOffset ≤ ((s.followed more).advance n).cursor.offset := by
  rw [offset_advance, followed, List.take_append, List.take_of_length_le hn, extent_append,
    endOffset, ← Nat.add_assoc]
  exact Nat.le_add_right ..

/-- In front of the last byte there is only the last atom. -/
theorem rest_eq_of_last {c : Char} (hlast : s.rest.getLast? = some (.char c))
    (hend : s.cursor.offset + c.utf8Size = s.endOffset) : s.rest = [.char c] := by
  obtain ⟨front, hfront⟩ := List.getLast?_eq_some_iff.1 hlast
  have hone : extent [.char c] = c.utf8Size := rfl
  rw [endOffset, hfront, extent_append, hone] at hend
  cases front with
  | nil => exact hfront
  | cons a front =>
    have hpos := a.size_pos
    rw [extent_cons] at hend
    omega

theorem next_of_tokens {t : Token} {tail : List Token} (h : s.tokens = t :: tail) :
    s.next.1 = t := by
  by_cases hend : s.next.1.kind = .eof
  · rw [tokens_of_eof hend] at h
    exact (List.cons.inj h).1
  · rw [tokens_of_more hend] at h
    exact (List.cons.inj h).1

theorem closeConstruct_le_skip (s : Scanner) :
    s.closeConstruct.cursor.offset ≤ s.skip.cursor.offset := by
  simp only [skip]
  cases s.closeConstruct.construct with
  | code => exact (skipTrivia_ahead _).offset_le
  | comment => exact Nat.le_refl _
  | string => exact Nat.le_refl _

/-! Steps in front of a NUL. -/

section Corrupt

variable (hlast : s.rest.getLast? = some (.char '\x00'))
include hlast

/-- A construct that closes in front of the NUL, or at stray bytes there, is decided there. -/
theorem decided_of_before
    (hlt : (s.followed more).closeConstruct.cursor.offset < s.endOffset) :
    s.construct.Decided s.rest := by
  refine Classical.not_not.1 fun hnot => Nat.not_le.2 hlt ?_
  obtain ⟨hstring, hopen, hvalid⟩ :=
    Construct.open_of_not_decided (List.mem_of_getLast? hlast) hnot
  cases hclose : (s.followed more).construct.close? (s.followed more).rest with
  | some n =>
    rw [closeConstruct_some hclose]
    refine endOffset_le_advance ?_
    rw [followed, hstring] at hclose
    exact (Nat.zero_add _).symm.trans_le
      (Construct.length_le_of_closeStringAfter hopen hvalid hclose)
  | none =>
    rw [closeConstruct_none hclose]
    refine endOffset_le_advance ?_
    rw [followed, validRun_of_valid hvalid]
    exact Nat.le_add_right ..

theorem skip_before (hlt : (s.followed more).skip.cursor.offset < s.endOffset)
    (other : List Atom) : (s.followed other).skip = s.skip.followed other := by
  have hclose : (s.followed more).closeConstruct.cursor.offset < s.endOffset :=
    Nat.lt_of_le_of_lt (closeConstruct_le_skip _) hlt
  have hdecided := decided_of_before hlast hclose
  rw [closeConstruct_followed hdecided] at hclose
  refine skip_followed stop_nul hdecided (List.mem_of_getLast? ?_) other
  exact (closeConstruct_ahead s).getLast? hlast hclose

/-- A string that is opened in front of the NUL, and ends there, is decided there. -/
theorem opened_of_before (hs : s.rest = .char '"' :: rest)
    (hlt : (s.followed more).cutToken.2.cursor.offset < s.endOffset) :
    Construct.string.Decided rest := by
  refine Classical.not_not.1 fun hnot => Nat.not_le.2 hlt ?_
  have hnul : .char '\x00' ∈ rest := by
    have hmem := List.mem_of_getLast? hlast
    rw [hs] at hmem
    simpa using hmem
  obtain ⟨-, hopen, hvalid⟩ := Construct.open_of_not_decided hnul hnot
  have hclosed {n : Nat} (h : Construct.closeStringAfter 0 (rest ++ more) = some n) :
      rest.length ≤ n := by
    have hle := Construct.length_le_of_closeStringAfter hopen hvalid h
    omega
  have hpassed {n : Nat} (hn : rest.length ≤ n) :
      s.endOffset ≤ ((s.followed more).advance (1 + n)).cursor.offset := by
    refine endOffset_le_advance ?_
    rw [hs, List.length_cons]
    omega
  have hmore : (s.followed more).rest = .char '"' :: (rest ++ more) := by rw [followed, hs]; rfl
  rw [cutToken_quote hmore]
  cases hquoted : quoted? (rest ++ more) with
  | some n => exact hpassed (hclosed (Construct.closeStringAfter_of_quotedAfter hquoted))
  | none =>
    simp only [cutOpenString]
    cases hclose : Construct.string.close? (rest ++ more) with
    | some n => exact hpassed (hclosed hclose)
    | none =>
      have hle : rest.length ≤ validRun (rest ++ more) := by
        rw [validRun_of_valid hvalid]
        exact Nat.le_add_right ..
      simp only
      split <;> exact hpassed hle

theorem cutToken_before (hlt : (s.followed more).cutToken.2.cursor.offset < s.endOffset)
    (other : List Atom) :
    (s.followed other).cutToken = (s.cutToken.1, s.cutToken.2.followed other) :=
  cutToken_followed stop_nul (List.mem_of_getLast? hlast)
    (fun _ hs => opened_of_before hlast hs hlt) other

/-- A step that stays in front of the NUL does not depend on what follows it. -/
theorem next_before (hlt : (s.followed more).next.2.cursor.offset < s.endOffset) :
    s.next.2.rest.getLast? = some (.char '\x00') ∧ s.next.2.endOffset = s.endOffset ∧
      ∀ other, (s.followed other).next = (s.next.1, s.next.2.followed other) := by
  have hskip : (s.followed more).skip.cursor.offset < s.endOffset :=
    Nat.lt_of_le_of_lt (cutToken_ahead _).1.offset_le hlt
  have hskipped := skip_before hlast hskip
  rw [hskipped] at hskip
  have hlast' : s.skip.rest.getLast? = some (.char '\x00') :=
    (skip_ahead s).getLast? hlast hskip
  rw [next, hskipped, ← (skip_ahead s).endOffset] at hlt
  have hcut := cutToken_before hlast' hlt
  have hstep (other : List Atom) :
      (s.followed other).next = (s.next.1, s.next.2.followed other) := by
    rw [next, hskipped, hcut]
    rfl
  rw [hcut, (skip_ahead s).endOffset] at hlt
  exact ⟨(next_ahead s).getLast? hlast hlt, (next_ahead s).endOffset, hstep⟩

/-- Where a token is cut from the NUL, it is the same one whatever follows. -/
theorem next_at (hstart : (s.followed more).next.1.span.start.offset + 1 = s.endOffset) :
    s.next.1.kind = .corrupt ∧
      ∀ other, (s.followed other).next = (s.next.1, s.next.2.followed other) := by
  rw [start_next] at hstart
  have hlt : (s.followed more).skip.cursor.offset < s.endOffset := by omega
  have hskipped := skip_before hlast hlt
  rw [hskipped] at hstart
  have hskip : s.skip.cursor.offset + 1 = s.endOffset := hstart
  have hlast' : s.skip.rest.getLast? = some (.char '\x00') :=
    (skip_ahead s).getLast? hlast (by omega)
  have hnul : s.skip.rest = [.char '\x00'] :=
    rest_eq_of_last hlast' (hskip.trans (skip_ahead s).endOffset.symm)
  have hcut := cutToken_followed (s := s.skip) stop_nul (by simp [hnul]) (by simp [hnul])
  refine ⟨?_, fun other => ?_⟩
  · rw [next, cutToken_lexeme hnul rfl]
    rfl
  · rw [next, hskipped, hcut]
    rfl

/-- The tokens up to the one that is cut from the NUL are the same whatever follows. -/
theorem tokens_before {init tail : List Token} {t : Token}
    (htokens : (s.followed more).tokens = init ++ t :: tail)
    (hstart : t.span.start.offset + 1 = s.endOffset) :
    ∀ other, ∃ tail', (s.followed other).tokens = init ++ t :: tail' := by
  -- Up to there every step leaves the NUL ahead, as the last atom and at the same offset.
  induction hn : s.rest.length using Nat.strongRecOn generalizing s init with
  | ind n ih =>
    subst hn
    cases init with
    | nil =>
      have hfirst := next_of_tokens htokens
      rw [← hfirst] at hstart
      obtain ⟨hkind, hnext⟩ := next_at hlast hstart
      rw [hnext] at hfirst
      intro other
      refine ⟨(s.next.2.followed other).tokens, ?_⟩
      have hmore : (s.followed other).next.1.kind ≠ .eof := by
        rw [hnext]
        exact hkind ▸ Kind.noConfusion
      rw [tokens_of_more hmore, hnext, ← hfirst]
      rfl
    | cons u init =>
      by_cases hend : (s.followed more).next.1.kind = .eof
      · rw [tokens_of_eof hend] at htokens
        simp at htokens
      rw [tokens_of_more hend] at htokens
      obtain ⟨hfirst, hrest⟩ := List.cons.inj htokens
      have hle := (tokens_ordered (s.followed more).next.2).2 t (by rw [hrest]; simp)
      have hlt : (s.followed more).next.2.cursor.offset < s.endOffset := by omega
      obtain ⟨hlast', hend', hnext⟩ := next_before hlast hlt
      rw [hnext] at hend hrest hfirst
      intro other
      obtain ⟨tail', htail⟩ :=
        ih _ (length_next s hend) hlast' hrest (hstart.trans hend'.symm) rfl other
      refine ⟨tail', ?_⟩
      have hmore : (s.followed other).next.1.kind ≠ .eof := by rwa [hnext]
      rw [tokens_of_more hmore, hnext, htail, hfirst]
      rfl

end Corrupt

end Scanner

open Utf8

def firstCorrupt? (source : List UInt8) : Option Token :=
  (tokenize source).find? (·.kind = .corrupt)

section Tokens

variable {source source' : List UInt8}

/-- A corrupt token is cut from a NUL. -/
theorem Token.nul {t : Token} (ht : t ∈ tokenize source) (hkind : t.kind = .corrupt) :
    ∃ after, source = source.take t.start ++ [0x00] ++ after := by
  have htext : t.text.toList = ['\x00'] :=
    Scanner.forall_tokens (P := fun t => t.kind = .corrupt → t.text.toList = ['\x00'])
      (fun s => Scanner.cutToken_punctuation rfl) _ t ht hkind
  have hquotes := (Token.quotes ht (by rw [hkind]; decide)).bytes
  rw [htext] at hquotes
  change (source.drop t.start).take (t.stop - t.start) = [0x00] at hquotes
  have hprefix := List.take_prefix (t.stop - t.start) (source.drop t.start)
  rw [hquotes] at hprefix
  obtain ⟨after, hafter⟩ := hprefix
  refine ⟨after, ?_⟩
  rw [List.append_assoc, hafter, List.take_append_drop]

/-- The tokens of a text in front of a NUL, and of the NUL, are those of another text. -/
theorem tokenize_before {before after : List UInt8} {init tail : List Token} {t : Token}
    (htokens : tokenize (before ++ [0x00] ++ after) = init ++ t :: tail)
    (hstart : t.start = before.length) (other : List UInt8) :
    ∃ tail', tokenize (before ++ [0x00] ++ other) = init ++ t :: tail' := by
  have hsource (after : List UInt8) : Scanner.ofBytes (before ++ [0x00] ++ after) =
      Scanner.followed { rest := decode before ++ [.char '\x00'] } (decode after) := by
    have hdecode := decode_split before '\x00' after
    rw [List.append_cons] at hdecode
    exact congrArg (fun rest => ({ rest } : Scanner)) hdecode
  have hend : Scanner.endOffset { rest := decode before ++ [.char '\x00'] } =
      before.length + 1 := by
    rw [Scanner.endOffset, extent_append, ← bytesOf_length, bytesOf_decode]
    exact Nat.zero_add _
  rw [tokenize, hsource] at htokens
  obtain ⟨tail', htail⟩ := Scanner.tokens_before List.getLast?_concat htokens
    ((congrArg (· + 1) hstart).trans hend.symm) (decode other)
  refine ⟨tail', ?_⟩
  rw [tokenize, hsource, htail]

/-- The tokens of a text up to a corrupt one are those of every text that agrees with it on the
bytes up to there. -/
theorem tokenize_corrupt {init tail : List Token} {t : Token}
    (htokens : tokenize source = init ++ t :: tail) (hkind : t.kind = .corrupt)
    (hsame : source'.take (t.start + 1) = source.take (t.start + 1)) :
    ∃ tail', tokenize source' = init ++ t :: tail' := by
  have hmem : t ∈ tokenize source := by simp [htokens]
  obtain ⟨after, hsource⟩ := Token.nul hmem hkind
  have hlength : (source.take t.start).length = t.start := by
    have htotal := congrArg List.length hsource
    simp only [List.length_append, List.length_take, List.length_singleton] at htotal ⊢
    omega
  have hfront : source.take (t.start + 1) = source.take t.start ++ [0x00] := by
    have htake := congrArg (List.take (t.start + 1)) hsource
    rwa [List.take_left' (by rw [List.length_append, hlength]; rfl)] at htake
  have hsource' : source' = source.take t.start ++ [0x00] ++ source'.drop (t.start + 1) := by
    rw [← hfront, ← hsame, List.take_append_drop]
  rw [hsource] at htokens
  rw [hsource']
  exact tokenize_before htokens hlength.symm _

theorem firstCorrupt?_eq {t : Token} :
    firstCorrupt? source = some t ↔ t.kind = .corrupt ∧
      ∃ init tail, tokenize source = init ++ t :: tail ∧ ∀ u ∈ init, u.kind ≠ .corrupt := by
  simp [firstCorrupt?, List.find?_eq_some_iff_append]

theorem firstCorrupt?_of_mem (h : ∃ t ∈ tokenize source, t.kind = .corrupt) :
    ∃ t, firstCorrupt? source = some t := by
  rw [← Option.isSome_iff_exists, firstCorrupt?, List.find?_isSome]
  simpa using h

end Tokens

end LabelGraph
