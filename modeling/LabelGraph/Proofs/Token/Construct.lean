import LabelGraph.Proofs.Token.Stream

/-!
Comments and string literals as open constructs. A comment is skipped, and behind
its first character this is what closing it does. The same holds for the text of a
string literal, complete or not: behind the opening quote the scanner goes on where
the open string closes. So the tokens behind such a start are those of the open
construct, in every text.
-/

namespace LabelGraph

namespace Lexeme

theorem quotedAfter_char {c : Char} (hquote : c ≠ '"') (hfeed : c ≠ '\n') (hescape : c ≠ '\\')
    (count : Nat) (rest : List Atom) :
    quotedAfter count (.char c :: rest) = quotedAfter (count + 1) rest := by
  rw [quotedAfter]
  · exact hquote
  · exact hfeed
  · intro _ _ _
    exact hescape
  · exact hescape

/-- A comment ends in front of a line feed and of a NUL. -/
theorem stop_cases {c : Char} (hc : isCommentChar c = false) : c = '\n' ∨ c = '\x00' :=
  Decidable.or_iff_not_imp_left.2 (by simpa [isCommentChar] using hc)

theorem blank_cases {c : Char} (hc : isBlank c) :
    c = ' ' ∨ c = '\t' ∨ c = '\x0c' ∨ c = '\r' := by
  simpa [isBlank, or_assoc] using hc

theorem comment_cases {c : Char} (hc : startsComment c) : c = ';' ∨ c = '#' := by
  simpa [startsComment] using hc

theorem lt_of_quotedAfter {count n : Nat} {atoms : List Atom}
    (h : quotedAfter count atoms = some n) : count < n := by
  fun_induction quotedAfter count atoms with
  | case1 => cases h; omega
  | case2 => cases h
  | case3 => cases h
  | case4 count c rest hc ih => have := ih h; omega
  | case5 => cases h
  | case6 count c rest hquote hfeed _ hescape ih => have := ih h; omega
  | case7 => cases h
  | case8 => cases h

end Lexeme

namespace Construct

open Lexeme

theorem closeStringAfter_char {c : Char} (hquote : c ≠ '"') (hfeed : c ≠ '\n')
    (hescape : c ≠ '\\') (count : Nat) (rest : List Atom) :
    closeStringAfter count (.char c :: rest) = closeStringAfter (count + 1) rest := by
  rw [closeStringAfter]
  · exact hquote
  · exact hfeed
  · intro _ _ _
    exact hescape

theorem closeStringAfter_escape {c : Char} (hfeed : c ≠ '\n') (count : Nat) (rest : List Atom) :
    closeStringAfter count (.char '\\' :: .char c :: rest) = closeStringAfter (count + 2) rest := by
  rw [closeStringAfter, if_neg hfeed]

@[simp] theorem closeStringAfter_escapeFeed (count : Nat) (rest : List Atom) :
    closeStringAfter count (.char '\\' :: .char '\n' :: rest) = some (count + 1) := by
  rw [closeStringAfter, if_pos rfl]

theorem closeStringAfter_add (shift count : Nat) (atoms : List Atom) :
    closeStringAfter (shift + count) atoms =
      (closeStringAfter count atoms).map (shift + ·) := by
  fun_induction closeStringAfter count atoms with
  | case1 => rfl
  | case2 => rfl
  | case3 count rest => rw [closeStringAfter_escapeFeed]; rfl
  | case4 count c rest hc ih => rw [closeStringAfter_escape hc]; exact ih
  | case5 count c rest hquote hfeed hescape ih =>
    rw [closeStringAfter]
    · exact ih
    all_goals assumption
  | case6 => rfl
  | case7 => rfl

/-- A complete literal closes as an open string does. -/
theorem closeStringAfter_of_quotedAfter {count n : Nat} {atoms : List Atom}
    (h : quotedAfter count atoms = some n) : closeStringAfter count atoms = some n := by
  fun_induction quotedAfter count atoms with
  | case1 => exact h
  | case2 => cases h
  | case3 => cases h
  | case4 count c rest hc ih => exact (closeStringAfter_escape hc count rest).trans (ih h)
  | case5 => cases h
  | case6 count c rest hquote hfeed _ hescape ih =>
    exact (closeStringAfter_char hquote hfeed hescape count rest).trans (ih h)
  | case7 => cases h
  | case8 => cases h

theorem close?_comment_stop {c : Char} (hc : isCommentChar c = false) (atoms : List Atom) :
    comment.close? (.char c :: atoms) = some 0 := by
  simp only [close?, run_stop hc, List.drop_zero]

theorem close?_comment_char {c : Char} (hc : isCommentChar c) (atoms : List Atom) :
    comment.close? (.char c :: atoms) = (comment.close? atoms).map (· + 1) := by
  simp only [close?, run_char hc, List.drop_succ_cons]
  split <;> rfl

@[simp] theorem close?_comment_stray (b : UInt8) (atoms : List Atom) :
    comment.close? (.stray b :: atoms) = none := by
  simp [close?]

end Construct

namespace Scanner

open Lexeme

variable {s : Scanner}

@[simp] theorem validRun_stray (b : UInt8) (atoms : List Atom) : validRun (.stray b :: atoms) = 0 :=
  run_stray (fun _ => true) b atoms

theorem validRun_split {strays : List UInt8} {rest : List Atom} (hrun : strays = [] → rest = [])
    (valid : List Char) :
    validRun (valid.map .char ++ (strays.map .stray ++ rest)) = valid.length := by
  induction valid with
  | nil =>
    cases strays with
    | nil => rw [hrun rfl]; rfl
    | cons b strays => exact validRun_stray b _
  | cons c valid ih => exact (run_char rfl _).trans (congrArg (· + 1) ih)

/-- A run that no character ends is the whole valid text. -/
theorem validRun_of_run {p : Char → Bool} {atoms : List Atom}
    (h : ∀ c more, atoms.drop (run p atoms) ≠ .char c :: more) :
    validRun atoms = run p atoms := by
  induction atoms with
  | nil => rfl
  | cons a atoms ih =>
      cases a with
      | stray b => rfl
      | char c =>
        by_cases hc : p c
        · rw [run_char hc, List.drop_succ_cons] at h
          rw [run_char hc, validRun, run_char rfl]
          exact congrArg (· + 1) (ih h)
        · rw [run_stop (by simpa using hc)] at h
          exact absurd rfl (h c atoms)

theorem advance_open (s : Scanner) (c : Construct) (m n : Nat) :
    Scanner.advance { s.advance m with construct := c } n =
      { s.advance (m + n) with construct := c } :=
  congrArg (fun t : Scanner => { t with construct := c }) (advance_advance s m n)

/-- Tokens behind the first character of a comment. -/
theorem tokens_comment {c : Char} {rest : List Atom} (hcode : s.construct = .code)
    (hrest : s.rest = .char c :: rest) (hc : startsComment c) :
    s.tokens = Scanner.tokens { s.advance 1 with construct := .comment } := by
  have hstart := comment_cases hc
  have hblanks : run isBlank s.rest = 0 := by
    rw [hrest, run_stop (by rcases hstart with rfl | rfl <;> rfl)]
  have hhead : headIs startsComment s.rest = true := by
    simpa only [hrest, headIs, Atom.satisfies] using hc
  have hrun : run isCommentChar s.rest = 1 + run isCommentChar rest := by
    rw [hrest, run_char (by rcases hstart with rfl | rfl <;> rfl), Nat.add_comm]
  have htail : (s.advance 1).rest = rest := by simp [hrest]
  have hdrop : (s.advance (1 + run isCommentChar rest)).rest =
      rest.drop (run isCommentChar rest) := by
    rw [← advance_advance, advance, htail]
  have hstray {b : UInt8} {more : List Atom}
      (hcut : rest.drop (run isCommentChar rest) = .stray b :: more) :
      s.skip = { s.advance (1 + run isCommentChar rest) with construct := .comment } := by
    rw [skip_code hcode, skipTrivia, hblanks, advance_zero, if_pos hhead, hrun]
    simp only [hdrop, hcut]
  have hskip (hcut : ∀ b more, rest.drop (run isCommentChar rest) ≠ .stray b :: more) :
      s.skip = s.advance (1 + run isCommentChar rest) := by
    rw [skip_code hcode, skipTrivia, hblanks, advance_zero, if_pos hhead, hrun]
    simp only [hdrop]
  have hopen (hend : ∀ d more, rest.drop (run isCommentChar rest) ≠ .char d :: more) :
      Scanner.skip { s.advance 1 with construct := .comment } =
        { s.advance (1 + run isCommentChar rest) with construct := .comment } := by
    have hclose : Construct.comment.close? (s.advance 1).rest = none := by
      rw [htail, Construct.close?]
      split
      · next d more heq => exact absurd heq (hend d more)
      · rfl
    rw [skip_open (by simp) hclose, htail, validRun_of_run hend, advance_open]
  cases hmore : rest.drop (run isCommentChar rest) with
  | nil =>
    rw [hmore] at hdrop
    have hskip := hskip (by simp [hmore])
    have hopen := hopen (by simp [hmore])
    rw [tokens_of_end (by rw [hskip, hdrop]), tokens_of_end (by rw [hopen]; exact hdrop), hskip,
      hopen]
  | cons a more =>
    cases a with
    | stray b => exact tokens_of_skip ((hstray hmore).trans (hopen (by simp [hmore])).symm)
    | char d =>
      rw [hmore] at hdrop
      have hskip := hskip (by simp [hmore])
      have hclose : Construct.comment.close? (s.advance 1).rest =
          some (run isCommentChar rest) := by
        rw [htail, Construct.close?, hmore]
      have hstop := stop_cases (stop_of_run hmore)
      have hcode' : (s.advance (1 + run isCommentChar rest)).construct = .code := hcode
      rw [tokens_of_closed (s := { s.advance 1 with construct := .comment }) hclose, advance_open,
        ← hcode']
      apply tokens_of_skip
      rw [hskip, skip_code hcode', skipTrivia_token hdrop] <;> rcases hstop with rfl | rfl <;> rfl

/-- A complete string literal is a token. -/
theorem tokens_literal {rest : List Atom} {n : Nat} (hcode : s.construct = .code)
    (hrest : s.rest = .char '"' :: rest) (h : quoted? rest = some n) :
    s.tokens = (s.cut .stringLiteral (1 + n)).1 ::
      Scanner.tokens { s.advance 1 with construct := .string } := by
  have htail : (s.advance 1).rest = rest := by simp [hrest]
  have hskip : s.skip = s := by rw [skip_code hcode, skipTrivia_token hrest] <;> rfl
  have hcut : s.cutToken = s.cut .stringLiteral (1 + n) := by rw [cutToken_quote hrest, h]
  have hclose : Construct.string.close? (s.advance 1).rest = some n := by
    rw [htail]
    exact Construct.closeStringAfter_of_quotedAfter h
  rw [tokens_of_cut hskip hcut Kind.noConfusion,
    tokens_of_closed (s := { s.advance 1 with construct := .string }) hclose, advance_open,
    ← (show (s.advance (1 + n)).construct = .code from hcode)]
  rfl

/-- An opening quote without a closing one is an error. -/
theorem tokens_unclosed {rest : List Atom} (hcode : s.construct = .code)
    (hrest : s.rest = .char '"' :: rest) (h : quoted? rest = none) :
    ∃ token, token.kind = .error ∧
      s.tokens = token :: Scanner.tokens { s.advance 1 with construct := .string } := by
  have htail : (s.advance 1).rest = rest := by simp [hrest]
  have hskip : s.skip = s := by rw [skip_code hcode, skipTrivia_token hrest] <;> rfl
  have hcut : s.cutToken = s.cutOpenString rest := by rw [cutToken_quote hrest, h]
  cases hclose : Construct.string.close? rest with
  | some n =>
    rw [cutOpenString, hclose] at hcut
    refine ⟨(s.cut .error (1 + n)).1, rfl, (tokens_of_cut hskip hcut Kind.noConfusion).trans ?_⟩
    rw [tokens_of_closed (s := { s.advance 1 with construct := .string }) (htail ▸ hclose),
      advance_open, ← (show (s.advance (1 + n)).construct = .code from hcode)]
    rfl
  | none =>
    have hend : (s.advance (1 + validRun rest)).rest = rest.drop (validRun rest) := by
      rw [← advance_advance, advance, htail]
    have hopen : Scanner.skip { s.advance 1 with construct := .string } =
        { s.advance (1 + validRun rest) with construct := .string } := by
      rw [skip_open (by simp) (htail.symm ▸ hclose), htail, advance_open]
    refine ⟨(s.cut .error (1 + validRun rest)).1, rfl, ?_⟩
    cases hmore : rest.drop (validRun rest) with
    | nil =>
      rw [hmore] at hend
      have hcut' : s.cutToken =
          ((s.cut .error (1 + validRun rest)).1, s.advance (1 + validRun rest)) := by
        simp only [hcut, cutOpenString, hclose, cut, hend]
      have hnil := skip_nil hend
      rw [tokens_of_cut hskip hcut' Kind.noConfusion, tokens_of_end hnil.1, hnil.2,
        tokens_of_end (by rw [hopen]; exact hend), hopen]
    | cons a more =>
      cases a with
      | char d => exact absurd (Lexeme.stop_of_run hmore) (by simp)
      | stray b =>
        rw [hmore] at hend
        have hcut' : s.cutToken = ((s.cut .error (1 + validRun rest)).1,
            { s.advance (1 + validRun rest) with construct := .string }) := by
          simp only [hcut, cutOpenString, hclose, cut, hend]
        rw [tokens_of_cut hskip hcut' Kind.noConfusion]
        refine congrArg _ (tokens_of_skip (Eq.trans ?_ hopen.symm))
        have hstray : Construct.string.close? (s.advance (1 + validRun rest)).rest = none := by
          rw [hend]
          rfl
        rw [skip_open (by simp) hstray, hend, validRun_stray, advance_zero]

end Scanner

end LabelGraph
