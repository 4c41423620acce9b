import LabelGraph.Proofs.Text.Utf8
import LabelGraph.Token.Scanner
import Mathlib.Algebra.GroupWithZero.Nat

/-!
The token stream of a place in a text, token by token, and where its tokens
stand: each starts behind the one before it.
-/

namespace LabelGraph

def Token.reading (t : Token) : Kind × String := (t.kind, t.text)

namespace Position

@[simp] theorem offset_after (p : Position) (a : Atom) :
    (p.after a).offset = p.offset + a.size := by
  by_cases h : a = .char '\n'
  · subst h
    rfl
  · rw [after, if_neg h]

theorem offset_advance (p : Position) (atoms : List Atom) :
    (p.advance atoms).offset = p.offset + (atoms.map Atom.size).sum := by
  induction atoms generalizing p with
  | nil => rfl
  | cons a atoms ih =>
      rw [List.map_cons, List.sum_cons, ← Nat.add_assoc, ← offset_after]
      exact ih (p.after a)

end Position

namespace Lexeme

@[simp] theorem run_char {p : Char → Bool} {c : Char} (hc : p c) (atoms : List Atom) :
    run p (.char c :: atoms) = run p atoms + 1 := by
  simp [run, Atom.satisfies, hc]

@[simp] theorem run_stop {p : Char → Bool} {c : Char} (hc : p c = false) (atoms : List Atom) :
    run p (.char c :: atoms) = 0 := by
  simp [run, Atom.satisfies, hc]

@[simp] theorem run_stray (p : Char → Bool) (b : UInt8) (atoms : List Atom) :
    run p (.stray b :: atoms) = 0 := by
  simp [run, Atom.satisfies]

theorem stop_of_run {p : Char → Bool} {atoms more : List Atom} {c : Char}
    (h : atoms.drop (run p atoms) = .char c :: more) : p c = false := by
  induction atoms with
  | nil => cases h
  | cons a atoms ih =>
      cases a with
      | stray b =>
        rw [run_stray] at h
        cases h
      | char d =>
        by_cases hd : p d
        · rw [run_char hd] at h
          exact ih h
        · rw [run_stop (by simpa using hd)] at h
          cases h
          simpa using hd

@[simp] theorem run_drop_run (p : Char → Bool) (atoms : List Atom) :
    run p (atoms.drop (run p atoms)) = 0 := by
  cases hrest : atoms.drop (run p atoms) with
  | nil => rfl
  | cons a rest =>
      cases a with
      | stray b => exact run_stray p b rest
      | char c => exact run_stop (stop_of_run hrest) rest

/-- No lexeme is an error or the end of the text. -/
theorem longest?_kind {c : Char} {rest : List Atom} {kind : Kind} {n : Nat}
    (h : longest? c rest = some (kind, n)) : kind ≠ .error ∧ kind ≠ .eof := by
  unfold longest? at h
  split at h
  · next found =>
    cases h
    unfold punctuation? at found
    split at found <;> cases found <;> decide
  · repeat' split at h
    all_goals
      first
      | cases h
        decide
      | obtain ⟨_, _, heq⟩ := Option.map_eq_some_iff.1 h
        cases heq
        decide
      | cases h

end Lexeme

namespace Scanner

variable {s t : Scanner}

theorem tokensAfter_append (more read : List Token) (s : Scanner) :
    tokensAfter (more ++ read) s = read.reverse ++ tokensAfter more s := by
  fun_induction tokensAfter more s with
  | case1 more s hend =>
    rw [tokensAfter, dif_pos hend]
    simp
  | case2 more s hmore ih =>
    rw [tokensAfter, dif_neg hmore]
    exact ih

theorem tokens_of_eof (h : s.next.1.kind = .eof) : s.tokens = [s.next.1] := by
  rw [tokens, tokensAfter, dif_pos h]
  rfl

theorem tokens_of_more (h : s.next.1.kind ≠ .eof) : s.tokens = s.next.1 :: s.next.2.tokens := by
  rw [tokens, tokensAfter, dif_neg h]
  exact tokensAfter_append [] [s.next.1] s.next.2

theorem tokens_of_cut {token : Token} {u : Scanner} (hskip : s.skip = t)
    (hcut : t.cutToken = (token, u)) (hkind : token.kind ≠ .eof) :
    s.tokens = token :: u.tokens := by
  have hnext : s.next = (token, u) := by rw [next, hskip, hcut]
  rw [tokens_of_more (by rw [hnext]; exact hkind), hnext]

theorem tokens_of_skip (h : s.skip = t.skip) : s.tokens = t.tokens := by
  have hnext : s.next = t.next := by rw [next, next, h]
  by_cases hend : s.next.1.kind = .eof
  · have hend' : t.next.1.kind = .eof := hnext ▸ hend
    rw [tokens_of_eof hend, tokens_of_eof hend', hnext]
  · have hend' : t.next.1.kind ≠ .eof := hnext ▸ hend
    rw [tokens_of_more hend, tokens_of_more hend', hnext]

@[simp] theorem advance_zero (s : Scanner) : s.advance 0 = s := rfl

@[simp] theorem advance_advance (s : Scanner) (m n : Nat) :
    (s.advance m).advance n = s.advance (m + n) := by
  simp [advance, List.take_add]

/-! What is skipped before a token. -/

theorem closeConstruct_some {n : Nat} (h : s.construct.close? s.rest = some n) :
    s.closeConstruct = { s.advance n with construct := .code } := by
  simp only [closeConstruct, h]

theorem closeConstruct_none (h : s.construct.close? s.rest = none) :
    s.closeConstruct = s.advance (validRun s.rest) := by
  simp only [closeConstruct, h]

theorem closeConstruct_code (h : s.construct = .code) : s.closeConstruct = s := by
  obtain ⟨rest, construct, cursor⟩ := s
  cases h
  rfl

theorem skip_code (h : s.construct = .code) : s.skip = s.skipTrivia := by
  simp only [skip, closeConstruct_code h, h]

theorem skip_open (h : s.construct ≠ .code) (hclose : s.construct.close? s.rest = none) :
    s.skip = s.advance (validRun s.rest) := by
  simp only [skip, closeConstruct_none hclose]
  split
  · next hcode => exact absurd hcode h
  · rfl

theorem skipTrivia_head (hblank : Lexeme.run Lexeme.isBlank s.rest = 0)
    (hcomment : Lexeme.headIs Lexeme.startsComment s.rest = false) : s.skipTrivia = s := by
  simp [skipTrivia, hblank, hcomment]

theorem skipTrivia_token {c : Char} {rest : List Atom} (hrest : s.rest = .char c :: rest)
    (hblank : Lexeme.isBlank c = false) (hcomment : Lexeme.startsComment c = false) :
    s.skipTrivia = s := by
  apply skipTrivia_head
  · rw [hrest, Lexeme.run_stop hblank]
  · rw [hrest]
    exact hcomment

theorem tokens_blanks (hcode : s.construct = .code) :
    s.tokens = (s.advance (Lexeme.run Lexeme.isBlank s.rest)).tokens := by
  have hcode' : (s.advance (Lexeme.run Lexeme.isBlank s.rest)).construct = .code := hcode
  have hnone : Lexeme.run Lexeme.isBlank (s.advance (Lexeme.run Lexeme.isBlank s.rest)).rest = 0 :=
    Lexeme.run_drop_run Lexeme.isBlank s.rest
  apply tokens_of_skip
  rw [skip_code hcode, skip_code hcode', skipTrivia, skipTrivia, hnone, advance_zero]

/-- Once an open construct is closed, the text behind it is code. -/
theorem tokens_of_closed {n : Nat} (h : s.construct.close? s.rest = some n) :
    s.tokens = Scanner.tokens { s.advance n with construct := .code } := by
  apply tokens_of_skip
  rw [skip, skip, closeConstruct_some h, closeConstruct_code rfl]

/-! The token at a place, by what stands there. -/

theorem cutToken_end (hs : s.rest = []) :
    s.cutToken = ({ kind := .eof, text := "", span := .point s.cursor }, s) := by
  simp only [cutToken, hs, cut, List.take_nil, advance_zero]
  rfl

theorem cutToken_stray {b : UInt8} {rest : List Atom} (hs : s.rest = .stray b :: rest) :
    s.cutToken = s.cut .error (1 + (rest.takeWhile Atom.isStray).length) := by
  simp only [cutToken, hs]

theorem cutToken_lexeme {c : Char} {rest : List Atom} {kind : Kind} {n : Nat}
    (hs : s.rest = .char c :: rest) (h : Lexeme.longest? c rest = some (kind, n)) :
    s.cutToken = s.cut kind n := by
  simp only [cutToken, hs, h]

theorem cutToken_open {rest : List Atom} (hs : s.rest = .char '"' :: rest)
    (h : Lexeme.longest? '"' rest = none) : s.cutToken = s.cutOpenString rest := by
  simp only [cutToken, hs, h, if_true]

theorem cutToken_unknown {c : Char} {rest : List Atom} (hs : s.rest = .char c :: rest)
    (h : Lexeme.longest? c rest = none) (hquote : c ≠ '"') : s.cutToken = s.cut .error 1 := by
  simp only [cutToken, hs, h, if_neg hquote]

/-- A quote starts a literal, or else an open string. -/
theorem cutToken_quote {rest : List Atom} (hs : s.rest = .char '"' :: rest) :
    s.cutToken = match Lexeme.quoted? rest with
      | some n => s.cut .stringLiteral (1 + n)
      | none => s.cutOpenString rest := by
  have hlongest : Lexeme.longest? '"' rest =
      (Lexeme.quoted? rest).map fun n => (.stringLiteral, 1 + n) := rfl
  cases hquoted : Lexeme.quoted? rest with
  | some n => exact cutToken_lexeme hs (by rw [hlongest, hquoted]; rfl)
  | none => exact cutToken_open hs (by rw [hlongest, hquoted]; rfl)

theorem next_eof (h : s.skip.rest = []) :
    s.next = ({ kind := .eof, text := "", span := .point s.skip.cursor }, s.skip) :=
  cutToken_end h

/-- At the end of the text there is one token, whatever stands open. -/
theorem tokens_of_end (h : s.skip.rest = []) :
    s.tokens = [{ kind := .eof, text := "", span := .point s.skip.cursor }] := by
  rw [tokens_of_eof (by rw [next_eof h]), next_eof h]

theorem skip_nil (h : s.rest = []) : s.skip.rest = [] ∧ s.skip.cursor = s.cursor := by
  obtain ⟨rest, construct, cursor⟩ := s
  cases h
  cases construct <;> exact ⟨rfl, rfl⟩

/-! What starts a token. -/

/-- What holds of the next token wherever it is read holds of all tokens. -/
theorem forall_tokens {P : Token → Prop} (h : ∀ s : Scanner, P s.next.1) (s : Scanner) :
    ∀ t ∈ s.tokens, P t := by
  induction hn : s.rest.length using Nat.strongRecOn generalizing s with
  | ind n ih =>
    subst hn
    intro t ht
    by_cases hend : s.next.1.kind = .eof
    · rw [tokens_of_eof hend] at ht
      rw [List.mem_singleton.1 ht]
      exact h s
    · rw [tokens_of_more hend] at ht
      rcases List.mem_cons.1 ht with rfl | ht
      · exact h s
      · exact ih _ (length_next s hend) s.next.2 rfl t ht

theorem text_cut {kind : Kind} {n : Nat} {c : Char} {rest : List Atom}
    (hs : s.rest = .char c :: rest) :
    (s.cut kind (n + 1)).1.text.toList = c :: (rest.take n).filterMap Atom.char? := by
  simp [cut, textOf, hs, Atom.char?]

/-- An unclosed string is cut off as one token. -/
theorem cutOpenString_text (s : Scanner) (body : List Atom) :
    ∃ n, (s.cutOpenString body).1 = (s.cut .error (n + 1)).1 := by
  rw [cutOpenString]
  cases Construct.string.close? body with
  | some n =>
    refine ⟨n, ?_⟩
    rw [Nat.add_comm n 1]
  | none =>
    refine ⟨validRun body, ?_⟩
    rw [Nat.add_comm _ 1]
    simp only
    split <;> rfl

/-- No lexeme starts with this sign. By itself it is an error. -/
theorem cutToken_less (s : Scanner) (h : s.cutToken.1.text.toList.head? = some '<') :
    s.cutToken.1.text.toList = ['<'] := by
  cases hs : s.rest with
  | nil => simp [cutToken_end hs] at h
  | cons a rest =>
    cases a with
    | stray b =>
      have hnone : ∀ n, (rest.takeWhile Atom.isStray).length = n →
          (Atom.stray b :: rest.take n).filterMap Atom.char? = [] := by
        rintro n rfl
        rw [← List.prefix_iff_eq_take.1 (List.takeWhile_prefix _), List.filterMap_eq_nil_iff]
        intro a ha
        rcases List.mem_cons.1 ha with rfl | ha
        · rfl
        · have hstray := List.all_eq_true.1 List.all_takeWhile a ha
          cases a with
          | char c => cases hstray
          | stray b => rfl
      simp [cutToken_stray hs, cut, hs, textOf, Nat.add_comm 1, hnone _ rfl] at h
    | char c =>
      cases hfound : Lexeme.longest? c rest with
      | some found =>
        obtain ⟨kind, n⟩ := found
        obtain ⟨n, rfl⟩ := Nat.exists_eq_succ_of_ne_zero (Nat.ne_of_gt (Lexeme.longest?_pos hfound))
        rw [cutToken_lexeme hs hfound, text_cut hs] at h
        cases h
        cases hfound
      | none =>
        by_cases hquote : c = '"'
        · subst hquote
          obtain ⟨n, hcut⟩ := cutOpenString_text s rest
          rw [cutToken_open hs hfound, hcut, text_cut hs] at h
          cases h
        · rw [cutToken_unknown hs hfound hquote, text_cut hs] at h ⊢
          cases h
          rfl

end Scanner

theorem tokenize_less {source : List UInt8} {t : Token} (ht : t ∈ tokenize source)
    (h : t.text.toList.head? = some '<') : t.text.toList = ['<'] :=
  Scanner.forall_tokens (P := fun t => t.text.toList.head? = some '<' → t.text.toList = ['<'])
    (fun s => Scanner.cutToken_less s.skip) _ t ht h

end LabelGraph
