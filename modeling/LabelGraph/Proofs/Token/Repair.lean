import LabelGraph.Proofs.Text.Utf8
import LabelGraph.Proofs.Token.Construct

/-!
A text in which every stray byte is replaced by the character U+FFFD, and what the
functions of the scanner find in it. The replacement belongs to no lexeme, but it
is an ordinary character of a comment and of a string literal, so an open construct
closes where it closes across the stray bytes.
-/

namespace LabelGraph

namespace Atom

def mend : Atom → Char
  | .char c => c
  | .stray _ => '\uFFFD'

def mendAll (atoms : List Atom) : List Atom := atoms.map fun a => .char a.mend

/-- The places of the replaced characters, for atoms that stand at an offset of the
repaired text. -/
def replacedFrom (offset : Nat) : List Atom → List Nat
  | [] => []
  | .char c :: atoms => replacedFrom (offset + c.utf8Size) atoms
  | .stray _ :: atoms => offset :: replacedFrom (offset + '\uFFFD'.utf8Size) atoms

/-- A list of atoms up to its second break: characters, stray bytes, and the rest. -/
theorem split_strays (atoms : List Atom) :
    ∃ (valid : List Char) (strays : List UInt8) (rest : List Atom),
      atoms = valid.map .char ++ (strays.map .stray ++ rest) ∧
      (strays = [] → rest = []) ∧ ∀ b more, rest ≠ .stray b :: more := by
  induction atoms with
  | nil => exact ⟨[], [], [], rfl, fun _ => rfl, by simp⟩
  | cons a atoms ih =>
      obtain ⟨valid, strays, rest, rfl, hempty, hrest⟩ := ih
      cases a with
      | char c => exact ⟨c :: valid, strays, rest, rfl, hempty, hrest⟩
      | stray b =>
        cases valid with
        | nil => exact ⟨[], b :: strays, rest, by simp, by simp, hrest⟩
        | cons c valid =>
          exact ⟨[], [b], (c :: valid).map .char ++ (strays.map .stray ++ rest), by simp, by simp,
            by simp⟩

end Atom

namespace Utf8

def repair (source : List UInt8) : List UInt8 :=
  (decode source).flatMap fun a => String.utf8EncodeChar a.mend

def replaced (source : List UInt8) : List Nat := Atom.replacedFrom 0 (decode source)

theorem decode_repair (source : List UInt8) :
    decode (repair source) = Atom.mendAll (decode source) := by
  have hencode : repair source = encode ((decode source).map Atom.mend) := by
    rw [encode, List.flatMap_map]
    rfl
  rw [hencode, decode_encode, List.map_map]
  rfl

end Utf8

open Atom

namespace Lexeme

theorem run_mendAll {p : Char → Bool} (hp : p '\uFFFD' = false) (atoms : List Atom) :
    run p (mendAll atoms) = run p atoms := by
  induction atoms with
  | nil => rfl
  | cons a atoms ih =>
      cases a with
      | stray b => simp [run, mendAll, mend, satisfies, hp]
      | char c =>
          by_cases hc : p c
          · simpa [run, mendAll, mend, satisfies, hc] using ih
          · simp [run, mendAll, mend, satisfies, hc]

theorem headIs_mendAll {p : Char → Bool} (hp : p '\uFFFD' = false) (atoms : List Atom) :
    headIs p (mendAll atoms) = headIs p atoms := by
  cases atoms with
  | nil => rfl
  | cons a atoms => cases a <;> simp [headIs, mendAll, mend, satisfies, hp]

theorem numberLength_mendAll (c : Char) (rest : List Atom) :
    numberLength (.char c :: mendAll rest) = numberLength (.char c :: rest) := by
  have hrun := run_mendAll (p := Char.isDigit) (by decide)
  by_cases hc : c = '0'
  · subst hc
    cases rest with
    | nil => rfl
    | cons a rest =>
      cases a with
      | stray b =>
        change 1 + run Char.isDigit (mendAll (.stray b :: rest)) = _
        rw [hrun]
        rfl
      | char x =>
        have hmend : mendAll (.char x :: rest) = .char x :: mendAll rest := rfl
        rw [hmend, numberLength, numberLength, ← hmend, hrun, run_mendAll (by decide),
          headIs_mendAll (by decide)]
  · have hnumber : ∀ more : List Atom,
        numberLength (.char c :: more) = 1 + run Char.isDigit more := by
      intro more
      unfold numberLength
      split
      · next heq => simp_all
      · next heq => cases heq; rfl
      · next heq => cases heq
    rw [hnumber, hnumber, hrun]

theorem longest?_not_string {c : Char} {rest : List Atom} {kind : Kind} {n : Nat} (hc : c ≠ '"')
    (h : longest? c rest = some (kind, n)) : kind ≠ .stringLiteral := by
  have hquote : (c == '"') = false := by simpa using hc
  simp only [longest?, hquote, Bool.false_eq_true, if_false] at h
  split at h
  · next found =>
    cases h
    unfold punctuation? at found
    split at found <;> cases found <;> decide
  · repeat' split at h
    all_goals cases h <;> decide

/-- Only a string literal can hold the replacement. -/
theorem longest?_mendAll {c : Char} (hc : c ≠ '"') (rest : List Atom) :
    longest? c (mendAll rest) = longest? c rest := by
  have hquote : (c == '"') = false := by simpa using hc
  simp only [longest?, hquote, numberLength_mendAll, Bool.false_eq_true, if_false]
  rw [run_mendAll (by decide), run_mendAll (by decide), run_mendAll (by decide),
    headIs_mendAll (by decide), headIs_mendAll (by decide)]

end Lexeme

theorem Atom.mendAll_of_valid {atoms : List Atom} (h : ∀ b, Atom.stray b ∉ atoms) :
    mendAll atoms = atoms := by
  induction atoms with
  | nil => rfl
  | cons a atoms ih =>
      have htail := ih fun b hb => h b (List.mem_cons_of_mem _ hb)
      cases a with
      | char c => exact congrArg (Atom.char c :: ·) htail
      | stray b => exact absurd (List.mem_cons_self ..) (h b)

/-! String literals. -/

namespace Lexeme

/-- A complete literal stays one, with the same length. -/
theorem quotedAfter_mendAll {count n : Nat} {atoms : List Atom}
    (h : quotedAfter count atoms = some n) : quotedAfter count (mendAll atoms) = some n := by
  fun_induction quotedAfter count atoms with
  | case1 => exact h
  | case2 => cases h
  | case3 => cases h
  | case4 count c rest hc ih =>
    change quotedAfter count (.char '\\' :: .char c :: mendAll rest) = some n
    rw [quotedAfter, if_neg hc]
    exact ih h
  | case5 => cases h
  | case6 count c rest hquote hfeed _ hescape ih =>
    change quotedAfter count (.char c :: mendAll rest) = some n
    rw [quotedAfter_char hquote hfeed hescape]
    exact ih h
  | case7 => cases h
  | case8 => cases h

/-- A literal that is complete only in the repaired text holds a replaced character. -/
theorem stray_of_quotedAfter_mendAll {count n : Nat} {atoms : List Atom}
    (h : quotedAfter count (mendAll atoms) = some n) :
    quotedAfter count atoms = some n ∨ ∃ b, Atom.stray b ∈ atoms.take (n - count) := by
  fun_induction quotedAfter count atoms with
  | case1 => exact .inl h
  | case2 => cases h
  | case3 => cases h
  | case4 count c rest hc ih =>
    change quotedAfter count (.char '\\' :: .char c :: mendAll rest) = some n at h
    rw [quotedAfter, if_neg hc] at h
    have hn := lt_of_quotedAfter h
    apply (ih h).imp_right
    rintro ⟨b, hb⟩
    have hsplit : n - count = n - (count + 2) + 2 := by omega
    rw [hsplit]
    exact ⟨b, List.mem_cons_of_mem _ (List.mem_cons_of_mem _ hb)⟩
  | case5 count rest hrest =>
    cases rest with
    | nil => cases h
    | cons a rest =>
      cases a with
      | char c => exact absurd rfl (hrest c rest)
      | stray b =>
        change quotedAfter count (.char '\\' :: .char '\uFFFD' :: mendAll rest) = some n at h
        rw [quotedAfter, if_neg (by decide)] at h
        have hn := lt_of_quotedAfter h
        have hsplit : n - count = n - (count + 2) + 2 := by omega
        rw [hsplit]
        exact .inr ⟨b, by simp⟩
  | case6 count c rest hquote hfeed _ hescape ih =>
    change quotedAfter count (.char c :: mendAll rest) = some n at h
    rw [quotedAfter_char hquote hfeed hescape] at h
    have hn := lt_of_quotedAfter h
    apply (ih h).imp_right
    rintro ⟨b, hb⟩
    have hsplit : n - count = n - (count + 1) + 1 := by omega
    rw [hsplit]
    exact ⟨b, List.mem_cons_of_mem _ hb⟩
  | case7 count b rest =>
    have hn := lt_of_quotedAfter h
    have hsplit : n - count = n - (count + 1) + 1 := by omega
    rw [hsplit]
    exact .inr ⟨b, by simp⟩
  | case8 => cases h

theorem valid_of_quotedAfter {count n : Nat} {atoms : List Atom}
    (h : quotedAfter count atoms = some n) (b : UInt8) : .stray b ∉ atoms.take (n - count) := by
  fun_induction quotedAfter count atoms with
  | case1 =>
    cases h
    simp
  | case2 => cases h
  | case3 => cases h
  | case4 count c rest hc ih =>
    have hn := lt_of_quotedAfter h
    have hsplit : n - count = n - (count + 2) + 2 := by omega
    rw [hsplit]
    simpa using ih h
  | case5 => cases h
  | case6 count c rest hquote hfeed _ hescape ih =>
    have hn := lt_of_quotedAfter h
    have hsplit : n - count = n - (count + 1) + 1 := by omega
    rw [hsplit]
    simpa using ih h
  | case7 => cases h
  | case8 => cases h

/-! Lexemes hold no stray byte. -/

theorem valid_run (p : Char → Bool) (atoms : List Atom) (b : UInt8) :
    .stray b ∉ atoms.take (run p atoms) := by
  induction atoms with
  | nil => simp
  | cons a atoms ih =>
      cases ha : a.satisfies p with
      | false => simp [run, ha]
      | true =>
        have hrun : run p (a :: atoms) = run p atoms + 1 := by simp [run, ha]
        have hne : .stray b ≠ a := by
          rintro rfl
          cases ha
        rw [hrun, List.take_succ_cons, List.mem_cons, not_or]
        exact ⟨hne, ih⟩

theorem valid_lexeme (c : Char) {rest : List Atom} {n : Nat} {b : UInt8}
    (h : .stray b ∉ rest.take n) : .stray b ∉ (Atom.char c :: rest).take (1 + n) := by
  rw [Nat.add_comm, List.take_succ_cons, List.mem_cons, not_or]
  exact ⟨Atom.noConfusion, h⟩

theorem valid_number (c : Char) (rest : List Atom) (b : UInt8) :
    .stray b ∉ (Atom.char c :: rest).take (numberLength (.char c :: rest)) := by
  unfold numberLength
  split
  · next x more heq =>
    cases heq
    split
    · have hsplit : 2 + run isHexDigit more = 1 + (1 + run isHexDigit more) := by omega
      rw [hsplit]
      exact valid_lexeme _ (valid_lexeme x (valid_run _ _ b))
    · exact valid_lexeme _ (valid_run _ _ b)
  · next heq =>
    cases heq
    exact valid_lexeme c (valid_run _ _ b)
  · next heq => cases heq

theorem valid_of_longest? {c : Char} {rest : List Atom} {kind : Kind} {n : Nat}
    (h : longest? c rest = some (kind, n)) (b : UInt8) :
    .stray b ∉ (Atom.char c :: rest).take n := by
  unfold longest? at h
  split at h
  · cases h
    simp
  split at h
  · cases h
    exact valid_lexeme c (valid_run _ _ b)
  split at h
  · cases h
    exact valid_number c rest b
  split at h
  · cases h
    exact valid_lexeme c (valid_run _ _ b)
  split at h
  · cases h
    exact valid_lexeme c (valid_run _ _ b)
  split at h
  · obtain ⟨m, hm, heq⟩ := Option.map_eq_some_iff.1 h
    cases heq
    exact valid_lexeme c (valid_of_quotedAfter hm b)
  · cases h

end Lexeme

namespace Construct

open Lexeme

/-- A string that is closed before any stray byte is closed at the same place when the
text is repaired. -/
theorem closeStringAfter_mendAll {count n : Nat} {atoms : List Atom}
    (h : closeStringAfter count atoms = some n) :
    closeStringAfter count (mendAll atoms) = some n := by
  fun_induction closeStringAfter count atoms with
  | case1 => exact h
  | case2 => exact h
  | case3 count rest => rw [← h]; exact closeStringAfter_escapeFeed count (mendAll rest)
  | case4 count c rest hc ih => exact (closeStringAfter_escape hc count (mendAll rest)).trans (ih h)
  | case5 count c rest hquote hfeed hescape ih =>
    by_cases hc : c = '\\'
    · subst hc
      cases rest with
      | nil => cases h
      | cons a rest =>
        cases a with
        | char d => exact absurd rfl (hescape d rest rfl)
        | stray b => cases h
    · exact (closeStringAfter_char hquote hfeed hc count (mendAll rest)).trans (ih h)
  | case6 => cases h
  | case7 => cases h

theorem closeStringAfter_strays (count : Nat) (strays : List UInt8) (rest : List Atom) :
    closeStringAfter count (mendAll (strays.map .stray ++ rest)) =
      closeStringAfter (count + strays.length) (mendAll rest) := by
  induction strays generalizing count with
  | nil => rfl
  | cons b strays ih =>
      change closeStringAfter count (.char '\uFFFD' :: mendAll (strays.map .stray ++ rest)) = _
      rw [closeStringAfter_char (by decide) (by decide) (by decide), ih, List.length_cons]
      congr 1
      omega

/-- What stands open before a run of stray bytes goes on behind their replacements. A
backslash before the run takes the first of them. -/
theorem closeStringAfter_resume {strays : List UInt8} {rest : List Atom}
    (hrun : strays = [] → rest = []) (valid : List Char) (count : Nat)
    (h : closeStringAfter count (valid.map .char ++ (strays.map .stray ++ rest)) = none) :
    closeStringAfter count (mendAll (valid.map .char ++ (strays.map .stray ++ rest))) =
      closeStringAfter (count + valid.length + strays.length) (mendAll rest) := by
  induction hn : valid.length using Nat.strongRecOn generalizing valid count with
  | ind n ih =>
    subst hn
    cases valid with
    | nil => exact closeStringAfter_strays count strays rest
    | cons c valid =>
      change closeStringAfter count (.char c :: (valid.map .char ++ _)) = none at h
      change closeStringAfter count (.char c :: mendAll (valid.map .char ++ _)) = _
      by_cases hquote : c = '"'
      · subst hquote
        cases h
      by_cases hfeed : c = '\n'
      · subst hfeed
        cases h
      by_cases hescape : c = '\\'
      · subst hescape
        cases valid with
        | nil =>
          cases strays with
          | nil => rw [hrun rfl]; rfl
          | cons b strays =>
            change closeStringAfter count (.char '\\' :: .char '\uFFFD' :: mendAll _) = _
            rw [closeStringAfter_escape (by decide), List.append_eq, closeStringAfter_strays]
            congr 1
            simp only [List.length_cons, List.length_nil]
            omega
        | cons d valid =>
          change closeStringAfter count
            (.char '\\' :: .char d :: (valid.map .char ++ _)) = none at h
          change closeStringAfter count
            (.char '\\' :: .char d :: mendAll (valid.map .char ++ _)) = _
          by_cases hd : d = '\n'
          · subst hd
            rw [closeStringAfter_escapeFeed] at h
            cases h
          · rw [closeStringAfter_escape hd] at h ⊢
            rw [ih valid.length (by simp only [List.length_cons]; omega) valid _ h rfl]
            congr 1
            simp only [List.length_cons]
            omega
      · rw [closeStringAfter_char hquote hfeed hescape] at h ⊢
        rw [ih valid.length (by simp) valid _ h rfl]
        congr 1
        simp only [List.length_cons]
        omega

/-! Comments. -/

theorem close?_comment_mendAll {n : Nat} {atoms : List Atom}
    (h : comment.close? atoms = some n) : comment.close? (mendAll atoms) = some n := by
  induction atoms generalizing n with
  | nil => cases h
  | cons a atoms ih =>
      cases a with
      | stray b =>
        rw [close?_comment_stray] at h
        cases h
      | char c =>
        change comment.close? (.char c :: mendAll atoms) = some n
        by_cases hc : isCommentChar c
        · rw [close?_comment_char hc] at h ⊢
          obtain ⟨m, hm, rfl⟩ := Option.map_eq_some_iff.1 h
          rw [ih hm]
          rfl
        · rw [close?_comment_stop (by simpa using hc)] at h ⊢
          exact h

theorem close?_comment_strays (strays : List UInt8) (rest : List Atom) :
    comment.close? (mendAll (strays.map .stray ++ rest)) =
      (comment.close? (mendAll rest)).map (strays.length + ·) := by
  induction strays with
  | nil => simp
  | cons b strays ih =>
      change comment.close? (.char '\uFFFD' :: mendAll (strays.map .stray ++ rest)) = _
      rw [close?_comment_char (by decide), ih, Option.map_map, List.length_cons]
      congr 1
      funext n
      simp only [Function.comp_apply]
      omega

theorem close?_comment_resume (valid : List Char) (strays : List UInt8) (rest : List Atom)
    (h : comment.close? (valid.map .char ++ (strays.map .stray ++ rest)) = none) :
    comment.close? (mendAll (valid.map .char ++ (strays.map .stray ++ rest))) =
      (comment.close? (mendAll rest)).map (valid.length + strays.length + ·) := by
  induction valid with
  | nil => simpa using close?_comment_strays strays rest
  | cons c valid ih =>
      change comment.close? (.char c :: (valid.map .char ++ _)) = none at h
      change comment.close? (.char c :: mendAll (valid.map .char ++ _)) = _
      by_cases hc : isCommentChar c
      · rw [close?_comment_char hc] at h ⊢
        rw [ih (Option.map_eq_none_iff.1 h), Option.map_map, List.length_cons]
        congr 1
        funext n
        simp only [Function.comp_apply]
        omega
      · rw [close?_comment_stop (by simpa using hc)] at h
        cases h

/-! Open constructs. -/

/-- Where a construct is closed before any stray byte, it is closed at the same place in the
repaired text. -/
theorem close?_mendAll {c : Construct} {n : Nat} {atoms : List Atom}
    (h : c.close? atoms = some n) : c.close? (mendAll atoms) = some n := by
  cases c with
  | code => exact h
  | comment => exact close?_comment_mendAll h
  | string => exact closeStringAfter_mendAll h

/-- What stands open before a run of stray bytes goes on behind their replacements. -/
theorem close?_resume {c : Construct} {strays : List UInt8} {rest : List Atom}
    (hrun : strays = [] → rest = []) (valid : List Char)
    (h : c.close? (valid.map .char ++ (strays.map .stray ++ rest)) = none) :
    c.close? (mendAll (valid.map .char ++ (strays.map .stray ++ rest))) =
      (c.close? (mendAll rest)).map (valid.length + strays.length + ·) := by
  cases c with
  | code => cases h
  | comment => exact close?_comment_resume valid strays rest h
  | string =>
    have hresume := closeStringAfter_resume hrun valid 0 h
    rw [Nat.zero_add] at hresume
    exact hresume.trans (closeStringAfter_add (valid.length + strays.length) 0 (mendAll rest))

end Construct

end LabelGraph
