import LabelGraph.Proofs.Token.Cover

/-!
Scanning with more text behind. What the scanner looks for it mostly finds in front of a line
feed or a NUL, and then it is the same whatever follows. Only an open string looks past a NUL:
what it comes to is settled where it closes, or where bytes outside UTF-8 stand.
-/

namespace LabelGraph

open Atom Lexeme

variable {atoms rest : List Atom} {stop : Char}

/-! Looking up to an atom. -/

theorem length_takeWhile_lt {p : Atom → Bool} {a : Atom} (hmem : a ∈ atoms) (ha : p a = false) :
    (atoms.takeWhile p).length < atoms.length := by
  refine Nat.lt_of_le_of_ne (List.takeWhile_prefix p).length_le fun hlength => ?_
  have hwhole : atoms.takeWhile p = atoms := (List.takeWhile_prefix p).eq_of_length hlength
  rw [← hwhole] at hmem
  have htrue := List.all_eq_true.1 List.all_takeWhile a hmem
  rw [ha] at htrue
  cases htrue

theorem takeWhile_append {p : Atom → Bool} {a : Atom} (hmem : a ∈ atoms) (ha : p a = false)
    (more : List Atom) : (atoms ++ more).takeWhile p = atoms.takeWhile p := by
  rw [List.takeWhile_append, if_neg (Nat.ne_of_lt (length_takeWhile_lt hmem ha))]

namespace Lexeme

variable {p : Char → Bool} {a : Atom}

theorem run_le (p : Char → Bool) (atoms : List Atom) : run p atoms ≤ atoms.length :=
  (List.takeWhile_prefix _).length_le

theorem run_lt (hmem : a ∈ atoms) (ha : a.satisfies p = false) : run p atoms < atoms.length :=
  length_takeWhile_lt hmem ha

theorem run_append (hmem : a ∈ atoms) (ha : a.satisfies p = false) (more : List Atom) :
    run p (atoms ++ more) = run p atoms :=
  congrArg List.length (takeWhile_append hmem ha more)

theorem mem_drop_run (hmem : a ∈ atoms) (ha : a.satisfies p = false) :
    a ∈ atoms.drop (run p atoms) := by
  rw [← List.take_append_drop (run p atoms) atoms] at hmem
  refine (List.mem_append.1 hmem).resolve_left fun hbefore => ?_
  have htrue := all_take_run p atoms a hbefore
  rw [ha] at htrue
  cases htrue

theorem headIs_append (p : Char → Bool) (hmem : a ∈ atoms) (more : List Atom) :
    headIs p (atoms ++ more) = headIs p atoms := by
  cases atoms with
  | nil => cases hmem
  | cons a atoms => rfl

theorem stop_feed : isCommentChar '\n' = false := rfl

theorem stop_nul : isCommentChar '\x00' = false := rfl

/-- What ends a comment ends all else but a string. -/
theorem stop_class (hstop : isCommentChar stop = false) :
    isIdentifierChar stop = false ∧ isNameChar stop = false ∧ stop.isAlphanum = false ∧
      stop.isDigit = false ∧ isHexDigit stop = false ∧ isBlank stop = false := by
  rcases stop_cases hstop with rfl | rfl <;> decide

/-! Numbers. -/

theorem numberLength_of_ne (ha : a ≠ .char '0') (rest : List Atom) :
    numberLength (a :: rest) = 1 + run Char.isDigit rest := by
  unfold numberLength
  split
  · next heq => exact absurd (List.cons.inj heq).1 ha
  · next heq => rw [(List.cons.inj heq).2]
  · next heq => cases heq

theorem numberLength_le (atoms : List Atom) : numberLength atoms ≤ atoms.length := by
  unfold numberLength
  split
  · next x rest =>
    have hhex := run_le isHexDigit rest
    have hdigits := run_le Char.isDigit (.char x :: rest)
    simp only [List.length_cons] at hdigits ⊢
    split <;> omega
  · next rest _ =>
    have hdigits := run_le Char.isDigit rest
    rw [List.length_cons]
    omega
  · exact Nat.zero_le _

theorem numberLength_append (hstop : isCommentChar stop = false) (a : Atom)
    (hmem : .char stop ∈ rest) (more : List Atom) :
    numberLength (a :: (rest ++ more)) = numberLength (a :: rest) := by
  obtain ⟨-, -, -, hdigit, hhex, -⟩ := stop_class hstop
  have hdigits := run_append (p := Char.isDigit) hmem hdigit more
  by_cases ha : a = .char '0'
  case neg => rw [numberLength_of_ne ha, numberLength_of_ne ha, hdigits]
  case pos =>
    subst ha
    cases rest with
    | nil => cases hmem
    | cons b tail =>
      cases b with
      | stray b => exact congrArg (1 + ·) hdigits
      | char x =>
        rw [List.cons_append] at hdigits ⊢
        rcases List.mem_cons.1 hmem with heq | htail
        · cases heq
          have hx : (stop == 'x' || stop == 'X') = false := by
            rcases stop_cases hstop with rfl | rfl <;> rfl
          simp only [numberLength, hx, Bool.false_and, Bool.false_eq_true, if_false, hdigits]
        · rw [numberLength, numberLength, headIs_append _ htail,
            run_append (p := isHexDigit) htail hhex, hdigits]

end Lexeme

/-! Strings. -/

namespace Construct

variable {count n : Nat}

/-- Where the construct closes, or that it stays open in the valid text, can be seen in the
atoms without what follows them. -/
def Decided (construct : Construct) (atoms : List Atom) : Prop :=
  construct.close? atoms ≠ none ∨ ∃ b, .stray b ∈ atoms

theorem stray_behind {c : Char} (h : ∃ b, .stray b ∈ Atom.char c :: atoms) :
    ∃ b, .stray b ∈ atoms := by
  simpa using h

theorem closeStringAfter_append
    (h : closeStringAfter count atoms ≠ none ∨ ∃ b, .stray b ∈ atoms) (more : List Atom) :
    closeStringAfter count (atoms ++ more) = closeStringAfter count atoms := by
  fun_induction closeStringAfter count atoms with
  | case1 => rfl
  | case2 => rfl
  | case3 => rfl
  | case4 count c rest hc ih =>
    have hrest := ih (h.imp_right fun hstray => stray_behind (stray_behind hstray))
    exact (closeStringAfter_escape hc count (rest ++ more)).trans hrest
  | case5 count c rest hquote hfeed hescape ih =>
    have hrest := ih (h.imp_right stray_behind)
    rw [List.cons_append, closeStringAfter]
    · exact hrest
    · exact hquote
    · exact hfeed
    · cases rest with
      | nil => simp [closeStringAfter] at h
      | cons a rest =>
        intro d tail heq hc
        exact hescape d rest (congrArg (· :: rest) (List.cons.inj heq).1) hc
  | case6 => rfl
  | case7 => simp at h

theorem quotedAfter_append
    (h : closeStringAfter count atoms ≠ none ∨ ∃ b, .stray b ∈ atoms) (more : List Atom) :
    quotedAfter count (atoms ++ more) = quotedAfter count atoms := by
  fun_induction closeStringAfter count atoms with
  | case1 => rfl
  | case2 => rfl
  | case3 => rfl
  | case4 count c rest hc ih =>
    have hrest := ih (h.imp_right fun hstray => stray_behind (stray_behind hstray))
    change quotedAfter count (.char '\\' :: .char c :: (rest ++ more)) = _
    rw [quotedAfter, quotedAfter, if_neg hc, if_neg hc]
    exact hrest
  | case5 count c rest hquote hfeed hescape ih =>
    have hrest := ih (h.imp_right stray_behind)
    by_cases hc : c = '\\'
    case neg =>
      rw [List.cons_append, quotedAfter_char hquote hfeed hc, quotedAfter_char hquote hfeed hc]
      exact hrest
    case pos =>
      subst hc
      cases rest with
      | nil => simp [closeStringAfter] at h
      | cons a rest =>
        cases a with
        | char d => exact absurd rfl (hescape d rest rfl)
        | stray b => rfl
  | case6 => rfl
  | case7 => simp at h

theorem closeStringAfter_le (h : closeStringAfter count atoms = some n) :
    n ≤ count + atoms.length := by
  fun_induction closeStringAfter count atoms with
  | case1 => cases h; simp
  | case2 => cases h; simp
  | case3 => cases h; simp
  | case4 count c rest hc ih => have := ih h; simp only [List.length_cons]; omega
  | case5 count c rest hquote hfeed hescape ih => have := ih h; rw [List.length_cons]; omega
  | case6 => cases h
  | case7 => cases h

theorem close?_le {construct : Construct} (h : construct.close? atoms = some n) :
    n ≤ atoms.length := by
  cases construct with
  | code =>
    cases h
    exact Nat.zero_le _
  | comment =>
    rw [close?] at h
    split at h
    · cases h
      exact run_le isCommentChar atoms
    · cases h
  | string => exact Nat.zero_add atoms.length ▸ closeStringAfter_le h

/-- All but a string is decided at what ends a comment. -/
theorem Decided.of_stop {construct : Construct} (hstring : construct ≠ .string)
    (hstop : isCommentChar stop = false) (hmem : .char stop ∈ atoms) :
    construct.Decided atoms := by
  cases construct with
  | code => exact .inl (by simp [close?])
  | string => exact absurd rfl hstring
  | comment =>
    have hrest := mem_drop_run (p := isCommentChar) hmem hstop
    cases hdrop : atoms.drop (run isCommentChar atoms) with
    | nil =>
      rw [hdrop] at hrest
      cases hrest
    | cons a rest =>
      cases a with
      | char c => exact .inl (by simp [close?, hdrop])
      | stray b =>
        refine .inr ⟨b, List.mem_of_mem_drop (i := run isCommentChar atoms) ?_⟩
        rw [hdrop]
        exact List.mem_cons_self ..

/-- A comment that is decided ends within the atoms, at a character or at a stray byte. -/
theorem comment_end (h : comment.Decided atoms) :
    ∃ a ∈ atoms, a.satisfies isCommentChar = false := by
  rcases h with hclose | ⟨b, hstray⟩
  · rw [close?] at hclose
    split at hclose
    · next c rest hdrop =>
      refine ⟨.char c, List.mem_of_mem_drop (i := run isCommentChar atoms) ?_, stop_of_run hdrop⟩
      rw [hdrop]
      exact List.mem_cons_self ..
    · exact absurd rfl hclose
  · exact ⟨.stray b, hstray, rfl⟩

theorem close?_append {construct : Construct} (h : construct.Decided atoms) (more : List Atom) :
    construct.close? (atoms ++ more) = construct.close? atoms := by
  cases construct with
  | code => rfl
  | string => exact closeStringAfter_append h more
  | comment =>
    obtain ⟨a, hmem, ha⟩ := comment_end h
    have hlt := run_lt hmem ha
    simp only [close?, run_append hmem ha, List.drop_append_of_le_length (Nat.le_of_lt hlt)]
    cases hdrop : atoms.drop (run isCommentChar atoms) with
    | nil => exact absurd (List.drop_eq_nil_iff.1 hdrop) (Nat.not_le.2 hlt)
    | cons a rest => cases a <;> rfl

/-- What is open where the valid text ends. -/
theorem Decided.stray {construct : Construct} (h : construct.Decided atoms)
    (hopen : construct.close? atoms = none) : ∃ b, .stray b ∈ atoms :=
  h.resolve_left fun hclose => hclose hopen

end Construct

namespace Lexeme

theorem longest?_append (hstop : isCommentChar stop = false) {c : Char}
    (hmem : c = stop ∨ .char stop ∈ rest) (hquote : c = '"' → Construct.string.Decided rest)
    (more : List Atom) : longest? c (rest ++ more) = longest? c rest := by
  rcases hmem with rfl | hmem
  · rcases stop_cases hstop with rfl | rfl <;> rfl
  obtain ⟨hidentifier, hname, halphanum, -⟩ := stop_class hstop
  have hquoted : c = '"' → quoted? (rest ++ more) = quoted? rest :=
    fun hc => Construct.quotedAfter_append (hquote hc) more
  simp only [longest?, run_append (p := isIdentifierChar) hmem hidentifier,
    run_append (p := isNameChar) hmem hname, run_append (p := Char.isAlphanum) hmem halphanum,
    headIs_append _ hmem, numberLength_append hstop _ hmem]
  by_cases hc : c = '"'
  · rw [hquoted hc]
  · simp only [beq_false_of_ne hc, Bool.false_eq_true, if_false]

theorem longest?_le {c : Char} {kind : Kind} {n : Nat} (h : longest? c rest = some (kind, n)) :
    n ≤ (Atom.char c :: rest).length := by
  have hrun (p : Char → Bool) : 1 + run p rest ≤ (Atom.char c :: rest).length := by
    have hle := run_le p rest
    rw [List.length_cons]
    omega
  unfold longest? at h
  split at h
  · cases h
    exact Nat.le_add_left ..
  split at h
  · cases h
    exact hrun isIdentifierChar
  split at h
  · cases h
    exact numberLength_le _
  split at h
  · cases h
    exact hrun isNameChar
  split at h
  · cases h
    exact hrun Char.isAlphanum
  split at h
  · obtain ⟨m, hm, heq⟩ := Option.map_eq_some_iff.1 h
    cases heq
    have hle := Construct.closeStringAfter_le (Construct.closeStringAfter_of_quotedAfter hm)
    rw [List.length_cons]
    omega
  · cases h

end Lexeme

namespace Scanner

variable {s : Scanner}

def followed (s : Scanner) (more : List Atom) : Scanner := { s with rest := s.rest ++ more }

theorem advance_followed {n : Nat} (hn : n ≤ s.rest.length) (more : List Atom) :
    (s.followed more).advance n = (s.advance n).followed more := by
  simp only [followed, advance, List.take_append_of_le_length hn, List.drop_append_of_le_length hn]

theorem cut_followed {n : Nat} (hn : n ≤ s.rest.length) (kind : Kind) (more : List Atom) :
    (s.followed more).cut kind n = ((s.cut kind n).1, (s.cut kind n).2.followed more) := by
  simp only [cut, advance_followed hn]
  simp only [followed, List.take_append_of_le_length hn]

theorem validRun_le (atoms : List Atom) : validRun atoms ≤ atoms.length :=
  run_le _ atoms

/-- Without a stray byte all of the atoms are valid text. -/
theorem validRun_of_valid (h : ∀ b, .stray b ∉ atoms) (more : List Atom) :
    validRun (atoms ++ more) = atoms.length + validRun more := by
  rw [validRun, run, List.takeWhile_append_of_pos, List.length_append]
  · rfl
  · intro a ha
    cases a with
    | char c => rfl
    | stray b => exact absurd ha (h b)

/-- In front of a stray byte the valid text ends. -/
theorem validRun_append {b : UInt8} (hstray : .stray b ∈ atoms) (more : List Atom) :
    validRun (atoms ++ more) = validRun atoms :=
  run_append hstray rfl more

theorem closeConstruct_followed (h : s.construct.Decided s.rest) (more : List Atom) :
    (s.followed more).closeConstruct = s.closeConstruct.followed more := by
  have hclose := Construct.close?_append h more
  cases hfound : s.construct.close? s.rest with
  | some n =>
    rw [hfound] at hclose
    rw [closeConstruct_some hfound, closeConstruct_some (s := s.followed more) hclose,
      advance_followed (Construct.close?_le hfound)]
    rfl
  | none =>
    rw [hfound] at hclose
    obtain ⟨b, hstray⟩ := h.stray hfound
    rw [closeConstruct_none hfound, closeConstruct_none (s := s.followed more) hclose,
      ← advance_followed (validRun_le s.rest)]
    exact congrArg _ (validRun_append hstray more)

section Stop

variable (hstop : isCommentChar stop = false)
include hstop

theorem skipTrivia_followed (hmem : .char stop ∈ s.rest) (more : List Atom) :
    (s.followed more).skipTrivia = s.skipTrivia.followed more := by
  obtain ⟨-, -, -, -, -, hblank⟩ := stop_class hstop
  have hrun : run isBlank (s.followed more).rest = run isBlank s.rest :=
    run_append (p := isBlank) hmem hblank more
  have hmem' : .char stop ∈ (s.advance (run isBlank s.rest)).rest :=
    mem_drop_run (p := isBlank) hmem hblank
  unfold skipTrivia
  rw [hrun, advance_followed (run_le _ _)]
  generalize s.advance (run isBlank s.rest) = t at hmem'
  have hhead : headIs startsComment (t.followed more).rest = headIs startsComment t.rest :=
    headIs_append _ hmem' more
  have hrun' : run isCommentChar (t.followed more).rest = run isCommentChar t.rest :=
    run_append (p := isCommentChar) hmem' hstop more
  simp only [hhead, hrun', advance_followed (run_le _ _)]
  split
  · have hbehind : .char stop ∈ (t.advance (run isCommentChar t.rest)).rest :=
      mem_drop_run (p := isCommentChar) hmem' hstop
    generalize t.advance (run isCommentChar t.rest) = u at hbehind
    obtain ⟨rest, construct, cursor⟩ := u
    cases rest with
    | nil => cases hbehind
    | cons a rest => cases a <;> rfl
  · rfl

/-- What is skipped in front of a stop does not depend on what follows, if that is so for the
open construct. -/
theorem skip_followed (hdecided : s.construct.Decided s.rest)
    (hmem : .char stop ∈ s.closeConstruct.rest) (more : List Atom) :
    (s.followed more).skip = s.skip.followed more := by
  have hsame : (s.closeConstruct.followed more).construct = s.closeConstruct.construct := rfl
  simp only [skip, closeConstruct_followed hdecided, hsame]
  cases s.closeConstruct.construct with
  | code => exact skipTrivia_followed hstop hmem more
  | comment => rfl
  | string => rfl

omit hstop in
theorem cutOpenString_followed (hs : s.rest = .char '"' :: rest)
    (hdecided : Construct.string.Decided rest) (more : List Atom) :
    (s.followed more).cutOpenString (rest ++ more) =
      ((s.cutOpenString rest).1, (s.cutOpenString rest).2.followed more) := by
  have hclose := Construct.close?_append hdecided more
  have hlength {n : Nat} (hn : n ≤ rest.length) : 1 + n ≤ s.rest.length := by
    rw [hs, List.length_cons]
    omega
  cases hfound : Construct.string.close? rest with
  | some n =>
    rw [hfound] at hclose
    simp only [cutOpenString, hfound, hclose, cut_followed (hlength (Construct.close?_le hfound))]
  | none =>
    rw [hfound] at hclose
    obtain ⟨b, hstray⟩ := hdecided.stray hfound
    have hmem : .stray b ∈ (s.cut .error (1 + validRun rest)).2.rest := by
      rw [cut, advance, hs, Nat.add_comm]
      exact mem_drop_run (p := fun _ => true) hstray rfl
    simp only [cutOpenString, hfound, hclose, validRun_append hstray,
      cut_followed (hlength (validRun_le rest))]
    generalize s.cut .error (1 + validRun rest) = result at hmem
    obtain ⟨token, ahead, construct, cursor⟩ := result
    cases ahead with
    | nil => cases hmem
    | cons a ahead => cases a <;> rfl

/-- What is cut off in front of a stop does not depend on what follows, if that is so for a
string that is opened. -/
theorem cutToken_followed (hmem : .char stop ∈ s.rest)
    (hquote : ∀ rest, s.rest = .char '"' :: rest → Construct.string.Decided rest)
    (more : List Atom) :
    (s.followed more).cutToken = (s.cutToken.1, s.cutToken.2.followed more) := by
  cases hs : s.rest with
  | nil =>
    rw [hs] at hmem
    cases hmem
  | cons a rest =>
    have hmore : (s.followed more).rest = a :: (rest ++ more) := by rw [followed, hs]; rfl
    rw [hs] at hmem hquote
    cases a with
    | stray b =>
      have hrest : .char stop ∈ rest := by simpa using hmem
      have hlength : 1 + (rest.takeWhile isStray).length ≤ s.rest.length := by
        have hle := (List.takeWhile_prefix isStray (l := rest)).length_le
        rw [hs, List.length_cons]
        omega
      have hrun := takeWhile_append (p := isStray) hrest rfl more
      rw [cutToken_stray hs, cutToken_stray hmore, hrun]
      exact cut_followed hlength .error more
    | char c =>
      have hrest : c = stop ∨ .char stop ∈ rest :=
        (List.mem_cons.1 hmem).imp_left fun heq => (Atom.char.inj heq).symm
      have hopened : c = '"' → Construct.string.Decided rest := fun hc => hquote rest (by rw [hc])
      have hlongest := longest?_append hstop hrest hopened more
      cases hfound : longest? c rest with
      | some result =>
        obtain ⟨kind, n⟩ := result
        rw [hfound] at hlongest
        rw [cutToken_lexeme hs hfound, cutToken_lexeme hmore hlongest]
        exact cut_followed (hs ▸ longest?_le hfound) kind more
      | none =>
        rw [hfound] at hlongest
        by_cases hc : c = '"'
        · subst hc
          rw [cutToken_open hs hfound, cutToken_open hmore hlongest]
          exact cutOpenString_followed hs (hopened rfl) more
        · rw [cutToken_unknown hs hfound hc, cutToken_unknown hmore hlongest hc]
          exact cut_followed (by simp [hs]) .error more

end Stop

end Scanner

end LabelGraph
