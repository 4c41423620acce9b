import LabelGraph.Toml.Quoted

/-!
Every string can be quoted, and the quoted string is read as it was. Between the quotes the
text is an alternation: a run of quotes that is too short to close it, then a piece that is
read by itself, whatever comes behind it.
-/

namespace LabelGraph.Toml

namespace Quoting

variable {q : Quoting} {body text front cs rest : List Char}

/-- How many quotes in a row are read as text. -/
def bareLimit (q : Quoting) : Nat := if q.lines then 2 else 0

/-- The text `front` is one piece that stands for `cs`, whatever comes behind it. -/
structure IsPiece (q : Quoting) (front cs : List Char) : Prop where
  start : ∃ c tail, front = c :: tail ∧ c ≠ q.mark
  piece : ∀ more, q.piece? (front ++ more) = some (.chars cs front.length)

/-- Between quotes, `body` stands for `text`. -/
inductive Body (q : Quoting) : (body text : List Char) → Prop
  | quotes {n : Nat} (h : n ≤ q.bareLimit) :
      Body q (List.replicate n q.mark) (List.replicate n q.mark)
  | piece {n : Nat} {front cs body text : List Char} (h : n ≤ q.bareLimit)
      (hfront : q.IsPiece front cs) (hbody : Body q body text) :
      Body q (List.replicate n q.mark ++ (front ++ body)) (List.replicate n q.mark ++ (cs ++ text))

/-! Reading. -/

/-- What belongs to the piece read last is passed over. -/
theorem readAfter_skip (read skipped rest : List Char) :
    q.readAfter read skipped.length (skipped ++ rest) = q.readAfter read 0 rest := by
  induction skipped with
  | nil => rfl
  | cons c skipped ih => exact ih

theorem readAfter_piece (hfront : q.IsPiece front cs) (read rest : List Char) :
    q.readAfter read 0 (front ++ rest) = q.readAfter (cs.reverse ++ read) 0 rest := by
  obtain ⟨c, tail, rfl, -⟩ := hfront.start
  have hpiece := hfront.piece rest
  rw [List.cons_append] at hpiece ⊢
  rw [readAfter, hpiece]
  exact readAfter_skip _ tail rest

/-- A run of quotes that something else ends. -/
theorem takeWhile_quotes (n : Nat) (hrest : rest.head? ≠ some q.mark) :
    (List.replicate n q.mark ++ rest).takeWhile (· == q.mark) = List.replicate n q.mark := by
  have hnone : rest.takeWhile (· == q.mark) = [] := by
    cases rest with
    | nil => rfl
    | cons c rest =>
      have hc : (c == q.mark) = false := by simpa using hrest
      rw [List.takeWhile_cons, hc]
      rfl
  rw [List.takeWhile_append_of_pos (by simp), hnone, List.append_nil]

theorem piece?_quotes (hlines : q.lines = true) (n : Nat) (hrest : rest.head? ≠ some q.mark) :
    q.piece? (List.replicate (n + 1) q.mark ++ rest) =
      if n + 1 < 3 then some (.chars (List.replicate (n + 1) q.mark) (n + 1))
      else some (.close (min (n + 1 - 3) 2) (min (n + 1) 5)) := by
  rw [List.replicate_succ, List.cons_append, piece?, if_pos rfl, if_pos hlines,
    takeWhile_quotes n hrest, List.length_replicate, Nat.add_comm 1 n, ← List.replicate_succ]

/-- A short run of quotes is read as text. -/
theorem readAfter_quotes {n : Nat} (h : n ≤ q.bareLimit) (hrest : rest.head? ≠ some q.mark)
    (read : List Char) :
    q.readAfter read 0 (List.replicate n q.mark ++ rest) =
      q.readAfter (List.replicate n q.mark ++ read) 0 rest := by
  cases n with
  | zero => rfl
  | succ n =>
    rw [bareLimit] at h
    split at h
    · next hlines =>
      have hshort : n + 1 < 3 := Nat.lt_succ_of_le h
      have hpiece := piece?_quotes hlines n hrest
      rw [if_pos hshort] at hpiece
      have hskip := readAfter_skip (q := q) (List.replicate (n + 1) q.mark ++ read)
        (List.replicate n q.mark) rest
      rw [List.length_replicate] at hskip
      have hstep : q.readAfter read 0 (List.replicate (n + 1) q.mark ++ rest) =
          q.readAfter ((List.replicate (n + 1) q.mark).reverse ++ read) n
            (List.replicate n q.mark ++ rest) := by
        rw [List.replicate_succ, List.cons_append] at hpiece ⊢
        rw [readAfter, hpiece]
        rfl
      rw [hstep, List.reverse_replicate, hskip]
    · cases h

/-- The closing quotes may come right behind a short run of others. -/
theorem readAfter_close {n : Nat} (h : n ≤ q.bareLimit) (hrest : rest.head? ≠ some q.mark)
    (read : List Char) :
    q.readAfter read 0 (List.replicate n q.mark ++ (q.delimiter ++ rest)) =
      some (read.reverse ++ List.replicate n q.mark, rest) := by
  rw [delimiter]
  by_cases hlines : q.lines = true
  · rw [bareLimit, if_pos hlines] at h
    have hpiece := piece?_quotes hlines (n + 2) hrest
    have hextra : n + 2 + 1 - 3 = n := by omega
    rw [if_neg (by omega), hextra, Nat.min_eq_left h, Nat.min_eq_left (by omega)] at hpiece
    rw [if_pos hlines, ← List.append_assoc, List.replicate_append_replicate]
    rw [List.replicate_succ, List.cons_append] at hpiece ⊢
    rw [readAfter, hpiece]
    simp
  · rw [bareLimit, if_neg hlines, Nat.le_zero] at h
    subst h
    rw [if_neg hlines, List.replicate_one, List.replicate_zero, List.nil_append,
      List.singleton_append, readAfter, piece?, if_pos rfl, if_neg hlines]
    simp

theorem Body.read (hbody : q.Body body text) (hrest : rest.head? ≠ some q.mark)
    (read : List Char) :
    q.readAfter read 0 (body ++ (q.delimiter ++ rest)) = some (read.reverse ++ text, rest) := by
  induction hbody generalizing read with
  | quotes h => exact readAfter_close h hrest read
  | @piece n front cs body text h hfront _ ih =>
    have hnext : (front ++ (body ++ (q.delimiter ++ rest))).head? ≠ some q.mark := by
      obtain ⟨c, tail, rfl, hc⟩ := hfront.start
      simpa using hc
    rw [List.append_assoc, List.append_assoc, readAfter_quotes h hnext, readAfter_piece hfront, ih]
    simp

/-- On one line the text does not start with a quote. -/
theorem Body.head_ne (hbody : q.Body body text) (hlines : q.lines = false) :
    body.head? ≠ some q.mark := by
  have hzero {n : Nat} (h : n ≤ q.bareLimit) : n = 0 := by
    rw [bareLimit, hlines] at h
    exact Nat.le_zero.1 h
  cases hbody with
  | quotes h =>
    rw [hzero h]
    exact nofun
  | piece h hfront _ =>
    obtain ⟨c, tail, rfl, hc⟩ := hfront.start
    rw [hzero h]
    simpa using hc

/-! Pieces of one character. -/

def Bare (q : Quoting) (c : Char) : Prop := isPlain c = true ∨ q.lines = true ∧ c = '\n'

theorem isPiece_bare {c : Char} (hmark : c ≠ q.mark) (hescape : q.escaped = true → c ≠ '\\')
    (hc : q.Bare c) : q.IsPiece [c] [c] where
  start := ⟨c, [], rfl, hmark⟩
  piece := by
    intro more
    have hnot : ¬ (q.escaped = true ∧ c = '\\') := fun h => hescape h.1 h.2
    rw [List.singleton_append, piece?, if_neg hmark, if_neg hnot]
    rcases hc with hplain | ⟨hlines, rfl⟩
    · rw [if_pos hplain]
      rfl
    · rw [if_neg (by decide), if_pos ⟨hlines, rfl⟩]
      rfl

/-- An escape is a piece if what is behind the backslash is read as one. -/
theorem isPiece_escape (hescaped : q.escaped = true)
    (hpiece : ∀ more, escape? q.lines (front ++ more) = some (.chars cs (front.length + 1))) :
    q.IsPiece ('\\' :: front) cs where
  start := ⟨'\\', front, rfl, by rw [mark, hescaped]; decide⟩
  piece := by
    intro more
    have hmark : '\\' ≠ q.mark := by
      rw [mark, hescaped]
      decide
    rw [List.cons_append, piece?, if_neg hmark, if_pos ⟨hescaped, rfl⟩, hpiece]
    rfl

end Quoting

/-- The two digits of a character below 256 spell its number. -/
theorem number_upperHex (n : Nat) (h : n < 256) :
    ['0', '0', Digits.upperHex (n / 16), Digits.upperHex (n % 16)].all (Digits.isDigitOf 16) =
        true ∧
      Digits.number 16 ['0', '0', Digits.upperHex (n / 16), Digits.upperHex (n % 16)] = n := by
  have hdigit : ∀ d < 16, Digits.isDigitOf 16 (Digits.upperHex d) = true ∧
      Digits.value? (Digits.upperHex d) = some d := by decide
  obtain ⟨hhigh, hhighValue⟩ := hdigit (n / 16) (by omega)
  obtain ⟨hlow, hlowValue⟩ := hdigit (n % 16) (by omega)
  have hzero : Digits.value? '0' = some 0 := by decide
  constructor
  · simp [hhigh, hlow]
    decide
  · simp [Digits.number, hhighValue, hlowValue, hzero]
    omega

theorem isCode_lt {c : Char} (h : isCode c = true) : c.toNat < 256 := by
  simp only [isCode, isPlain, Bool.and_eq_true, Bool.not_eq_true', Bool.or_eq_false_iff,
    Bool.and_eq_false_iff, bne_eq_false_iff_eq, decide_eq_false_iff_not] at h
  omega

/-- A character by its number is read as that character. -/
theorem numbered?_code {c : Char} (h : isCode c = true) (more : List Char) :
    numbered? 4 ('0' :: '0' :: Digits.upperHex (c.toNat / 16) ::
      Digits.upperHex (c.toNat % 16) :: more) = some (.chars [c] 6) := by
  obtain ⟨hall, hnumber⟩ := number_upperHex c.toNat (isCode_lt h)
  have hvalid : c.toNat.isValidChar := c.valid
  have hscalar : scalar? c.toNat = some c := by
    rw [scalar?, if_pos hvalid, Char.ofNat_toNat]
  simp only [numbered?, List.take_succ_cons, List.take_zero, hall, hnumber, hscalar]
  rfl

namespace Quoting

variable {q : Quoting} {text rest : List Char}

theorem isPiece_escaped (hescaped : q.escaped = true) {c : Char} (hc : c ≠ '"') :
    q.IsPiece (Toml.escaped q.lines c) [c] := by
  have hmark : q.mark = '"' := by rw [mark, if_pos hescaped]
  unfold Toml.escaped
  split
  · exact isPiece_escape hescaped fun _ => rfl
  · exact isPiece_escape hescaped fun _ => rfl
  · split
    · next hlines => exact isPiece_bare (hmark ▸ hc) (fun _ => by decide) (.inr ⟨hlines, rfl⟩)
    · exact isPiece_escape hescaped fun _ => rfl
  · exact isPiece_escape hescaped fun _ => rfl
  · exact isPiece_escape hescaped fun _ => rfl
  · exact isPiece_escape hescaped fun _ => rfl
  · next hline _ _ hbackslash =>
    split
    · next hcode => exact isPiece_escape hescaped (numbered?_code hcode)
    · next hcode =>
      have hplain : isPlain c = true := by
        cases hplain : isPlain c with
        | true => rfl
        | false => exact absurd (by simpa [isCode, hplain] using hline) hcode
      exact isPiece_bare (hmark ▸ hc) (fun _ => hbackslash) (.inl hplain)

/-- What the writer puts between double quotes, behind quotes that it left bare. -/
theorem body_escapeText (hescaped : q.escaped = true) (text : List Char) :
    ∀ bare ≤ q.bareLimit,
      q.Body (List.replicate bare q.mark ++ escapeText q.lines bare text)
        (List.replicate bare q.mark ++ text) := by
  have hmark : q.mark = '"' := by rw [mark, if_pos hescaped]
  induction text with
  | nil =>
    intro bare hbare
    rw [escapeText, List.append_nil]
    exact .quotes hbare
  | cons c text ih =>
    intro bare hbare
    rw [escapeText]
    by_cases hc : c = '"'
    · have hlimit : (if q.lines then 2 else 0) = q.bareLimit := rfl
      rw [if_pos hc, hlimit, hc]
      by_cases hroom : bare < q.bareLimit
      · have hmore := ih (bare + 1) hroom
        rw [List.replicate_succ', List.append_assoc, List.append_assoc, List.singleton_append,
          List.singleton_append] at hmore
        rw [if_pos hroom, ← hmark]
        exact hmore
      · have hfront : q.IsPiece ['\\', '"'] ['"'] := isPiece_escape hescaped fun _ => rfl
        rw [if_neg hroom]
        exact .piece hbare hfront (ih 0 (Nat.zero_le _))
    · rw [if_neg hc]
      exact .piece hbare (isPiece_escaped hescaped hc) (ih 0 (Nat.zero_le _))

theorem le_longestRunFrom (mark : Char) (text : List Char) (current : Nat) :
    current ≤ longestRunFrom mark current text := by
  induction text generalizing current with
  | nil => exact Nat.le_refl _
  | cons c text ih =>
    rw [longestRunFrom]
    split
    · exact Nat.le_of_succ_le (ih (current + 1))
    · exact Nat.le_max_left ..

/-- A text without escapes stands for itself if no run of quotes in it is too long. -/
theorem body_literal (hescaped : q.escaped = false) (text : List Char)
    (hbare : ∀ c ∈ text, q.Bare c) :
    ∀ current, longestRunFrom q.mark current text ≤ q.bareLimit →
      q.Body (List.replicate current q.mark ++ text) (List.replicate current q.mark ++ text) := by
  induction text with
  | nil =>
    intro current hrun
    rw [List.append_nil]
    exact .quotes hrun
  | cons c text ih =>
    intro current hrun
    obtain ⟨hc, htext⟩ := List.forall_mem_cons.1 hbare
    have hcurrent := Nat.le_trans (le_longestRunFrom q.mark (c :: text) current) hrun
    rw [longestRunFrom] at hrun
    split at hrun
    · next hmark =>
      have hmore := ih htext (current + 1) hrun
      rw [List.replicate_succ', List.append_assoc, List.singleton_append] at hmore
      rw [hmark]
      exact hmore
    · next hmark =>
      have hfront : q.IsPiece [c] [c] :=
        isPiece_bare hmark (fun h => by rw [hescaped] at h; cases h) hc
      have hmore := ih htext 0 (Nat.le_trans (Nat.le_max_right ..) hrun)
      exact .piece hcurrent hfront hmore

/-! Writing. -/

/-- Single quotes are chosen only for a text that they can hold as it is. -/
theorem choose_literal (h : (choose text).escaped = false) :
    (∀ c ∈ text, (choose text).Bare c) ∧
      longestRun '\'' text ≤ (choose text).bareLimit := by
  have hbare (codes : text.any isCode = false) (q : Quoting)
      (hline : q.lines = true ∨ text.any (· == '\n') = false) : ∀ c ∈ text, q.Bare c := by
    intro c hc
    have hcode := List.any_eq_false.1 codes c hc
    by_cases hlf : c = '\n'
    · rcases hline with hlines | hnone
      · exact .inr ⟨hlines, hlf⟩
      · exact absurd hlf (by simpa using List.any_eq_false.1 hnone c hc)
    · exact .inl (by simpa [isCode, hlf] using hcode)
  unfold choose at h ⊢
  simp only at h ⊢
  split at h
  · cases h
  · split at h
    · next hsingle =>
      simp only [Bool.and_eq_true, Bool.not_eq_true', beq_iff_eq] at hsingle
      obtain ⟨⟨hcodes, hrun⟩, hline⟩ := hsingle
      rw [if_neg ‹_›, if_pos (by simp [hcodes, hrun, hline])]
      exact ⟨hbare hcodes _ (.inr hline), Nat.le_of_eq hrun⟩
    · split at h
      · cases h
      · split at h
        · next hsingle =>
          simp only [Bool.and_eq_true, Bool.not_eq_true', decide_eq_true_eq] at hsingle
          obtain ⟨hcodes, hrun⟩ := hsingle
          rw [if_neg ‹_›, if_neg ‹_›, if_neg ‹_›, if_pos (by simp [hcodes, hrun])]
          exact ⟨hbare hcodes _ (.inl rfl), hrun⟩
        · cases h

def written (q : Quoting) (text : List Char) : List Char :=
  if q.escaped then escapeText q.lines 0 text else text

theorem body_written (text : List Char) :
    (choose text).Body ((choose text).written text) text := by
  rw [written]
  split
  · next hescaped => exact body_escapeText hescaped text 0 (Nat.zero_le _)
  · next hescaped =>
    have hliteral := Bool.eq_false_iff.2 hescaped
    obtain ⟨hbare, hrun⟩ := choose_literal hliteral
    have hmark : (choose text).mark = '\'' := by rw [mark, if_neg hescaped]
    rw [longestRun, ← hmark] at hrun
    exact body_literal hliteral text hbare 0 hrun

/-! The opening quotes. -/

theorem mark_cases (q : Quoting) : q.mark = '"' ∨ q.mark = '\'' := by
  rw [mark]
  split
  · exact .inl rfl
  · exact .inr rfl

theorem opened?_three (hlines : q.lines = true) (text : List Char) :
    opened? (q.delimiter ++ text) = some (q, text) := by
  obtain ⟨escaped, lines⟩ := q
  cases hlines
  cases escaped <;> rfl

/-- A single quote opens a text, unless two more follow. -/
theorem opened?_one (hlines : q.lines = false)
    (hbehind : ∀ more, text ≠ q.mark :: q.mark :: more) :
    opened? (q.delimiter ++ text) = some (q, text) := by
  obtain ⟨escaped, lines⟩ := q
  cases hlines
  rw [delimiter, if_neg nofun, List.replicate_one, List.singleton_append]
  cases escaped with
  | true =>
    change opened? ('"' :: text) = _
    rw [opened?]
    · intro more heq
      exact hbehind more heq
  | false =>
    change opened? ('\'' :: text) = _
    rw [opened?]
    · intro more heq
      exact hbehind more heq

end Quoting

theorem dropLineEnd_eq {text : List Char} (h : ∀ c ∈ text.head?, c ≠ '\n' ∧ c ≠ '\r') :
    dropLineEnd text = text := by
  unfold dropLineEnd
  split
  · exact absurd rfl (h '\n' rfl).1
  · exact absurd rfl (h '\r' rfl).2
  · rfl

theorem escaped_head {c : Char} (hc : c ≠ '\n') (lines : Bool) :
    ∃ d tail, escaped lines c = d :: tail ∧ d ≠ '\n' ∧ d ≠ '\r' := by
  unfold escaped
  split
  · exact ⟨_, _, rfl, by decide, by decide⟩
  · exact ⟨_, _, rfl, by decide, by decide⟩
  · exact absurd rfl hc
  · exact ⟨_, _, rfl, by decide, by decide⟩
  · exact ⟨_, _, rfl, by decide, by decide⟩
  · exact ⟨_, _, rfl, by decide, by decide⟩
  · next hreturn _ =>
    split
    · exact ⟨_, _, rfl, by decide, by decide⟩
    · exact ⟨_, _, rfl, hc, hreturn⟩

namespace Quoting

variable {q : Quoting} {text rest : List Char}

/-- A text of one line does not start with a line end between its quotes. -/
theorem written_head (hline : text.any (· == '\n') = false) :
    ∀ c ∈ ((choose text).written text).head?, c ≠ '\n' ∧ c ≠ '\r' := by
  intro d hd
  cases text with
  | nil =>
    rw [written] at hd
    split at hd <;> cases hd
  | cons c text =>
    have hc : c ≠ '\n' := by simpa using List.any_eq_false.1 hline c List.mem_cons_self
    rw [written] at hd
    split at hd
    · rw [escapeText] at hd
      split at hd
      · split at hd <;> cases hd <;> exact ⟨by decide, by decide⟩
      · obtain ⟨e, tail, heq, hne⟩ := escaped_head hc (choose (c :: text)).lines
        rw [heq] at hd
        cases hd
        exact hne
    · next hescaped =>
      have hbare := (choose_literal (Bool.eq_false_iff.2 hescaped)).1 c List.mem_cons_self
      cases hd
      rcases hbare with hplain | ⟨-, hfeed⟩
      · refine ⟨hc, ?_⟩
        rintro rfl
        cases hplain
      · exact absurd hfeed hc

theorem delimiter_eq_cons (q : Quoting) : ∃ tail, q.delimiter = q.mark :: tail := by
  rw [delimiter]
  split
  · exact ⟨_, rfl⟩
  · exact ⟨_, rfl⟩

/-- The line end that the writer puts in front of a text of several lines is all that the
reader leaves out. -/
theorem dropLineEnd_written (text rest : List Char) :
    dropLineEnd ((if text.any (· == '\n') then ['\n'] else []) ++
        ((choose text).written text ++ ((choose text).delimiter ++ rest))) =
      (choose text).written text ++ ((choose text).delimiter ++ rest) := by
  cases hline : text.any (· == '\n') with
  | true => rfl
  | false =>
    apply dropLineEnd_eq
    intro c hc
    cases hwritten : (choose text).written text with
    | nil =>
      obtain ⟨tail, htail⟩ := (choose text).delimiter_eq_cons
      rw [hwritten, htail] at hc
      cases hc
      rcases (choose text).mark_cases with hq | hq <;> rw [hq] <;> exact ⟨by decide, by decide⟩
    | cons d written =>
      rw [hwritten] at hc
      cases hc
      exact written_head hline c (by rw [hwritten]; rfl)

/-- On one line there are no three quotes in a row at the start. -/
theorem Body.quotes_ne {body : List Char} (hbody : q.Body body text) (hlines : q.lines = false)
    (hrest : rest.head? ≠ some q.mark) (more : List Char) :
    body ++ (q.delimiter ++ rest) ≠ q.mark :: q.mark :: more := by
  intro heq
  have hne := hbody.head_ne hlines
  cases body with
  | nil =>
    rw [delimiter, hlines] at heq
    cases heq
    exact hrest rfl
  | cons c body => exact hne (congrArg some (List.cons.inj heq).1)

end Quoting

theorem quoted_eq (s : String) :
    quoted s = (Quoting.choose s.toList).delimiter ++
      ((if (Quoting.choose s.toList).lines && s.toList.any (· == '\n') then ['\n'] else []) ++
        ((Quoting.choose s.toList).written s.toList ++ (Quoting.choose s.toList).delimiter)) := by
  rw [quoted, Quoting.write, Quoting.written]
  simp only [List.append_assoc]

/-- A quoted string starts with a quote. -/
theorem quoted_head (s : String) :
    ∃ c tail, quoted s = c :: tail ∧ (c = '"' ∨ c = '\'') := by
  obtain ⟨tail, htail⟩ := (Quoting.choose s.toList).delimiter_eq_cons
  rw [quoted_eq, htail]
  exact ⟨_, _, rfl, Quoting.mark_cases _⟩

/-- A string that was quoted is read back, whatever follows but more quotes. -/
theorem readQuoted?_quoted (s : String) {rest : List Char}
    (hrest : ∀ c ∈ rest.head?, c ≠ '"' ∧ c ≠ '\'') :
    readQuoted? (quoted s ++ rest) = some (s, rest) := by
  have hbody := Quoting.body_written s.toList
  have hdrop := Quoting.dropLineEnd_written s.toList rest
  rw [quoted_eq]
  generalize Quoting.choose s.toList = q at hbody hdrop ⊢
  have hmark : rest.head? ≠ some q.mark := by
    intro heq
    obtain ⟨hdouble, hsingle⟩ := hrest q.mark heq
    exact q.mark_cases.elim hdouble hsingle
  have hread := hbody.read hmark []
  simp only [List.append_assoc]
  cases hlines : q.lines with
  | true =>
    simp only [readQuoted?, Quoting.opened?_three hlines, hlines, Bool.true_and, if_true]
    rw [hdrop, hread]
    simp
  | false =>
    simp only [Bool.false_and, Bool.false_eq_true, if_false, List.nil_append]
    simp only [readQuoted?, Quoting.opened?_one hlines (hbody.quotes_ne hlines hmark), hlines,
      Bool.false_eq_true, if_false]
    rw [hread]
    simp

end LabelGraph.Toml
