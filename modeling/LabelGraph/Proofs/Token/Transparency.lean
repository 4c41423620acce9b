import LabelGraph.Proofs.Token.Repair

/-!
Stray bytes do not change the lexical structure. The scanner reads the valid text
between stray bytes and carries an open comment or string literal across them. The
tokens it finds are those of the repaired text, where the same bytes are ordinary
characters: errors apart, and apart from string literals that a stray byte breaks.
Texts and lines and columns agree, only the byte offsets differ.
-/

namespace LabelGraph

open Atom

namespace Token

def outline (t : Token) : Kind × String × (Nat × Nat) × (Nat × Nat) :=
  (t.kind, t.text, (t.span.start.line, t.span.start.column), (t.span.stop.line, t.span.stop.column))

def covers (t : Token) (offset : Nat) : Bool :=
  t.span.start.offset ≤ offset && offset < t.span.stop.offset

def isProper (t : Token) : Bool := t.kind != .error

/-- Whether the token is no error and no string literal over one of the offsets. -/
def isIntact (holes : List Nat) (t : Token) : Bool :=
  t.isProper && !(t.kind == .stringLiteral && holes.any t.covers)

def outlines (keep : Token → Bool) (tokens : List Token) :
    List (Kind × String × (Nat × Nat) × (Nat × Nat)) :=
  (tokens.filter keep).map outline

theorem outlines_keep {keep : Token → Bool} {t : Token} (h : keep t) (tokens : List Token) :
    outlines keep (t :: tokens) = t.outline :: outlines keep tokens := by
  rw [outlines, List.filter_cons_of_pos h]
  rfl

theorem outlines_drop {keep : Token → Bool} {t : Token} (h : keep t = false)
    (tokens : List Token) : outlines keep (t :: tokens) = outlines keep tokens := by
  rw [outlines, List.filter_cons_of_neg (by simp [h])]
  rfl

theorem isProper_error {t : Token} (h : t.kind = .error) : t.isProper = false := by
  rw [isProper, h]
  rfl

theorem isIntact_error {t : Token} (h : t.kind = .error) (holes : List Nat) :
    t.isIntact holes = false := by
  rw [isIntact, isProper_error h]
  rfl

end Token

open Token

/-! Places of replaced characters. -/

namespace Atom

def mendedSize (atoms : List Atom) : Nat := ((mendAll atoms).map size).sum

theorem replacedFrom_append (offset : Nat) (first second : List Atom) :
    replacedFrom offset (first ++ second) =
      replacedFrom offset first ++ replacedFrom (offset + mendedSize first) second := by
  induction first generalizing offset with
  | nil => rfl
  | cons a first ih =>
      have hsize : offset + mendedSize (a :: first) =
          offset + a.mend.utf8Size + mendedSize first := by
        rw [Nat.add_assoc]
        rfl
      rw [hsize]
      cases a with
      | char c => exact ih _
      | stray b => exact congrArg (offset :: ·) (ih _)

theorem replacedFrom_bounds {offset o : Nat} {atoms : List Atom}
    (h : o ∈ replacedFrom offset atoms) : offset ≤ o ∧ o < offset + mendedSize atoms := by
  induction atoms generalizing offset with
  | nil => cases h
  | cons a atoms ih =>
      have hsize : mendedSize (a :: atoms) = a.mend.utf8Size + mendedSize atoms := rfl
      have hpos := Char.utf8Size_pos a.mend
      cases a with
      | char c =>
        have := ih h
        simp only [mend] at hsize
        omega
      | stray b =>
        rcases List.mem_cons.1 h with rfl | h
        · omega
        · have := ih h
          simp only [mend] at hsize
          omega

theorem mem_replacedFrom_of_stray {b : UInt8} {atoms : List Atom} (h : stray b ∈ atoms)
    (offset : Nat) : ∃ o, o ∈ replacedFrom offset atoms := by
  induction atoms generalizing offset with
  | nil => cases h
  | cons a atoms ih =>
      cases a with
      | char c =>
        rcases List.mem_cons.1 h with heq | h
        · cases heq
        · exact ih h _
      | stray b => exact ⟨offset, List.mem_cons_self ..⟩

theorem replacedFrom_valid {atoms : List Atom} (h : ∀ b, stray b ∉ atoms) (offset : Nat) :
    replacedFrom offset atoms = [] := by
  induction atoms generalizing offset with
  | nil => rfl
  | cons a atoms ih =>
      cases a with
      | char c => exact ih (fun b hb => h b (List.mem_cons_of_mem _ hb)) _
      | stray b => exact absurd (List.mem_cons_self ..) (h b)

end Atom

theorem Position.advance_mendAll {p q : Position} (hline : p.line = q.line)
    (hcolumn : p.column = q.column) (atoms : List Atom) :
    (p.advance (mendAll atoms)).line = (q.advance atoms).line ∧
      (p.advance (mendAll atoms)).column = (q.advance atoms).column := by
  induction atoms generalizing p q with
  | nil => exact ⟨hline, hcolumn⟩
  | cons a atoms ih =>
      have hafter : (p.after (.char a.mend)).line = (q.after a).line ∧
          (p.after (.char a.mend)).column = (q.after a).column := by
        cases a with
        | char c => by_cases hc : c = '\n' <;> simp [mend, after, hc, hline, hcolumn]
        | stray b => simp [mend, after, hline, hcolumn]
      exact ih hafter.1 hafter.2

namespace Scanner

variable {holes : List Nat} {s t : Scanner}

/-- Place `t` of the repaired text is place `s` of the text itself. -/
structure Mended (holes : List Nat) (s t : Scanner) : Prop where
  rest : t.rest = mendAll s.rest
  construct : t.construct = s.construct
  line : t.cursor.line = s.cursor.line
  column : t.cursor.column = s.cursor.column
  holes : ∀ o, t.cursor.offset ≤ o → (o ∈ holes ↔ o ∈ replacedFrom t.cursor.offset s.rest)

namespace Mended

theorem offset_advance (h : Mended holes s t) (n : Nat) :
    (t.advance n).cursor.offset = t.cursor.offset + mendedSize (s.rest.take n) := by
  rw [advance, Position.offset_advance, h.rest, mendAll, ← List.map_take]
  rfl

theorem advance (h : Mended holes s t) (n : Nat) : Mended holes (s.advance n) (t.advance n) where
  rest := by
    simp [h.rest, mendAll]
  construct := h.construct
  line := by
    have hmove := Position.advance_mendAll h.line h.column (s.rest.take n)
    simpa only [Scanner.advance, h.rest, mendAll, List.map_take] using hmove.1
  column := by
    have hmove := Position.advance_mendAll h.line h.column (s.rest.take n)
    simpa only [Scanner.advance, h.rest, mendAll, List.map_take] using hmove.2
  holes := by
    intro o ho
    rw [h.offset_advance] at ho ⊢
    rw [h.holes o (by omega), ← List.take_append_drop n s.rest, replacedFrom_append,
      List.mem_append]
    simp only [List.take_append_drop]
    constructor
    · rintro (hfirst | hsecond)
      · have := replacedFrom_bounds hfirst
        omega
      · exact hsecond
    · exact .inr

theorem enter (h : Mended holes s t) (c : Construct) :
    Mended holes { s with construct := c } { t with construct := c } :=
  ⟨h.rest, rfl, h.line, h.column, h.holes⟩

/-- A token of the repaired text stands over a hole exactly if it takes a stray byte. -/
theorem covers_iff (h : Mended holes s t) (kind : Kind) (n : Nat) :
    holes.any (t.cut kind n).1.covers = true ↔ ∃ b, stray b ∈ s.rest.take n := by
  have hsplit : replacedFrom t.cursor.offset s.rest =
      replacedFrom t.cursor.offset (s.rest.take n) ++
        replacedFrom (t.advance n).cursor.offset (s.rest.drop n) := by
    rw [h.offset_advance, ← replacedFrom_append, List.take_append_drop]
  simp only [List.any_eq_true, Token.covers, cut, Bool.and_eq_true, decide_eq_true_eq]
  constructor
  · rintro ⟨o, hmem, hstart, hstop⟩
    rw [h.holes o hstart, hsplit, List.mem_append] at hmem
    rcases hmem with hmem | hmem
    · apply Classical.byContradiction
      intro hvalid
      rw [replacedFrom_valid (not_exists.1 hvalid)] at hmem
      cases hmem
    · have := (replacedFrom_bounds hmem).1
      omega
  · rintro ⟨b, hb⟩
    obtain ⟨o, ho⟩ := mem_replacedFrom_of_stray hb t.cursor.offset
    obtain ⟨hstart, hstop⟩ := replacedFrom_bounds ho
    refine ⟨o, (h.holes o hstart).2 ?_, hstart, h.offset_advance n ▸ hstop⟩
    rw [hsplit]
    exact List.mem_append_left _ ho

/-- A token over valid text looks the same in both texts. -/
theorem outline_cut (h : Mended holes s t) (kind : Kind) {n : Nat}
    (hvalid : ∀ b, stray b ∉ s.rest.take n) :
    (t.cut kind n).1.outline = (s.cut kind n).1.outline := by
  have hmove := h.advance n
  have htake : t.rest.take n = s.rest.take n := by
    rw [h.rest, mendAll, ← List.map_take]
    exact mendAll_of_valid hvalid
  simp only [outline, cut, htake, h.line, h.column, hmove.line, hmove.column]

end Mended

/-! Stray bytes and their replacements give errors only. -/

theorem cutToken_strays {u : Scanner} {strays : List UInt8} {rest : List Atom}
    (hrest : u.rest = strays.map .stray ++ rest) (hne : strays ≠ [])
    (hend : ∀ b more, rest ≠ .stray b :: more) : u.cutToken = u.cut .error strays.length := by
  obtain ⟨b, more, rfl⟩ := List.exists_cons_of_ne_nil hne
  have hrun : ((more.map Atom.stray ++ rest).takeWhile isStray).length = more.length := by
    clear hrest
    induction more with
    | nil =>
      cases rest with
      | nil => rfl
      | cons a rest =>
        cases a with
        | char c => rfl
        | stray d => exact absurd rfl (hend d rest)
    | cons d more ih => exact congrArg (· + 1) (ih (by simp))
  have hcons : u.rest = .stray b :: (more.map .stray ++ rest) := hrest
  rw [cutToken_stray hcons, hrun, List.length_cons, Nat.add_comm]

theorem tokens_strays {u : Scanner} {strays : List UInt8} {rest : List Atom} (hskip : s.skip = u)
    (hrest : u.rest = strays.map .stray ++ rest) (hne : strays ≠ [])
    (hend : ∀ b more, rest ≠ .stray b :: more) :
    outlines isProper s.tokens = outlines isProper (u.advance strays.length).tokens := by
  have hcut := cutToken_strays hrest hne hend
  rw [tokens_of_cut hskip hcut Kind.noConfusion, outlines_drop (isProper_error rfl)]

theorem tokens_at_replacement {rest : List Atom} (hcode : t.construct = .code)
    (hrest : t.rest = .char '\uFFFD' :: rest) :
    t.tokens = (t.cut .error 1).1 :: (t.advance 1).tokens := by
  have hskip : t.skip = t := by rw [skip_code hcode, skipTrivia_token hrest] <;> rfl
  exact tokens_of_cut hskip (cutToken_unknown hrest rfl (by decide)) Kind.noConfusion

theorem tokens_replacement {rest : List Atom} (hcode : t.construct = .code)
    (hrest : t.rest = .char '\uFFFD' :: rest) :
    outlines (isIntact holes) t.tokens = outlines (isIntact holes) (t.advance 1).tokens := by
  rw [tokens_at_replacement hcode hrest, outlines_drop (isIntact_error rfl holes)]

theorem tokens_replacements {strays : List UInt8} {rest : List Atom} (hcode : t.construct = .code)
    (hrest : t.rest = mendAll (strays.map .stray ++ rest)) :
    outlines (isIntact holes) t.tokens =
      outlines (isIntact holes) (t.advance strays.length).tokens := by
  induction strays generalizing t with
  | nil => rfl
  | cons b strays ih =>
      have hcons : t.rest = .char '\uFFFD' :: mendAll (strays.map .stray ++ rest) := hrest
      have htail : (t.advance 1).rest = mendAll (strays.map .stray ++ rest) := by
        rw [Scanner.rest_advance, hcons]
        rfl
      have hmore := ih (t := t.advance 1) hcode htail
      rw [tokens_replacement hcode hcons, hmore, advance_advance, List.length_cons, Nat.add_comm]

theorem validRun_mendAll (atoms : List Atom) : validRun (mendAll atoms) = atoms.length := by
  induction atoms with
  | nil => rfl
  | cons a atoms ih => exact (Lexeme.run_char rfl _).trans (congrArg (· + 1) ih)

/-- An open construct that goes on behind `n` atoms gives the tokens it gives there. -/
theorem tokens_resume {n : Nat} {atoms : List Atom} (hopen : t.construct ≠ .code)
    (hrest : t.rest = mendAll atoms) (hn : n ≤ atoms.length)
    (h : t.construct.close? t.rest = (t.construct.close? (t.advance n).rest).map (n + ·)) :
    t.tokens = (t.advance n).tokens := by
  cases hclose : t.construct.close? (t.advance n).rest with
  | some m =>
    rw [hclose] at h
    rw [tokens_of_closed h, tokens_of_closed (s := t.advance n) hclose, advance_advance]
  | none =>
    rw [hclose] at h
    have hmore : (t.advance n).rest = mendAll (atoms.drop n) := by
      simp [hrest, mendAll]
    have hlength : n + (atoms.length - n) = atoms.length := by omega
    apply tokens_of_skip
    rw [skip_open hopen h, skip_open (s := t.advance n) hopen hclose, hmore, hrest,
      validRun_mendAll, validRun_mendAll, advance_advance, List.length_drop, hlength]

namespace Mended

/-- A lexeme that is no string literal is the same in both texts. -/
theorem cuts_lexeme {c : Char} {rest : List Atom} (h : Mended holes s t)
    (hcode : s.construct = .code) (hrest : s.rest = .char c :: rest)
    (hblank : Lexeme.isBlank c = false) (hcomment : Lexeme.startsComment c = false)
    (hquote : c ≠ '"') :
    ∃ kind n, 0 < n ∧ kind ≠ .stringLiteral ∧ (∀ b, stray b ∉ s.rest.take n) ∧
      s.tokens = (s.cut kind n).1 :: (s.advance n).tokens ∧
      t.tokens = (t.cut kind n).1 :: (t.advance n).tokens := by
  have hrest' : t.rest = .char c :: mendAll rest := by rw [h.rest, hrest]; rfl
  have hskip : s.skip = s := by rw [skip_code hcode, skipTrivia_token hrest hblank hcomment]
  have hskip' : t.skip = t := by
    rw [skip_code (h.construct.trans hcode), skipTrivia_token hrest' hblank hcomment]
  cases hlongest : Lexeme.longest? c rest with
  | none =>
    have hcut := cutToken_unknown hrest hlongest hquote
    have hcut' :=
      cutToken_unknown hrest' ((Lexeme.longest?_mendAll hquote rest).trans hlongest) hquote
    exact ⟨.error, 1, Nat.one_pos, by decide, by simp [hrest],
      tokens_of_cut hskip hcut Kind.noConfusion, tokens_of_cut hskip' hcut' Kind.noConfusion⟩
  | some found =>
    obtain ⟨kind, n⟩ := found
    have heof := (Lexeme.longest?_kind hlongest).2
    have hcut := cutToken_lexeme hrest hlongest
    have hcut' := cutToken_lexeme hrest' ((Lexeme.longest?_mendAll hquote rest).trans hlongest)
    exact ⟨kind, n, Lexeme.longest?_pos hlongest, Lexeme.longest?_not_string hquote hlongest,
      fun b => hrest ▸ Lexeme.valid_of_longest? hlongest b,
      tokens_of_cut hskip hcut heof, tokens_of_cut hskip' hcut' heof⟩

/-- What stands open up to the end of the valid text goes on behind the stray bytes, and in the
repaired text across them. -/
theorem goes_on (h : Mended holes s t) (hopen : s.construct ≠ .code)
    (hclose : s.construct.close? s.rest = none) :
    ∃ (n : Nat) (strays : List UInt8) (rest : List Atom), s.skip = s.advance n ∧
      (s.advance n).rest = strays.map .stray ++ rest ∧ (strays = [] → rest = []) ∧
      (∀ b more, rest ≠ .stray b :: more) ∧
      (strays ≠ [] → (s.advance (n + strays.length)).rest.length < s.rest.length) ∧
      t.tokens = (t.advance (n + strays.length)).tokens := by
  obtain ⟨valid, strays, rest, hrest, hrun, hend⟩ := split_strays s.rest
  have hskip : s.skip = s.advance valid.length := by
    rw [skip_open hopen hclose, hrest, validRun_split hrun]
  have hdrop : (s.advance (valid.length + strays.length)).rest = rest := by
    rw [Scanner.rest_advance, hrest, ← List.append_assoc]
    exact List.drop_left' (by simp)
  have hresume : t.construct.close? t.rest = (t.construct.close?
      (t.advance (valid.length + strays.length)).rest).map (valid.length + strays.length + ·) := by
    rw [(h.advance _).rest, hdrop, h.construct, h.rest]
    rw [hrest] at hclose ⊢
    exact Construct.close?_resume hrun valid hclose
  have hlength : s.rest.length = valid.length + (strays.length + rest.length) := by simp [hrest]
  refine ⟨valid.length, strays, rest, hskip, by simp [hrest], hrun, hend,
    fun hstrays => ?_, tokens_resume (h.construct ▸ hopen) h.rest (by omega) hresume⟩
  have hpos := List.length_pos_iff.2 hstrays
  rw [hdrop]
  omega

end Mended

/-! The simulation. -/

def Alike (holes : List Nat) (s t : Scanner) : Prop :=
  outlines isProper s.tokens = outlines (isIntact holes) t.tokens

theorem alike_nil (h : Mended holes s t) (hnil : s.rest = []) : Alike holes s t := by
  have hnil' : t.rest = [] := by rw [h.rest, hnil]; rfl
  have hs := skip_nil hnil
  have ht := skip_nil hnil'
  rw [Alike, tokens_of_end hs.1, tokens_of_end ht.1, hs.2, ht.2, outlines_keep rfl,
    outlines_keep rfl]
  simp only [outline, Span.point, h.line, h.column]
  rfl

/-- A lexeme that is no string literal. -/
theorem alike_lexeme {c : Char} {rest : List Atom} (h : Mended holes s t)
    (hcode : s.construct = .code) (hrest : s.rest = .char c :: rest)
    (hblank : Lexeme.isBlank c = false) (hcomment : Lexeme.startsComment c = false)
    (hquote : c ≠ '"')
    (ih : ∀ n, 0 < n → Alike holes (s.advance n) (t.advance n)) : Alike holes s t := by
  obtain ⟨kind, n, hpos, hstring, hvalid, htokens, htokens'⟩ :=
    h.cuts_lexeme hcode hrest hblank hcomment hquote
  rw [Alike, htokens, htokens']
  by_cases herror : kind = .error
  · rw [outlines_drop (isProper_error herror), outlines_drop (isIntact_error herror holes)]
    exact ih n hpos
  · have hproper : (s.cut kind n).1.isProper := by simp [isProper, cut, herror]
    have hintact : (t.cut kind n).1.isIntact holes := by
      simp [isIntact, isProper, cut, herror, hstring]
    rw [outlines_keep hproper, outlines_keep hintact, h.outline_cut kind hvalid]
    exact congrArg _ (ih n hpos)

/-- A string literal, complete or not. The text behind the opening quote is an open string. -/
theorem alike_string {rest : List Atom} (h : Mended holes s t)
    (hcode : s.construct = .code) (hrest : s.rest = .char '"' :: rest)
    (ih : Alike holes { s.advance 1 with construct := .string }
      { t.advance 1 with construct := .string }) : Alike holes s t := by
  have hcode' : t.construct = .code := h.construct.trans hcode
  have hrest' : t.rest = .char '"' :: mendAll rest := by rw [h.rest, hrest]; rfl
  cases hquoted : Lexeme.quoted? rest with
  | some n =>
    have hvalid (b : UInt8) : stray b ∉ s.rest.take (1 + n) := by
      rw [hrest]
      exact Lexeme.valid_lexeme '"' (Lexeme.valid_of_quotedAfter hquoted b)
    have hintact : (t.cut .stringLiteral (1 + n)).1.isIntact holes := by
      have hcovers := mt (h.covers_iff .stringLiteral (1 + n)).1 (not_exists.2 hvalid)
      simpa [isIntact, isProper, cut] using hcovers
    rw [Alike, tokens_literal hcode hrest hquoted,
      tokens_literal hcode' hrest' (Lexeme.quotedAfter_mendAll hquoted), outlines_keep rfl,
      outlines_keep hintact, h.outline_cut _ hvalid]
    exact congrArg _ ih
  | none =>
    obtain ⟨token, htoken, htokens⟩ := tokens_unclosed hcode hrest hquoted
    rw [Alike, htokens, outlines_drop (isProper_error htoken)]
    cases hquoted' : Lexeme.quoted? (mendAll rest) with
    | none =>
      obtain ⟨token', htoken', htokens'⟩ := tokens_unclosed hcode' hrest' hquoted'
      rw [htokens', outlines_drop (isIntact_error htoken' holes)]
      exact ih
    | some n =>
      -- The literal is complete only because its stray bytes are characters now.
      have hbroken : ∃ b, stray b ∈ rest.take n := by
        rcases Lexeme.stray_of_quotedAfter_mendAll hquoted' with hsome | hbroken
        · rw [Lexeme.quoted?, hsome] at hquoted
          cases hquoted
        · exact hbroken
      have hcovers : holes.any (t.cut .stringLiteral (1 + n)).1.covers = true := by
        obtain ⟨b, hb⟩ := hbroken
        refine (h.covers_iff .stringLiteral (1 + n)).2 ⟨b, ?_⟩
        rw [hrest, Nat.add_comm]
        exact List.mem_cons_of_mem _ hb
      have hdropped : (t.cut .stringLiteral (1 + n)).1.isIntact holes = false := by
        rw [isIntact, hcovers]
        rfl
      rw [tokens_literal hcode' hrest' hquoted', outlines_drop hdropped]
      exact ih

/-- Code where no blank stands ahead. -/
theorem alike_start (h : Mended holes s t) (hcode : s.construct = .code)
    (hblanks : Lexeme.run Lexeme.isBlank s.rest = 0)
    (ih : ∀ s' t', s'.rest.length < s.rest.length → Mended holes s' t' → Alike holes s' t') :
    Alike holes s t := by
  have hcode' : t.construct = .code := h.construct.trans hcode
  have hnext (n : Nat) (hn : 0 < n) (hne : s.rest ≠ []) :
      (s.advance n).rest.length < s.rest.length := by
    have hpos := List.length_pos_iff.2 hne
    simp
    omega
  cases hrest : s.rest with
  | nil => exact alike_nil h hrest
  | cons a rest =>
    have hne : s.rest ≠ [] := by simp [hrest]
    cases a with
    | stray b =>
      obtain ⟨valid, strays, tail, heq, -, htail⟩ := split_strays (.stray b :: rest)
      cases valid with
      | cons c valid => cases heq
      | nil =>
        have hstrays : strays ≠ [] := by
          rintro rfl
          exact htail b rest heq.symm
        have hsplit : s.rest = strays.map .stray ++ tail := hrest.trans heq
        have hskip : s.skip = s := by
          rw [skip_code hcode, skipTrivia_head hblanks]
          rw [hrest]
          rfl
        rw [Alike, tokens_strays hskip hsplit hstrays htail,
          tokens_replacements hcode' (hsplit ▸ h.rest)]
        exact ih _ _ (hnext _ (List.length_pos_iff.2 hstrays) hne) (h.advance _)
    | char c =>
      have hblank : Lexeme.isBlank c = false := Lexeme.stop_of_run (by rw [hblanks]; exact hrest)
      cases hcomment : Lexeme.startsComment c with
      | true =>
        have hrest' : t.rest = .char c :: mendAll rest := by rw [h.rest, hrest]; rfl
        rw [Alike, tokens_comment hcode hrest hcomment, tokens_comment hcode' hrest' hcomment]
        exact ih _ _ (hnext 1 Nat.one_pos hne) ((h.advance 1).enter .comment)
      | false =>
        by_cases hquote : c = '"'
        · subst hquote
          exact alike_string h hcode hrest
            (ih _ _ (hnext 1 Nat.one_pos hne) ((h.advance 1).enter .string))
        · exact alike_lexeme h hcode hrest hblank hcomment hquote
            fun n hn => ih _ _ (hnext n hn hne) (h.advance n)

theorem alike_code (h : Mended holes s t) (hcode : s.construct = .code)
    (ih : ∀ s' t', s'.rest.length < s.rest.length → Mended holes s' t' → Alike holes s' t') :
    Alike holes s t := by
  have hblanks : Lexeme.run Lexeme.isBlank t.rest = Lexeme.run Lexeme.isBlank s.rest := by
    rw [h.rest, Lexeme.run_mendAll (by decide)]
  rw [Alike, tokens_blanks hcode, tokens_blanks (h.construct.trans hcode), hblanks]
  apply alike_start (h.advance _) hcode (Lexeme.run_drop_run Lexeme.isBlank s.rest)
  intro s' t' hlength
  apply ih s' t' (Nat.lt_of_lt_of_le hlength ?_)
  rw [length_advance]
  omega

theorem alike_open (h : Mended holes s t) (hopen : s.construct ≠ .code)
    (ih : ∀ s' t', s'.rest.length < s.rest.length → Mended holes s' t' → Alike holes s' t') :
    Alike holes s t := by
  cases hclose : s.construct.close? s.rest with
  | some n =>
    have hclose' : t.construct.close? t.rest = some n := by
      rw [h.construct, h.rest]
      exact Construct.close?_mendAll hclose
    rw [Alike, tokens_of_closed hclose, tokens_of_closed hclose']
    apply alike_code ((h.advance n).enter .code) rfl
    intro s' t' hlength
    apply ih s' t' (Nat.lt_of_lt_of_le hlength ?_)
    rw [length_advance]
    omega
  | none =>
    obtain ⟨n, strays, rest, hskip, hmore, hrun, hend, hshorter, htokens⟩ := h.goes_on hopen hclose
    have hmended := h.advance (n + strays.length)
    rw [Alike, htokens]
    by_cases hstrays : strays = []
    · subst hstrays
      have hnil : (s.advance n).rest = [] := by rw [hmore, hrun rfl]; rfl
      rw [tokens_of_end (by rw [hskip]; exact hnil), hskip, ← (skip_nil hnil).2,
        ← tokens_of_end (skip_nil hnil).1]
      exact alike_nil hmended hnil
    · rw [tokens_strays hskip hmore hstrays hend, advance_advance]
      exact ih _ _ (hshorter hstrays) hmended

theorem alike (h : Mended holes s t) : Alike holes s t := by
  induction hn : s.rest.length using Nat.strongRecOn generalizing s t with
  | ind n ih =>
    subst hn
    have hsmaller (s' t' : Scanner) (hlength : s'.rest.length < s.rest.length)
        (h' : Mended holes s' t') : Alike holes s' t' := ih _ hlength h' rfl
    by_cases hcode : s.construct = .code
    · exact alike_code h hcode hsmaller
    · exact alike_open h hcode hsmaller

end Scanner

/-- Replacing every stray byte by U+FFFD changes no token but errors and the string literals
that hold a replacement. -/
theorem tokenize_repair (source : List UInt8) :
    outlines isProper (tokenize source) =
      outlines (isIntact (Utf8.replaced source)) (tokenize (Utf8.repair source)) := by
  apply Scanner.alike
  exact ⟨Utf8.decode_repair source, rfl, rfl, rfl, fun o _ => Iff.rfl⟩

end LabelGraph
