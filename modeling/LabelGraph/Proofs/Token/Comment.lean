import LabelGraph.Proofs.Token.Tiling
import LabelGraph.Proofs.Token.Transparency

/-!
Stray bytes inside comments. Each run of them is an error token between the tokens of the
repaired text, and behind it there is nothing but other such runs before the line ends. All
other tokens are those of the repaired text.
-/

namespace LabelGraph

open Atom Token

/-- A byte of a comment: no token stands between a sign that starts a comment and the byte. -/
def InComment (source : List UInt8) (offset : Nat) : Prop :=
  ∃ sign ≤ offset, source[sign]? ∈ [some 0x3B, some 0x23] ∧
    ∀ t ∈ tokenize source, t.stop ≤ sign ∨ offset < t.start

instance (source : List UInt8) (offset : Nat) : Decidable (InComment source offset) :=
  inferInstanceAs (Decidable (∃ sign ≤ offset, _ ∧ _))

/-- The first tokens are the second ones, with errors strewn in where lines end. -/
inductive Strewn : List Token → List Token → Prop
  | nil : Strewn [] []
  | keep {t u : Token} {tokens tokens' : List Token} (h : u.outline = t.outline)
    (hrest : Strewn tokens tokens') : Strewn (t :: tokens) (u :: tokens')
  | stray {e u : Token} {tokens tokens' : List Token} (he : e.kind = .error)
    (hend : u.kind = .newline ∨ u.kind = .eof) (hrest : Strewn tokens (u :: tokens')) :
    Strewn (e :: tokens) (u :: tokens')

def Unbroken (holes : List Nat) (tokens : List Token) : Prop :=
  ∀ t ∈ tokens, t.kind ≠ .corrupt ∧ holes.any t.covers = false

theorem Unbroken.tail {holes : List Nat} {t : Token} {tokens : List Token}
    (h : Unbroken holes (t :: tokens)) : Unbroken holes tokens :=
  fun u hu => h u (List.mem_cons_of_mem t hu)

namespace Scanner

variable {holes : List Nat} {s t : Scanner}

/-- Outside strings, the tokens from here are those of the repaired text with errors strewn in. -/
def Follows (holes : List Nat) (s t : Scanner) : Prop :=
  s.construct ≠ .string → Unbroken holes t.tokens → Strewn s.tokens t.tokens

/-- A token of the repaired text that stands over no hole takes no stray byte. -/
theorem Mended.valid_of_unbroken (h : Mended holes s t) {kind : Kind} {n : Nat}
    {tokens : List Token} (hclean : Unbroken holes ((t.cut kind n).1 :: tokens)) (b : UInt8) :
    stray b ∉ s.rest.take n := fun hb => by
  have hcovers := (h.covers_iff kind n).2 ⟨b, hb⟩
  rw [(hclean _ (List.mem_cons_self ..)).2] at hcovers
  cases hcovers

/-- Both texts give a token of the same length. -/
theorem strewn_cut (h : Mended holes s t) {kind : Kind} {n : Nat} (hcode : s.construct = .code)
    (htokens : s.tokens = (s.cut kind n).1 :: (s.advance n).tokens)
    (htokens' : t.tokens = (t.cut kind n).1 :: (t.advance n).tokens)
    (hclean : Unbroken holes t.tokens) (ih : Follows holes (s.advance n) (t.advance n)) :
    Strewn s.tokens t.tokens := by
  rw [htokens'] at hclean ⊢
  rw [htokens]
  exact .keep (h.outline_cut kind (h.valid_of_unbroken hclean))
    (ih (hcode ▸ Construct.noConfusion) hclean.tail)

theorem strewn_nil (h : Mended holes s t) (hnil : s.rest = []) : Strewn s.tokens t.tokens := by
  have hnil' : t.rest = [] := by rw [h.rest, hnil]; rfl
  have hs := skip_nil hnil
  have ht := skip_nil hnil'
  rw [tokens_of_end hs.1, tokens_of_end ht.1, hs.2, ht.2]
  refine .keep ?_ .nil
  simp only [outline, Span.point, h.line, h.column]

/-! String literals. -/

/-- An open string that no stray byte ends. -/
theorem cutOpenString_cut {rest : List Atom} (hrest : s.rest = .char '"' :: rest)
    (hend : Construct.string.close? rest = none → validRun rest = rest.length) :
    s.cutOpenString rest = s.cut .error (1 + (Construct.string.close? rest).getD rest.length) := by
  cases hclose : Construct.string.close? rest with
  | some n => simp only [cutOpenString, hclose, Option.getD_some]
  | none =>
    have hnil : (s.advance (1 + rest.length)).rest = [] := by
      simp [Scanner.advance, hrest, Nat.add_comm]
    simp only [cutOpenString, hclose, hend hclose, cut, hnil, Option.getD_none]

/-- An open string is an error of the same length as in the repaired text, or a stray byte would
be in that one. -/
theorem cutOpenString_cases {rest : List Atom} (hrest : s.rest = .char '"' :: rest) {n : Nat}
    (hn : n = (Construct.string.close? (mendAll rest)).getD rest.length) :
    s.cutOpenString rest = s.cut .error (1 + n) ∨ ∃ b, stray b ∈ rest.take n := by
  cases hclose : Construct.string.close? rest with
  | some m =>
    rw [Construct.close?_mendAll hclose, Option.getD_some] at hn
    rw [cutOpenString_cut hrest (by simp [hclose]), hclose, hn]
    exact .inl rfl
  | none =>
    obtain ⟨valid, strays, more, heq, hrun, -⟩ := split_strays rest
    cases strays with
    | nil =>
      obtain rfl := hrun rfl
      have hvalid : mendAll rest = rest := mendAll_of_valid (by simp [heq])
      have hlength : validRun rest = rest.length := by rw [← validRun_mendAll rest, hvalid]
      rw [hvalid] at hn
      rw [cutOpenString_cut hrest fun _ => hlength, ← hn]
      exact .inl rfl
    | cons b strays =>
      have hresume := Construct.close?_resume hrun valid (heq ▸ hclose)
      rw [← heq] at hresume
      have hlt : valid.length < n := by
        rw [hn, hresume]
        cases Construct.string.close? (mendAll more) with
        | some m =>
          simp only [Option.map_some, Option.getD_some, List.length_cons]
          omega
        | none => simp [heq]
      refine .inr ⟨b, List.mem_iff_getElem?.2 ⟨valid.length, ?_⟩⟩
      rw [List.getElem?_take, if_pos hlt, heq]
      simp

theorem strewn_string {rest : List Atom} (h : Mended holes s t)
    (hcode : s.construct = .code) (hrest : s.rest = .char '"' :: rest)
    (hclean : Unbroken holes t.tokens)
    (ih : ∀ n, 0 < n → Follows holes (s.advance n) (t.advance n)) : Strewn s.tokens t.tokens := by
  have hrest' : t.rest = .char '"' :: mendAll rest := by rw [h.rest, hrest]; rfl
  have hskip : s.skip = s := by rw [skip_code hcode, skipTrivia_token hrest] <;> rfl
  have hskip' : t.skip = t := by
    rw [skip_code (h.construct.trans hcode), skipTrivia_token hrest'] <;> rfl
  have hcut := cutToken_quote hrest
  have hcut' := cutToken_quote hrest'
  have hstep {kind : Kind} {n : Nat} (hkind : kind ≠ .eof)
      (hlength' : t.cutToken = t.cut kind (1 + n))
      (hlength : s.cutToken = s.cut kind (1 + n) ∨ ∃ b, stray b ∈ rest.take n) :
      Strewn s.tokens t.tokens := by
    have htokens' : t.tokens = (t.cut kind (1 + n)).1 :: (t.advance (1 + n)).tokens :=
      tokens_of_cut hskip' hlength' hkind
    rcases hlength with hlength | ⟨b, hb⟩
    · have htokens : s.tokens = (s.cut kind (1 + n)).1 :: (s.advance (1 + n)).tokens :=
        tokens_of_cut hskip hlength hkind
      exact strewn_cut h hcode htokens htokens' hclean (ih _ (by omega))
    · rw [htokens'] at hclean
      refine absurd ?_ (h.valid_of_unbroken hclean b)
      rw [hrest, Nat.add_comm]
      exact List.mem_cons_of_mem _ hb
  cases hquoted : Lexeme.quoted? rest with
  | some n =>
    rw [hquoted] at hcut
    rw [Lexeme.quoted?, Lexeme.quotedAfter_mendAll hquoted] at hcut'
    exact hstep Kind.noConfusion hcut' (.inl hcut)
  | none =>
    rw [hquoted] at hcut
    cases hquoted' : Lexeme.quoted? (mendAll rest) with
    | some n =>
      -- The literal is complete only because its stray bytes are characters now.
      rw [hquoted'] at hcut'
      refine hstep Kind.noConfusion hcut' (.inr ?_)
      refine (Lexeme.stray_of_quotedAfter_mendAll hquoted').resolve_left fun hsome => ?_
      rw [Lexeme.quoted?, hsome] at hquoted
      cases hquoted
    | none =>
      have hlength : (mendAll rest).length = rest.length := List.length_map _
      have hend : validRun (mendAll rest) = (mendAll rest).length := by
        rw [validRun_mendAll, hlength]
      rw [hquoted', cutOpenString_cut hrest' fun _ => hend, hlength] at hcut'
      rw [hcut] at hstep
      exact hstep Kind.noConfusion hcut' (cutOpenString_cases hrest rfl)

/-! Comments. -/

/-- A comment in the repaired text goes up to the end of the line, or to a NUL. -/
theorem head_of_comment {atoms : List Atom} (hcomment : t.construct = .comment)
    (hrest : t.rest = mendAll atoms) :
    ∃ u more, t.tokens = u :: more ∧ u.kind ∈ [.newline, .corrupt, .eof] := by
  cases hclose : t.construct.close? t.rest with
  | some n =>
    have hstop : ∃ c more, t.rest.drop n = .char c :: more ∧ (c = '\n' ∨ c = '\x00') := by
      rw [hcomment, Construct.close?] at hclose
      split at hclose
      · next c more hdrop =>
        cases hclose
        exact ⟨c, more, hdrop, Lexeme.stop_cases (Lexeme.stop_of_run hdrop)⟩
      · cases hclose
    obtain ⟨c, more, hdrop, hc⟩ := hstop
    have htoken : ∃ kind, kind ≠ .eof ∧ kind ∈ [.newline, .corrupt, .eof] ∧
        Lexeme.longest? c more = some (kind, 1) := by
      rcases hc with rfl | rfl
      · exact ⟨.newline, by decide, by decide, rfl⟩
      · exact ⟨.corrupt, by decide, by decide, rfl⟩
    obtain ⟨kind, hmore, hkind, hlongest⟩ := htoken
    have hskip : Scanner.skip { t.advance n with construct := .code } =
        { t.advance n with construct := .code } := by
      rw [skip_code rfl, skipTrivia_token hdrop] <;> rcases hc with rfl | rfl <;> rfl
    rw [tokens_of_closed hclose]
    exact ⟨_, _, tokens_of_cut hskip (cutToken_lexeme hdrop hlongest) hmore, hkind⟩
  | none =>
    have hend : t.skip.rest = [] := by
      rw [skip_open (by simp [hcomment]) hclose, hrest, validRun_mendAll, Scanner.advance, hrest]
      simp [mendAll]
    exact ⟨_, [], tokens_of_end hend, by simp⟩

/-- Inside a comment. A run of stray bytes is an error, and the comment goes on behind it. -/
theorem strewn_comment (h : Mended holes s t) (hcomment : s.construct = .comment)
    (hclean : Unbroken holes t.tokens)
    (hcode : ∀ n, Follows holes { s.advance n with construct := .code }
      { t.advance n with construct := .code })
    (ih : ∀ n, (s.advance n).rest.length < s.rest.length →
      Follows holes (s.advance n) (t.advance n)) : Strewn s.tokens t.tokens := by
  have hcomment' : t.construct = .comment := h.construct.trans hcomment
  have hopen : s.construct ≠ .code := hcomment ▸ Construct.noConfusion
  cases hclose : s.construct.close? s.rest with
  | some n =>
    have hclose' : t.construct.close? t.rest = some n := by
      rw [h.construct, h.rest]
      exact Construct.close?_mendAll hclose
    rw [tokens_of_closed hclose'] at hclean ⊢
    rw [tokens_of_closed hclose]
    exact hcode n Construct.noConfusion hclean
  | none =>
    obtain ⟨n, strays, rest, hskip, hmore, hrun, hend, hshorter, htokens⟩ := h.goes_on hopen hclose
    by_cases hstrays : strays = []
    · subst hstrays
      have hnil : (s.advance n).rest = [] := by rw [hmore, hrun rfl]; rfl
      rw [htokens, tokens_of_end (by rw [hskip]; exact hnil), hskip, ← (skip_nil hnil).2,
        ← tokens_of_end (skip_nil hnil).1]
      exact strewn_nil (h.advance n) hnil
    · have hfollows := ih _ (hshorter hstrays) (hcomment ▸ Construct.noConfusion) (htokens ▸ hclean)
      obtain ⟨u, tokens, hhead, hkind⟩ := head_of_comment hcomment' h.rest
      have hline : u.kind = .newline ∨ u.kind = .eof := by
        have hcorrupt := (hclean u (hhead ▸ List.mem_cons_self ..)).1
        simpa [hcorrupt] using hkind
      rw [tokens_of_cut hskip (cutToken_strays hmore hstrays hend) Kind.noConfusion, hhead]
      refine .stray rfl hline ?_
      rw [← advance_advance s] at hfollows
      rw [← hhead, htokens]
      exact hfollows

/-! The simulation. -/

/-- Code where no blank stands ahead. -/
theorem strewn_start (h : Mended holes s t) (hcode : s.construct = .code)
    (hblanks : Lexeme.run Lexeme.isBlank s.rest = 0) (hclean : Unbroken holes t.tokens)
    (ih : ∀ s' t', s'.rest.length < s.rest.length → Mended holes s' t' → Follows holes s' t') :
    Strewn s.tokens t.tokens := by
  have hcode' : t.construct = .code := h.construct.trans hcode
  cases hrest : s.rest with
  | nil => exact strewn_nil h hrest
  | cons a rest =>
    have hnext (n : Nat) (hn : 0 < n) : (s.advance n).rest.length < s.rest.length := by
      simp [hrest]
      omega
    have hcuts (n : Nat) (hn : 0 < n) : Follows holes (s.advance n) (t.advance n) :=
      ih _ _ (hnext n hn) (h.advance n)
    cases a with
    | stray b =>
      -- The replacement would be an error.
      have hrest' : t.rest = .char '\uFFFD' :: mendAll rest := by rw [h.rest, hrest]; rfl
      rw [tokens_at_replacement hcode' hrest'] at hclean
      exact absurd (hrest ▸ List.mem_cons_self ..) (h.valid_of_unbroken hclean b)
    | char c =>
      have hblank : Lexeme.isBlank c = false := Lexeme.stop_of_run (by rw [hblanks]; exact hrest)
      cases hcomment : Lexeme.startsComment c with
      | true =>
        have hrest' : t.rest = .char c :: mendAll rest := by rw [h.rest, hrest]; rfl
        rw [tokens_comment hcode' hrest' hcomment] at hclean ⊢
        rw [tokens_comment hcode hrest hcomment]
        exact ih _ _ (hnext 1 Nat.one_pos) ((h.advance 1).enter .comment) Construct.noConfusion
          hclean
      | false =>
        by_cases hquote : c = '"'
        · subst hquote
          exact strewn_string h hcode hrest hclean hcuts
        · obtain ⟨kind, n, hpos, -, -, htokens, htokens'⟩ :=
            h.cuts_lexeme hcode hrest hblank hcomment hquote
          exact strewn_cut h hcode htokens htokens' hclean (hcuts n hpos)

theorem strewn_code (h : Mended holes s t) (hcode : s.construct = .code)
    (hclean : Unbroken holes t.tokens)
    (ih : ∀ s' t', s'.rest.length < s.rest.length → Mended holes s' t' → Follows holes s' t') :
    Strewn s.tokens t.tokens := by
  have hblanks : Lexeme.run Lexeme.isBlank t.rest = Lexeme.run Lexeme.isBlank s.rest := by
    rw [h.rest, Lexeme.run_mendAll (by decide)]
  rw [tokens_blanks (h.construct.trans hcode), hblanks] at hclean ⊢
  rw [tokens_blanks hcode]
  apply strewn_start (h.advance _) hcode (Lexeme.run_drop_run Lexeme.isBlank s.rest) hclean
  intro s' t' hlength
  apply ih s' t' (Nat.lt_of_lt_of_le hlength ?_)
  rw [length_advance]
  omega

theorem follows (h : Mended holes s t) : Follows holes s t := by
  induction hn : s.rest.length using Nat.strongRecOn generalizing s t with
  | ind n ih =>
    subst hn
    intro hstring hclean
    cases hcode : s.construct with
    | code => exact strewn_code h hcode hclean fun s' t' hlength h' => ih _ hlength h' rfl
    | string => exact absurd hcode hstring
    | comment =>
      refine strewn_comment h hcode hclean (fun n _ hclean' => ?_)
        fun n hlength => ih _ hlength (h.advance n) rfl
      apply strewn_code ((h.advance n).enter .code) rfl hclean'
      intro s' t' hlength h'
      refine ih _ (Nat.lt_of_lt_of_le hlength ?_) h' rfl
      rw [length_advance]
      omega

end Scanner

/-- If all stray bytes are in comments, the tokens of a text are those of the repaired text and
errors in front of the ends of lines. -/
theorem tokenize_strewn {source : List UInt8}
    (hcomments : ∀ o ∈ Utf8.replaced source, InComment (Utf8.repair source) o)
    (hcorrupt : ∀ t ∈ tokenize (Utf8.repair source), t.kind ≠ .corrupt) :
    Strewn (tokenize source) (tokenize (Utf8.repair source)) := by
  have hmended : Scanner.Mended (Utf8.replaced source) (Scanner.ofBytes source)
      (Scanner.ofBytes (Utf8.repair source)) :=
    ⟨Utf8.decode_repair source, rfl, rfl, rfl, fun o _ => Iff.rfl⟩
  refine Scanner.follows hmended Construct.noConfusion fun t ht => ⟨hcorrupt t ht, ?_⟩
  rw [List.any_eq_false]
  intro o ho hcovers
  obtain ⟨sign, hle, -, hapart⟩ := hcomments o ho
  have hin : t.start ≤ o ∧ o < t.stop := by
    simpa [Token.covers, Token.start, Token.stop] using hcovers
  have := hapart t ht
  omega

end LabelGraph
