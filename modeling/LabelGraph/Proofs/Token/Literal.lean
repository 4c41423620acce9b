import LabelGraph.Proofs.Token.Closing
import LabelGraph.Proofs.Token.Comment
import LabelGraph.Proofs.Token.Fence
import LabelGraph.Proofs.Token.Lines
import LabelGraph.Proofs.Token.Printing
import LabelGraph.Proofs.Token.Quote

/-!
Where a string closes, against the pattern of string literals. If a literal stands at the
quote, the string closes where the literal ends. If none does, it closes at the end of its
line, or with the valid text. Then no quote behind it ends it.
-/

namespace LabelGraph

open Atom Computability Lexeme Pattern Utf8

/-- The first `n` bytes of a text, with a quote in front of them, are a string literal. -/
def Literal (text : List Char) (n : Nat) : Prop :=
  ∃ body rest, splitAt? n text = some (body, rest) ∧ '"' :: body ∈ Kind.stringLiteral.pattern

/-- The token goes on in its line to the end of this line or of the valid text, and no string
literal stands where it starts. -/
structure Token.Unclosed (source : List UInt8) (t : Token) : Prop where
  spells : encode t.text.toList = slice source t.start t.stop
  inLine : '\n' ∉ t.text.toList
  ends : source[t.stop]? = some 0x0A ∨ Stray source t.stop ∨ t.stop = source.length
  quoted : ∀ text, text <+: t.text.toList → text ∉ Kind.stringLiteral.pattern

/-! The pattern. -/

theorem quotable_append {piece body : List Char} (hpiece : piece ∈ quotable)
    (hbody : body ∈ quotable∗) : piece ++ body ∈ quotable∗ :=
  Set.mem_of_mem_of_subset (Language.append_mem_mul hpiece hbody)
    (mul_kstar_le_kstar (a := quotable))

namespace Lexeme

/-- What is counted up to a closing quote is the body of a string literal. -/
theorem body_of_quotedAfter {count n : Nat} {atoms : List Atom}
    (h : quotedAfter count atoms = some n) :
    ∃ body more, atoms = body.map .char ++ .char '"' :: more ∧ body ∈ quotable∗ ∧
      n = count + body.length + 1 := by
  fun_induction quotedAfter count atoms with
  | case1 count more =>
    cases h
    exact ⟨[], more, rfl, Language.nil_mem_kstar _, rfl⟩
  | case2 => cases h
  | case3 => cases h
  | case4 count c rest hc ih =>
    obtain ⟨body, more, rfl, hbody, rfl⟩ := ih h
    have hpiece : ['\\', c] ∈ quotable :=
      .inr (mem_sign_mul.2 ⟨[c], ⟨c, bne_iff_ne.2 hc, rfl⟩, rfl⟩)
    refine ⟨'\\' :: c :: body, more, rfl, quotable_append hpiece hbody, ?_⟩
    simp only [List.length_cons]
    omega
  | case5 => cases h
  | case6 count c rest hquote hfeed _ hescape ih =>
    obtain ⟨body, more, rfl, hbody, rfl⟩ := ih h
    have hplain : (c != '"' && c != '\\' && c != '\n') = true := by
      simpa using ⟨⟨hquote, hescape⟩, hfeed⟩
    refine ⟨c :: body, more, rfl, quotable_append (.inl ⟨c, hplain, rfl⟩) hbody, ?_⟩
    rw [List.length_cons]
    omega
  | case7 => cases h
  | case8 => cases h

end Lexeme

/-! A string in a valid text. -/

section Text

variable {text : List Char} {n : Nat}

theorem literal_iff :
    Literal text n ↔
      ∃ k, quotedAfter 0 (text.map .char) = some k ∧ n = width (text.take k) := by
  constructor
  · rintro ⟨front, rest, hsplit, hliteral⟩
    obtain ⟨rfl, rfl⟩ := splitAt?_eq_some_iff.1 hsplit
    obtain ⟨body, hbody, heq⟩ := mem_stringLiteral.1 hliteral
    obtain rfl := (List.cons.inj heq).2
    refine ⟨(body ++ ['"']).length, ?_, by rw [List.take_left]⟩
    rw [List.map_append, List.map_append, List.append_assoc]
    refine (quotedAfter_body hbody 0 (rest.map .char)).trans ?_
    rw [List.length_append, List.length_singleton, Nat.zero_add]
  · rintro ⟨k, hquoted, rfl⟩
    obtain ⟨body, more, hatoms, hbody, rfl⟩ := body_of_quotedAfter hquoted
    obtain ⟨front, behind, rfl, hfront, hbehind⟩ := List.map_eq_append_iff.1 hatoms
    obtain ⟨c, rest, rfl, hc, -⟩ := List.map_eq_cons_iff.1 hbehind
    obtain rfl := Atom.char.inj hc
    obtain rfl := (List.map_inj_right fun _ _ => Atom.char.inj).1 hfront
    have hlength : 0 + front.length + 1 = (front ++ ['"']).length := by
      rw [List.length_append, List.length_singleton, Nat.zero_add]
    rw [List.append_cons, hlength, List.take_left]
    exact ⟨front ++ ['"'], rest, splitAt?_width _ _, mem_stringLiteral.2 ⟨front, hbody, rfl⟩⟩

/-- A string closes where a literal ends. -/
theorem Literal.closes (h : Literal text n) : Construct.string.closeOffset? text = some n := by
  obtain ⟨k, hquoted, rfl⟩ := literal_iff.1 h
  have hclose : Construct.string.close? (text.map .char) = some k :=
    Construct.closeStringAfter_of_quotedAfter hquoted
  rw [Construct.closeOffset?_eq, hclose]
  rfl

theorem quoted_of_not_literal (h : ∀ n, ¬ Literal text n) :
    quotedAfter 0 (text.map .char) = none :=
  Option.eq_none_iff_forall_ne_some.2 fun k hk => h _ (literal_iff.2 ⟨k, hk, rfl⟩)

theorem feed_mem_encode : 0x0A ∈ encode text ↔ '\n' ∈ text := by
  constructor
  · intro h
    obtain ⟨c, hc, hbyte⟩ := List.mem_flatMap.1 h
    rwa [← (char_of_feed hbyte).1]
  · intro h
    exact List.mem_flatMap.2 ⟨'\n', h, List.mem_singleton_self _⟩

theorem idxOf?_encode {front : List Char} (h : '\n' ∉ front) (back : List Char) :
    (encode (front ++ '\n' :: back)).idxOf? 0x0A = some (width front) := by
  have hencode : encode (front ++ '\n' :: back) = encode front ++ 0x0A :: encode back :=
    List.flatMap_append
  have hnone : (encode front).findIdx? (· == 0x0A) = none :=
    List.idxOf?_eq_none_iff.2 (mt feed_mem_encode.1 h)
  rw [hencode, List.idxOf?, List.findIdx?_append, hnone, Option.none_or, List.findIdx?_cons,
    width_encode]
  exact congrArg some (Nat.zero_add _)

/-- A string that no literal closes ends with its line, if it has an end in the text. -/
theorem closeOffset?_of_quoted (h : quotedAfter 0 (text.map .char) = none) :
    Construct.string.closeOffset? text = (encode text).idxOf? 0x0A := by
  rw [Construct.closeOffset?_eq]
  cases hclose : Construct.string.close? (text.map .char) with
  | some n =>
    have hend := Construct.closeStringAfter_cases hclose
    rw [h, Nat.zero_add] at hend
    obtain ⟨rfl, more, hfeed⟩ := hend.resolve_left (Option.some_ne_none n).symm
    have hline := inLine_run (p := (· != '\n')) rfl (text.map .char)
    generalize run (· != '\n') (text.map .char) = k at hfeed hline
    rw [← List.map_drop] at hfeed
    rw [← List.map_take] at hline
    obtain ⟨c, rest, hdrop, hc, -⟩ := List.map_eq_cons_iff.1 hfeed
    obtain rfl := Atom.char.inj hc
    have hnone : '\n' ∉ text.take k := fun hmem => hline.feed_not_mem (List.mem_map_of_mem hmem)
    have hindex := idxOf?_encode hnone rest
    rw [← hdrop, List.take_append_drop] at hindex
    rw [hindex]
    rfl
  | none =>
    have hline := Construct.inLine_of_openString hclose
    have hvalid : Scanner.validRun (text.map .char) = (text.map Atom.char).length := by
      rw [List.length_map, ← Scanner.validRun_fence fenced_nil text, List.append_nil]
    rw [hvalid, List.take_length] at hline
    refine (List.idxOf?_eq_none_iff.2 fun hmem => ?_).symm
    exact hline.feed_not_mem (List.mem_map_of_mem (feed_mem_encode.1 hmem))

end Text

/-! An error at a quote. -/

namespace Scanner

variable {s : Scanner} {rest : List Atom}

theorem cutToken_stray_text {b : UInt8} (hs : s.rest = .stray b :: rest) :
    s.cutToken.1.text = "" := by
  obtain ⟨lexeme, hcuts⟩ := cuts_of_stray hs
  rcases hcuts.cut.spells hcuts.taken with ⟨hstray, -⟩ | ⟨-, hchars, -⟩
  · exact hstray.2
  · have hrest := hcuts.passed.rest
    cases lexeme with
    | nil => exact absurd rfl hcuts.taken
    | cons a lexeme =>
      obtain rfl := (List.cons.inj (hs.symm.trans hrest)).1
      cases hchars _ List.mem_cons_self

/-- Only where no literal ends does a quote start an error. -/
theorem cutToken_error (h : s.cutToken.1.kind = .error)
    (hquote : s.cutToken.1.text.toList.head? = some '"') :
    ∃ rest, s.rest = .char '"' :: rest ∧ quotedAfter 0 rest = none ∧
      s.cutToken = s.cutOpenString rest := by
  cases hs : s.rest with
  | nil => simp [cutToken_end hs] at h
  | cons a rest =>
    cases a with
    | stray b =>
      rw [cutToken_stray_text hs] at hquote
      cases hquote
    | char c =>
      cases hlongest : longest? c rest with
      | some found =>
        rw [cutToken_lexeme hs hlongest] at h
        exact absurd h (longest?_kind hlongest).1
      | none =>
        by_cases hc : c = '"'
        · subst hc
          have hquoted : quotedAfter 0 rest = none := Option.map_eq_none_iff.1 hlongest
          exact ⟨rest, rfl, hquoted, cutToken_open hs hlongest⟩
        · rw [cutToken_unknown hs hlongest hc, text_cut hs] at hquote
          exact absurd (Option.some.inj hquote) hc

/-- Behind an error at a quote the line ends, or the valid text. -/
theorem cutOpenString_rest (hs : s.rest = .char '"' :: rest) (h : quotedAfter 0 rest = none) :
    (s.cutOpenString rest).2.rest = [] ∨ (s.cutOpenString rest).2.StrayAhead ∨
      ∃ more, (s.cutOpenString rest).2.rest = .char '\n' :: more := by
  have htail (n : Nat) : (s.cut .error (1 + n)).2.rest = rest.drop n := by
    rw [cut, advance, hs, Nat.add_comm, List.drop_succ_cons]
  cases hclose : Construct.string.close? rest with
  | some n =>
    have hend := Construct.closeStringAfter_cases hclose
    rw [h, Nat.zero_add] at hend
    obtain ⟨rfl, more, hfeed⟩ := hend.resolve_left (Option.some_ne_none n).symm
    simp only [cutOpenString, hclose, htail]
    exact .inr (.inr ⟨more, hfeed⟩)
  | none =>
    simp only [cutOpenString, hclose]
    have hbehind := htail (validRun rest)
    split
    · next b more hstray => exact .inr (.inl ⟨b, more, hstray⟩)
    · next hnot =>
      cases hdrop : rest.drop (validRun rest) with
      | nil => exact .inl (hbehind.trans hdrop)
      | cons a more =>
        cases a with
        | stray b => exact absurd (hbehind.trans hdrop) (hnot b more)
        | char c => exact absurd (stop_of_run hdrop) Bool.noConfusion

variable {source : List UInt8}

/-- The byte at which a scanner stands. -/
theorem Ahead.byte (h : (ofBytes source).Ahead s)
    (hrest : s.rest = [] ∨ s.StrayAhead ∨ ∃ more, s.rest = .char '\n' :: more) :
    source[s.cursor.offset]? = some 0x0A ∨ Stray source s.cursor.offset ∨
      s.cursor.offset = source.length := by
  obtain ⟨front, hdecode, hcursor⟩ := h.split
  have hoffset : s.cursor.offset = extent front := by rw [hcursor, Position.start_advance]
  have hplace {p : Atom → Bool} {a : Atom} {more : List Atom} (hrest : s.rest = a :: more)
      (ha : p a) : s.cursor.offset ∈ places p 0 (Utf8.decode source) := by
    rw [hdecode, hrest]
    exact mem_places_iff.2 ⟨front, a, more, rfl, ha, hoffset.trans (Nat.zero_add _).symm⟩
  rcases hrest with hnil | ⟨b, more, hstray⟩ | ⟨more, hfeed⟩
  · rw [hnil, List.append_nil] at hdecode
    refine .inr (.inr ?_)
    rw [hoffset, ← hdecode, ← bytesOf_length, bytesOf_decode]
  · exact .inr (.inl (stray_iff.2 (hplace hstray rfl)))
  · exact .inl (feed_iff.2 (hplace hfeed rfl))

/-- An error at a quote ends with its line or with the valid text, and at no other quote. -/
theorem next_unclosed (hs : (ofBytes source).Ahead s) (h : s.next.1.kind = .error)
    (hquote : s.next.1.text.toList.head? = some '"') : s.next.1.Unclosed source := by
  obtain ⟨rest, hrest, hquoted, hcut⟩ := cutToken_error h hquote
  obtain ⟨lexeme, hcuts⟩ := next_cuts (s := s) (by rw [h]; decide)
  have hslice := hcuts.passed.slice_eq (hs.trans (skip_ahead s))
  have hpassed := hcuts.passed.rest
  have hstart : s.next.1.start = s.skip.cursor.offset := congrArg (·.start.offset) hcuts.span
  have hstop : s.next.1.stop = s.next.2.cursor.offset := congrArg (·.stop.offset) hcuts.span
  cases hcuts.cut with
  | stray _ hnone _ _ =>
    rw [hnone] at hquote
    cases hquote
  | feed hkind _ _ => cases h.symm.trans hkind
  | line _ hcutText hline =>
    obtain ⟨text, rfl⟩ : lexeme ∈ Set.range (List.map Atom.char) := by
      rw [Set.range_list_map]
      exact fun a ha => (hline.chars a ha).imp fun _ => Eq.symm
    have htext : s.next.1.text.toList = text := by
      simp [hcutText]
    refine { spells := ?_, inLine := ?_, ends := ?_, quoted := ?_ }
    · have hspells := encode_textOf hline.chars
      rw [textOf_chars, String.toList_ofList] at hspells
      rw [hstart, hstop, hslice, htext, hspells]
    · rw [htext]
      exact fun hfeed => hline.feed_not_mem (List.mem_map_of_mem hfeed)
    · rw [hstop]
      refine (hs.trans (next_ahead s)).byte ?_
      rw [next, hcut]
      exact cutOpenString_rest hrest hquoted
    · rw [htext]
      rintro literal ⟨more, rfl⟩ hliteral
      obtain ⟨body, hbody, rfl⟩ := mem_stringLiteral.1 hliteral
      -- The literal would be what is counted behind the quote.
      have hbehind : rest = body.map .char ++ .char '"' :: (more.map .char ++ s.next.2.rest) := by
        rw [hrest] at hpassed
        have htail := (List.cons.inj hpassed).2
        simpa using htail
      have hclosed := quotedAfter_body hbody 0 (more.map .char ++ s.next.2.rest)
      rw [← hbehind, hquoted] at hclosed
      cases hclosed

end Scanner

/-- Strings close by the pattern of string literals. If the first bytes of a text are a literal,
with a quote in front of them, this is the only one, and an open string closes where it ends. If
there is none, the string closes at the first line feed, and stays open without one. The scanner
counts the same by characters. So an error at a quote goes on to the end of its line or of the
valid text, and no literal stands there. -/
theorem string_closes (source : List UInt8) (text : List Char) :
    (∀ n, Literal text n →
      Construct.string.closeOffset? text = some n ∧ ∀ m, Literal text m → m = n) ∧
    ((∀ n, ¬ Literal text n) →
      Construct.string.closeOffset? text = (encode text).idxOf? 0x0A) ∧
    Construct.string.closeOffset? text =
      (Construct.string.close? (text.map .char)).map (fun n => width (text.take n)) ∧
    ∀ t ∈ tokenize source, t.kind = .error → t.text.toList.head? = some '"' →
      t.Unclosed source := by
  refine ⟨fun n h => ⟨h.closes, fun m h' => ?_⟩, fun h => ?_, ?_, fun t ht hkind hquote => ?_⟩
  · exact Option.some.inj (h'.closes.symm.trans h.closes)
  · exact closeOffset?_of_quoted (quoted_of_not_literal h)
  · exact Construct.closeOffset?_eq .string text
  · obtain ⟨n, hn⟩ := List.mem_iff_getElem?.1 ht
    have hnext := next_of_token hn
    rw [← hnext] at hkind hquote ⊢
    exact Scanner.next_unclosed (Scanner.afterCalls_ahead _ n) hkind hquote

/-- A literal with an escaped quote in it, and a line that ends behind such a quote. -/
theorem string_closes_escaped :
    let text := ['\\', 'é', '\\', '"', '"', ';', '"']
    let line := ['\\', 'é', '\\', '"', '\n', '"']
    Literal text 6 ∧ Construct.string.closeOffset? text = some 6 ∧
    (∀ n, ¬ Literal line n) ∧ Construct.string.closeOffset? line = (encode line).idxOf? 0x0A ∧
    ∃ t ∈ tokenize (encode ('"' :: line)), t.kind = .error ∧ t.text.toList.head? = some '"' ∧
      t.Unclosed (encode ('"' :: line)) := by
  intro text line
  have hliteral : Literal text 6 := literal_iff.2 ⟨5, rfl, rfl⟩
  have hnone : ∀ n, ¬ Literal line n := by
    intro n h
    obtain ⟨k, hquoted, -⟩ := literal_iff.1 h
    cases hquoted
  obtain ⟨hcloses, -⟩ := string_closes [] text
  obtain ⟨-, hfeed, -, herrors⟩ := string_closes (encode ('"' :: line)) line
  let t : Token := ⟨.error, "\"\\é\\\"", ⟨⟨1, 1, 0⟩, ⟨1, 6, 6⟩⟩, []⟩
  have ht : t ∈ tokenize (encode ('"' :: line)) := by decide +kernel
  have hquote : t.text.toList.head? = some '"' := by decide +kernel
  exact ⟨hliteral, (hcloses 6 hliteral).1, hnone, hfeed hnone, t, ht, rfl, hquote,
    herrors t ht rfl hquote⟩

end LabelGraph
