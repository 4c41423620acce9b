import LabelGraph.Proofs.Token.Place
import LabelGraph.Proofs.Token.Printing
import LabelGraph.Proofs.Token.Reader
import LabelGraph.Proofs.Token.Transparency

/-!
A reader answers as the scanner, whatever the bytes are. So none of its tests ever fails: no
offset is smaller than the one it is counted from, and every piece of text that is taken lies
in the text and between characters.
-/

namespace LabelGraph

open Atom Lexeme Utf8

namespace ChunkReader

variable {reach : List Char → Nat} {r : ChunkReader} {l : Lexer} {chunks : List Chunk} {s : Scanner}

/-- What stands behind the text of a lexer. -/
def fence (invalid : List UInt8) (chunks : List Chunk) : List Atom :=
  invalid.map .stray ++ chunks.flatMap Chunk.atoms

theorem fenced_of_last {invalid : List UInt8} (h : invalid = [] → chunks = []) :
    Fenced (fence invalid chunks) := by
  unfold fence
  cases invalid with
  | nil =>
    rw [h rfl]
    exact fenced_nil
  | cons b invalid => exact fenced_cons b _

theorem fence_eq_nil_iff {invalid : List UInt8} (h : invalid = [] → chunks = []) :
    fence invalid chunks = [] ↔ invalid = [] := by
  unfold fence
  cases invalid with
  | nil =>
    rw [h rfl]
    exact iff_of_true rfl rfl
  | cons b invalid => exact iff_of_false (List.cons_ne_nil _ _) (List.cons_ne_nil _ _)

/-- The lexer and the scanner stand at the same place of a chunk. -/
structure Inside (r : ChunkReader) (l : Lexer) (chunks : List Chunk) (s : Scanner) : Prop where
  lexer : r.lexer = some l
  cursor : r.cursor = s.cursor
  carry : r.carry = s.construct
  rest : s.rest = l.ahead.map .char ++ fence r.invalid chunks
  text : ∃ front, l.text = front ++ l.ahead ∧ l.stop = width front
  offset : r.cursor.offset = r.base + l.stop
  last : r.invalid = [] → chunks = []
  chain : chunks.IsChain fun c _ => c.invalid ≠ []
  opened : s.construct ≠ .code → l.ahead = []

/-- The text of a chunk is read, and the scanner stands behind it. -/
structure Behind (r : ChunkReader) (chunks : List Chunk) (s : Scanner) : Prop where
  lexer : r.lexer = none
  cursor : r.cursor = s.cursor
  carry : r.carry = s.construct
  rest : s.rest = fence r.invalid chunks
  chain : chunks.IsChain fun c _ => c.invalid ≠ []

/-- Where a reader stands between two calls. -/
def Reads (r : ChunkReader) (chunks : List Chunk) (s : Scanner) : Prop :=
  (∃ l, Inside r l chunks s) ∨ Behind r chunks s ∧ r.invalid = []

theorem textOf_bytes (text : List Char) : (text.map Atom.char).filterMap Atom.byte? = [] := by
  rw [List.filterMap_eq_nil_iff]
  rintro a ha
  obtain ⟨c, -, rfl⟩ := List.mem_map.1 ha
  rfl

/-- The reader takes a token as the scanner cuts it off. -/
theorem Inside.cut (h : Inside r l chunks s) {skipped lexeme ahead : List Char}
    (hahead : l.ahead = skipped ++ (lexeme ++ ahead)) (kind : Kind) {carry : Construct}
    (hopened : carry ≠ .code → ahead = []) :
    let l' : Lexer := { l with ahead, stop := l.stop + width skipped + width lexeme }
    let cut := (s.advance skipped.length).cut kind lexeme.length
    ∃ r', lexed? { r with lexer := some l', carry } kind l.text (l.stop + width skipped)
        (l.stop + width skipped + width lexeme) = some (cut.1, r') ∧
      Inside r' l' chunks { cut.2 with construct := carry } := by
  intro l' cut
  obtain ⟨front, htext, hstop⟩ := h.text
  let first := r.cursor.advance (skipped.map .char)
  let last := first.advance (lexeme.map .char)
  have hrest : s.rest = skipped.map .char ++ (lexeme.map .char ++
      (ahead.map .char ++ fence r.invalid chunks)) := by
    rw [h.rest, hahead]
    simp only [List.map_append, List.append_assoc]
  have hcut : cut = ({ kind, text := String.ofList lexeme, span := ⟨first, last⟩ },
      { s with rest := ahead.map .char ++ fence r.invalid chunks, cursor := last }) := by
    simp only [cut, first, last, h.cursor, Scanner.advance_over hrest (List.length_map _)]
    rw [Scanner.cut_over rfl (List.length_map _), textOf_chars, textOf_bytes]
  have hlexed := lexed?_eq (r := { r with lexer := some l', carry }) (hstop ▸ h.offset) kind skipped
    lexeme ahead
  rw [← hahead, ← htext, ← hstop] at hlexed
  rw [hcut]
  refine ⟨{ r with lexer := some l', carry, cursor := last }, hlexed,
    { lexer := rfl, cursor := rfl, carry := rfl, rest := rfl, text := ?_, offset := ?_,
      last := h.last, chain := h.chain, opened := hopened }⟩
  · refine ⟨front ++ (skipped ++ lexeme), ?_, ?_⟩
    · simp only [htext, hahead, List.append_assoc, l']
    · simp [l', hstop, Nat.add_assoc]
  · simp only [last, first, Position.offset_advance, h.offset, l', Nat.add_assoc]
    rfl

theorem unclosed_eq (front rest : List Char) :
    let n := (Construct.string.close? (rest.map .char)).getD rest.length
    r.unclosed (front ++ '"' :: rest) rest (width front) =
      (width front + 1 + width (rest.take n),
        if (Construct.string.close? (rest.map .char)).isNone ∧ r.invalid ≠ [] then .string
        else r.carry) := by
  intro n
  unfold n
  rw [unclosed, Construct.closeOffset?_eq]
  cases Construct.string.close? (rest.map .char) with
  | some n => rfl
  | none =>
    have hwidth : width (front ++ '"' :: rest) = width front + 1 + width rest := by
      rw [width_append, width_cons, Nat.add_assoc]
      rfl
    cases hinvalid : r.invalid with
    | nil => simp [hwidth]
    | cons b invalid => simp [hwidth]

/-- At a quote without a string behind it the reader takes an error that ends where the open
string closes, or with the text. -/
theorem error?_quote (r : ChunkReader) (front : List Char) {rest : List Char} {k n : Nat}
    (hk : k ≤ n) (hn : n = (Construct.string.close? (rest.map .char)).getD rest.length) :
    let text := front ++ '"' :: rest
    let start := width front
    r.error? { text, ahead := rest.drop k, stop := start + 1 + width (rest.take k) }
        { kind := none, start, stop := start + 1 + width (rest.take k) } =
      lexed?
        { r with
          lexer :=
            some { text, ahead := rest.drop n, stop := start + 1 + width (rest.take n) }
          carry :=
            if (Construct.string.close? (rest.map .char)).isNone ∧ r.invalid ≠ [] then .string
            else r.carry }
        .error text start (start + 1 + width (rest.take n)) := by
  intro text start
  have htail : suffix? text start = some ('"' :: rest) := suffix?_width front ('"' :: rest)
  have hbody : suffix? text (start + 1) = some rest := by
    have hsuffix := suffix?_width (front ++ ['"']) rest
    rw [List.append_assoc, width_append] at hsuffix
    exact hsuffix
  have hunclosed := unclosed_eq (r := r) front rest
  simp only [← hn] at hunclosed
  simp only [error?, htail, hbody, Option.bind_eq_bind, Option.bind_some, List.head?_cons,
    if_true, text, start, hunclosed]
  -- What the lexer still has to pass.
  obtain ⟨more, hmore, hleft⟩ : ∃ more, rest.take n = rest.take k ++ more ∧
      rest.drop k = more ++ rest.drop n := by
    refine ⟨(rest.drop k).take (n - k), ?_, ?_⟩
    · rw [← List.take_add, Nat.add_sub_cancel' hk]
    · have hdrop := (List.take_append_drop (n - k) (rest.drop k)).symm
      rwa [List.drop_drop, Nat.add_sub_cancel' hk] at hdrop
  have hwidth : width (rest.take n) = width (rest.take k) + width more := by
    simp [hmore]
  by_cases hnone : width more = 0
  · rw [if_neg (by omega), hwidth, hleft, eq_nil_of_width hnone]
    rfl
  · have hsub : (width front + 1 + width (rest.take n)).psub (width front + 1 +
        width (rest.take k)) = some (width more) := by
      rw [hwidth, ← Nat.add_assoc, psub_add]
    rw [if_pos (by omega), hsub, Option.bind_some, Lexer.bump?_eq hleft, hwidth, Option.bind_some]
    simp only [Nat.add_assoc]

/-- The next token of the scanner where the lexer finds one. -/
structure Ahead (l : Lexer) (fence : List Atom) (s : Scanner) (skipped : List Char) (c : Char)
    (rest : List Char) : Prop where
  ahead : l.ahead = skipped ++ c :: rest
  trivia : trivia (l.ahead.map .char) = skipped.length
  skip : s.skip = s.advance skipped.length
  rest : (s.advance skipped.length).rest = .char c :: (rest.map .char ++ fence)

theorem Inside.ahead (h : Inside r l chunks s) (hcode : s.construct = .code) {c : Char}
    {rest : List Char} (hrest : l.ahead.drop (trivia (l.ahead.map .char)) = c :: rest) :
    ∃ skipped, Ahead l (fence r.invalid chunks) s skipped c rest := by
  have hfenced := fenced_of_last h.last
  have hle := trivia_le (l.ahead.map .char)
  rw [List.length_map] at hle
  have hahead : l.ahead = l.ahead.take (trivia (l.ahead.map .char)) ++ c :: rest := by
    rw [← hrest, List.take_append_drop]
  have hlength : trivia (l.ahead.map .char) =
      (l.ahead.take (trivia (l.ahead.map .char))).length := by
    rw [List.length_take]
    omega
  have htrivia : trivia s.rest = (l.ahead.take (trivia (l.ahead.map .char))).length := by
    rw [h.rest, trivia_fence hfenced, ← hlength]
  have hbehind : s.rest.drop (l.ahead.take (trivia (l.ahead.map .char))).length =
      .char c :: (rest.map .char ++ fence r.invalid chunks) := by
    rw [h.rest, ← hlength, List.drop_append_of_le_length (trivia_le _), ← List.map_drop, hrest]
    rfl
  refine ⟨_, hahead, hlength, ?_, hbehind⟩
  rw [Scanner.skip_code hcode, Scanner.skipTrivia_char (c := c), htrivia]
  rw [htrivia]
  exact hbehind

/-- The reader takes what the scanner cuts off. -/
theorem Inside.cut_ahead (h : Inside r l chunks s) {skipped rest : List Char} {c : Char}
    (hahead : Ahead l (fence r.invalid chunks) s skipped c rest) (kind : Kind) {n : Nat}
    (carry : Construct) (hn : n ≤ (c :: rest).length)
    (hopened : carry ≠ .code → (c :: rest).drop n = []) :
    ∃ r', lexed?
        { r with
          lexer :=
            some { l with
              ahead := (c :: rest).drop n
              stop := l.stop + width skipped + width ((c :: rest).take n) }
          carry }
        kind l.text (l.stop + width skipped)
        (l.stop + width skipped + width ((c :: rest).take n)) =
          some (((s.advance skipped.length).cut kind n).1, r') ∧
      ∃ l', Inside r' l' chunks
        { ((s.advance skipped.length).cut kind n).2 with construct := carry } := by
  have hsplit : l.ahead = skipped ++ ((c :: rest).take n ++ (c :: rest).drop n) := by
    rw [List.take_append_drop]
    exact hahead.ahead
  have hlength : ((c :: rest).take n).length = n := by
    rw [List.length_take]
    omega
  obtain ⟨r', hlexed, hinside⟩ := h.cut hsplit kind hopened
  rw [hlength] at hlexed hinside
  exact ⟨r', hlexed, _, hinside⟩

theorem Ahead.taken {fence : List Atom} {skipped rest : List Char} {c : Char}
    (h : Ahead l fence s skipped c rest) :
    l.ahead.take (Lexeme.trivia (l.ahead.map .char)) = skipped ∧
      l.ahead.drop (Lexeme.trivia (l.ahead.map .char)) = c :: rest := by
  rw [h.trivia, h.ahead, List.take_left, List.drop_left]
  exact ⟨rfl, rfl⟩

theorem Inside.lexeme (h : Inside r l chunks s) (hcode : s.construct = .code)
    {skipped rest : List Char} {c : Char}
    (hahead : Ahead l (fence r.invalid chunks) s skipped c rest)
    {kind : Kind} {n : Nat} (hfound : longest? c (rest.map .char) = some (kind, n)) :
    ∃ r' l', r.lex? reach = some (some s.next.1, r') ∧ Inside r' l' chunks s.next.2 := by
  obtain ⟨htaken, hrest⟩ := hahead.taken
  have hlongest := longest?_fence (fenced_of_last h.last) c (rest.map .char)
  have hn : n ≤ (c :: rest).length := by simpa using longest?_le hfound
  obtain ⟨r', hlexed, l', hinside⟩ := h.cut_ahead hahead kind r.carry hn
    fun hopened => absurd (h.carry.trans hcode) hopened
  have hnext : s.next = (s.advance skipped.length).cut kind n := by
    rw [Scanner.next, hahead.skip, Scanner.cutToken_lexeme hahead.rest (hlongest.trans hfound)]
  rw [h.carry] at hinside
  rw [hnext]
  refine ⟨r', l', ?_, hinside⟩
  simp only [lex?, h.lexer, Lexer.next, hrest, htaken, Lexer.first, hfound]
  rw [hlexed]
  rfl

theorem Inside.unknown (h : Inside r l chunks s) (hcode : s.construct = .code)
    {skipped rest : List Char} {c : Char}
    (hahead : Ahead l (fence r.invalid chunks) s skipped c rest)
    (hfound : longest? c (rest.map .char) = none) (hquote : c ≠ '"') :
    ∃ r' l', r.lex? reach = some (some s.next.1, r') ∧ Inside r' l' chunks s.next.2 := by
  obtain ⟨front, htext, hstop⟩ := h.text
  obtain ⟨htaken, hrest⟩ := hahead.taken
  have hlongest := longest?_fence (fenced_of_last h.last) c (rest.map .char)
  have htail : suffix? l.text (l.stop + width skipped) = some (c :: rest) := by
    rw [htext, hahead.ahead, hstop, ← width_append, ← List.append_assoc]
    exact suffix?_width (front ++ skipped) (c :: rest)
  have hhead : ¬ (c :: rest).head? = some '"' := fun heq => hquote (Option.some.inj heq)
  obtain ⟨r', hlexed, l', hinside⟩ := h.cut_ahead hahead .error (n := 1) r.carry
    (Nat.le_add_left ..) fun hopened => absurd (h.carry.trans hcode) hopened
  have hnext : s.next = (s.advance skipped.length).cut .error 1 := by
    rw [Scanner.next, hahead.skip,
      Scanner.cutToken_unknown hahead.rest (hlongest.trans hfound) hquote]
  rw [h.carry] at hinside
  rw [hnext]
  refine ⟨r', l', ?_, hinside⟩
  simp only [lex?, h.lexer, Lexer.next, hrest, htaken, Lexer.first, hfound, if_neg hquote,
    error?, htail, Option.bind_eq_bind, Option.bind_some, if_neg hhead]
  rw [hlexed]
  rfl

/-- The lexer does not look behind the end of the line of an open string, and so not behind what
the error takes. -/
theorem reach_le (hreach : ∀ body, reach body ≤ (body.takeWhile (· != '\n')).length)
    {rest : List Char} (hfound : longest? '"' (rest.map .char) = none) :
    reach rest ≤ (Construct.string.close? (rest.map .char)).getD rest.length := by
  have hline : run (· != '\n') (rest.map .char) = (rest.takeWhile (· != '\n')).length := by
    rw [run, List.takeWhile_map, List.length_map]
    rfl
  have hle := hreach rest
  cases hclose : Construct.string.close? (rest.map .char) with
  | none => exact hle.trans (List.takeWhile_prefix _).length_le
  | some n =>
    have hquoted : quotedAfter 0 (rest.map .char) = none := Option.map_eq_none_iff.1 hfound
    have hend := Construct.closeStringAfter_cases hclose
    rw [hquoted, hline, Nat.zero_add] at hend
    exact hle.trans (Nat.le_of_eq (hend.resolve_left (Option.some_ne_none n).symm).1.symm)

/-- The error of the scanner at a quote without a string behind it. -/
theorem Ahead.next_quote {fence : List Atom} {skipped rest : List Char}
    (h : Ahead l fence s skipped '"' rest) (hfenced : Fenced fence)
    (hfound : longest? '"' (rest.map .char) = none) :
    let n := (Construct.string.close? (rest.map .char)).getD rest.length
    let cut := (s.advance skipped.length).cut .error (1 + n)
    s.next = (cut.1,
      { cut.2 with
        construct :=
          if (Construct.string.close? (rest.map .char)).isNone ∧ fence ≠ [] then .string
          else s.construct }) := by
  intro n cut
  have hlongest := longest?_fence hfenced '"' (rest.map .char)
  have hconstruct : (s.advance skipped.length).construct = s.construct := rfl
  rw [Scanner.next, h.skip, Scanner.cutToken_open h.rest (hlongest.trans hfound)]
  simp only [Scanner.cutOpenString_fence hfenced h.rest, hconstruct, cut, n]

theorem Inside.quote (hreach : ∀ body, reach body ≤ (body.takeWhile (· != '\n')).length)
    (h : Inside r l chunks s) (hcode : s.construct = .code) {skipped rest : List Char}
    (hahead : Ahead l (fence r.invalid chunks) s skipped '"' rest)
    (hfound : longest? '"' (rest.map .char) = none) :
    ∃ r' l', r.lex? reach = some (some s.next.1, r') ∧ Inside r' l' chunks s.next.2 := by
  obtain ⟨front, htext, hstop⟩ := h.text
  obtain ⟨htaken, hrest⟩ := hahead.taken
  have hnext := hahead.next_quote (fenced_of_last h.last) hfound
  have hreached := reach_le hreach hfound
  have hle := Construct.string.close?_getD_le rest
  have herror := error?_quote r (front ++ skipped) hreached rfl
  have hopened : (if (Construct.string.close? (rest.map .char)).isNone ∧ r.invalid ≠ []
      then Construct.string else r.carry) ≠ .code →
      rest.drop ((Construct.string.close? (rest.map .char)).getD rest.length) = [] := by
    intro hne
    by_cases hopen : (Construct.string.close? (rest.map .char)).isNone ∧ r.invalid ≠ []
    · rw [Option.isNone_iff_eq_none.1 hopen.1]
      exact List.drop_length ..
    · rw [if_neg hopen] at hne
      exact absurd (h.carry.trans hcode) hne
  simp only [ne_eq, fence_eq_nil_iff h.last, ← h.carry] at hnext
  generalize (Construct.string.close? (rest.map .char)).getD rest.length = n at *
  generalize (if (Construct.string.close? (rest.map .char)).isNone ∧ ¬ r.invalid = []
    then Construct.string else r.carry) = carry at *
  -- The offsets of the lexer, from the start of its text.
  have hdrop (k : Nat) : ('"' :: rest).drop (1 + k) = rest.drop k := by
    rw [Nat.add_comm, List.drop_succ_cons]
  have hstart : l.stop + width skipped = width (front ++ skipped) := by
    simp [hstop]
  have hstops (k : Nat) : l.stop + width skipped + width (('"' :: rest).take (1 + k)) =
      width (front ++ skipped) + 1 + width (rest.take k) := by
    rw [Nat.add_comm 1, List.take_succ_cons, width_cons, hstart, Nat.add_assoc]
    rfl
  have hwhole : l.text = (front ++ skipped) ++ '"' :: rest := by
    rw [htext, hahead.ahead, List.append_assoc]
  obtain ⟨r', hlexed, l', hinside⟩ := h.cut_ahead hahead .error (n := 1 + n) carry
    (by rw [List.length_cons]; omega) fun hne => (hdrop n).trans (hopened hne)
  rw [hnext]
  refine ⟨r', l', ?_, hinside⟩
  rw [hdrop, hstops, hstart, hwhole] at hlexed
  simp only [lex?, h.lexer, Lexer.next, hrest, htaken, Lexer.first, hfound, if_true]
  rw [hdrop, hstops, hstart, hwhole, herror.trans hlexed]
  rfl

/-- Where the lexer finds something, it is the next token of the scanner. -/
theorem Inside.token (hreach : ∀ body, reach body ≤ (body.takeWhile (· != '\n')).length)
    (h : Inside r l chunks s) (hcode : s.construct = .code) {c : Char} {rest : List Char}
    (hrest : l.ahead.drop (trivia (l.ahead.map .char)) = c :: rest) :
    ∃ r' l', r.lex? reach = some (some s.next.1, r') ∧ Inside r' l' chunks s.next.2 := by
  obtain ⟨skipped, hahead⟩ := h.ahead hcode hrest
  cases hfound : longest? c (rest.map .char) with
  | some found => exact h.lexeme hcode hahead hfound
  | none =>
    by_cases hquote : c = '"'
    · subst hquote
      exact h.quote hreach hcode hahead hfound
    · exact h.unknown hcode hahead hfound hquote

/-- Where the lexer finds nothing more, the scanner skips what is left of the text. -/
theorem Inside.finish (reach : List Char → Nat) (h : Inside r l chunks s)
    (hend : l.ahead.drop (trivia (l.ahead.map .char)) = []) :
    ∃ r', r.lex? reach = some (none, r') ∧ Behind r' chunks s.skip ∧ r'.invalid = r.invalid := by
  have hfenced := fenced_of_last h.last
  have hskip : s.skip = { s.advance l.ahead.length with
      construct :=
        if l.ahead.any startsComment ∧ fence r.invalid chunks ≠ [] then .comment
        else s.construct } := by
    by_cases hcode : s.construct = .code
    · rw [Scanner.skip_code hcode]
      exact Scanner.skipTrivia_end hfenced h.rest (List.drop_eq_nil_iff.1 hend)
    · have hahead := h.opened hcode
      have hrest := h.rest
      rw [hahead] at hrest ⊢
      exact Scanner.skip_fenced (by rw [hrest]; exact hfenced) hcode
  obtain ⟨front, htext, hstop⟩ := h.text
  have hconsumed : r.cursor.offset.psub r.base = some l.stop := by simp [h.offset]
  have htail : suffix? l.text l.stop = some l.ahead := by
    rw [htext, hstop]
    exact suffix?_width front l.ahead
  rw [Scanner.advance_over h.rest (List.length_map _), ← h.cursor] at hskip
  have hcarry : (if !r.invalid.isEmpty && l.ahead.any startsComment then .comment else r.carry) =
      s.skip.construct := by
    rw [hskip, h.carry]
    refine if_congr ?_ rfl rfl
    rw [ne_eq, fence_eq_nil_iff h.last, Bool.and_eq_true, Bool.not_eq_true', Bool.eq_false_iff,
      ne_eq, List.isEmpty_iff, and_comm]
  have hcursor : r.cursor.advance (l.ahead.map .char) = s.skip.cursor := by rw [hskip]
  have hlex : r.lex? reach = some (none,
      { r with
        lexer := none, carry := s.skip.construct, base := s.skip.cursor.offset,
        cursor := s.skip.cursor }) := by
    simp only [lex?, h.lexer, Lexer.next, hend, finish?, hconsumed, htail, Option.bind_eq_bind,
      Option.bind_some, Option.pure_def, Option.map_some, hcursor, hcarry]
  refine ⟨_, hlex, { lexer := rfl, cursor := rfl, carry := rfl, rest := ?_, chain := h.chain }, rfl⟩
  rw [hskip]

theorem advanceBytes_eq (p : Position) (bytes : List UInt8) :
    p.advanceBytes bytes.length = p.advance (bytes.map .stray) := by
  induction bytes generalizing p with
  | nil => rfl
  | cons b bytes ih =>
    have hne : Atom.stray b ≠ .char '\n' := by rintro ⟨⟩
    have hafter : p.after (.stray b) = p.advanceBytes 1 := by
      rw [Position.after, if_neg hne]
      rfl
    have hcons : p.advance ((b :: bytes).map .stray) =
        (p.after (.stray b)).advance (bytes.map .stray) := rfl
    rw [hcons, ← ih, hafter]
    simp only [Position.advanceBytes, List.length_cons, Nat.add_assoc, Nat.add_comm 1]

/-- The error over bytes outside UTF-8 takes those of all the chunks that hold nothing else. -/
theorem Behind.strays (h : Behind r chunks s) (hbroken : r.invalid ≠ []) :
    ∃ r' chunks', r.strays? chunks = some (s.cutToken.1, r', chunks') ∧
      Behind r' chunks' s.cutToken.2 ∧ r'.invalid = [] := by
  unfold strays?
  generalize hbytes : r.invalid ++ Chunk.strays chunks = bytes
  have hrest : s.rest = bytes.map .stray ++
      (chunks.dropWhile (·.valid.isEmpty)).flatMap Chunk.atoms := by
    rw [h.rest, fence, Chunk.atoms_strays, ← hbytes, List.map_append, List.append_assoc]
  have hcut : s.cutToken = s.cut .error bytes.length :=
    Scanner.cutToken_strays hrest (by simp [← hbytes, hbroken]) (Chunk.not_stray_behind chunks)
  have htext : textOf (bytes.map .stray) = "" := Scanner.textOf_stray (by simp [isStray])
  have hbyte : (bytes.map Atom.stray).filterMap Atom.byte? = bytes := by
    rw [List.filterMap_map]
    exact List.filterMap_some
  rw [hcut, Scanner.cut_over hrest (List.length_map _), htext, hbyte, ← h.cursor,
    ← advanceBytes_eq]
  refine ⟨{ r with
      invalid := [], base := (r.cursor.advanceBytes bytes.length).offset
      cursor := r.cursor.advanceBytes bytes.length }, chunks.dropWhile (·.valid.isEmpty), ?_,
    { lexer := h.lexer, cursor := rfl, carry := h.carry, rest := rfl, chain := ?_ }, rfl⟩
  · have hspan := Span.new?_advance r.cursor (bytes.map .stray)
    rw [← advanceBytes_eq] at hspan
    simp only [hspan, Option.bind_eq_bind, Option.bind_some, Option.pure_def]
  · exact h.chain.suffix (List.dropWhile_suffix _)

theorem closing_eq (carry : Construct) (text : List Char) :
    closing carry text =
      match carry.close? (text.map .char) with
      | some n => (width (text.take n), .code)
      | none => (width text, carry) := by
  rw [closing, Construct.closeOffset?_eq]
  cases carry.close? (text.map .char) <;> rfl

theorem splitAt?_take (text : List Char) (n : Nat) :
    splitAt? (width (text.take n)) text = some (text.take n, text.drop n) :=
  splitAt?_eq_some_iff.2 ⟨(List.take_append_drop n text).symm, rfl⟩

/-- A chunk without a broken sequence is the last one. -/
theorem Behind.last {chunk : Chunk} (h : Behind r (chunk :: chunks) s)
    (hinvalid : chunk.invalid = []) : chunks = [] := by
  cases chunks with
  | nil => rfl
  | cons c chunks => exact absurd hinvalid (List.isChain_cons_cons.1 h.chain).1

theorem Behind.rest_cons {chunk : Chunk} (h : Behind r (chunk :: chunks) s)
    (hnone : r.invalid = []) : s.rest = chunk.valid.map .char ++ fence chunk.invalid chunks := by
  rw [h.rest, fence, hnone, List.flatMap_cons, Chunk.atoms, List.append_assoc]
  rfl

/-- Where the reader goes on behind some characters of a chunk, so does the scanner. -/
theorem Behind.inside {chunk : Chunk} (h : Behind r (chunk :: chunks) s) (hnone : r.invalid = [])
    {opened rest : List Char} (hvalid : chunk.valid = opened ++ rest) (carry : Construct)
    (hopened : carry ≠ .code → rest = []) :
    let cursor := r.cursor.advance (opened.map .char)
    Inside
      { lexer := some (.ofText rest), invalid := chunk.invalid, carry, base := cursor.offset,
        cursor }
      (.ofText rest) chunks { s.advance opened.length with construct := carry } := by
  have hrest := h.rest_cons hnone
  rw [hvalid, List.map_append, List.append_assoc] at hrest
  rw [Scanner.advance_over hrest (List.length_map _), ← h.cursor]
  exact { lexer := rfl, cursor := rfl, carry := rfl, rest := rfl, text := ⟨[], rfl, rfl⟩,
          offset := rfl, last := h.last, chain := h.chain.tail, opened := hopened }

/-- The reader starts on the text of a chunk where the scanner has closed what was open. -/
theorem Behind.resume {chunk : Chunk} (h : Behind r (chunk :: chunks) s) (hnone : r.invalid = []) :
    ∃ r' l' s', r.resume? chunk = some r' ∧ Inside r' l' chunks s' ∧ s.skip = s'.skip := by
  have hrest := h.rest_cons hnone
  have hfenced : Fenced (fence chunk.invalid chunks) := fenced_of_last h.last
  have hclose := Construct.close?_fence hfenced s.construct (chunk.valid.map .char)
  rw [← hrest] at hclose
  cases hfound : s.construct.close? (chunk.valid.map .char) with
  | some n =>
    have hlength : (chunk.valid.take n).length = n :=
      List.length_take_of_le (by simpa using Construct.close?_le hfound)
    have hinside := h.inside hnone (List.take_append_drop n chunk.valid).symm .code
      fun hne => absurd rfl hne
    rw [hlength] at hinside
    refine ⟨_, _, _, ?_, hinside, ?_⟩
    · simp only [resume?, closing_eq, h.carry, hfound, splitAt?_take, Option.bind_eq_bind,
        Option.bind_some, Option.pure_def]
    · rw [Scanner.skip, Scanner.skip, Scanner.closeConstruct_some (hclose.trans hfound),
        Scanner.closeConstruct_code rfl]
  | none =>
    have hopen : s.construct ≠ .code := by
      intro hcode
      rw [hcode] at hfound
      cases hfound
    have hsplit : splitAt? (width chunk.valid) chunk.valid = some (chunk.valid, []) :=
      splitAt?_eq_some_iff.2 ⟨(List.append_nil _).symm, rfl⟩
    have hinside := h.inside hnone (List.append_nil _).symm s.construct fun _ => rfl
    have hbehind : Fenced (s.advance chunk.valid.length).rest := by
      rw [Scanner.advance_over hrest (List.length_map _)]
      exact hfenced
    refine ⟨_, _, _, ?_, hinside, ?_⟩
    · simp only [resume?, closing_eq, h.carry, hfound, hsplit, Option.bind_eq_bind,
        Option.bind_some, Option.pure_def]
    · rw [Scanner.skip_open hopen (hclose.trans hfound), hrest, Scanner.validRun_fence hfenced]
      exact (Scanner.skip_fenced hbehind hopen).symm

/-- Behind the text of a chunk there is a broken sequence, or the end. -/
theorem Behind.next {r₀ : ChunkReader} (h : Behind r chunks s)
    (hlex : r₀.lex? reach = some (none, r)) (hlast : r.invalid = [] → chunks = []) :
    ∃ r' chunks', r₀.next? reach chunks = some (s.cutToken.1, r', chunks') ∧
      Reads r' chunks' s.cutToken.2 := by
  unfold next?
  rw [hlex]
  dsimp only
  by_cases hbroken : r.invalid = []
  · obtain rfl := hlast hbroken
    have hrest : s.rest = [] := by
      rw [h.rest, fence, hbroken]
      rfl
    have hspan := Span.new?_advance r.cursor []
    rw [if_pos (List.isEmpty_iff.2 hbroken), Scanner.cutToken_end hrest]
    refine ⟨r, [], ?_, .inr ⟨h, hbroken⟩⟩
    dsimp only
    rw [← h.cursor]
    exact congrArg (Option.map _) hspan
  · obtain ⟨r', chunks', hstrays, hbehind, hnone⟩ := h.strays hbroken
    rw [if_neg fun hempty => hbroken (List.isEmpty_iff.1 hempty)]
    exact ⟨r', chunks', hstrays, .inr ⟨hbehind, hnone⟩⟩

theorem Inside.next (hreach : ∀ body, reach body ≤ (body.takeWhile (· != '\n')).length)
    (h : Inside r l chunks s) :
    ∃ r' chunks', r.next? reach chunks = some (s.next.1, r', chunks') ∧
      Reads r' chunks' s.next.2 := by
  cases hahead : l.ahead.drop (trivia (l.ahead.map .char)) with
  | nil =>
    obtain ⟨r', hlex, hbehind, hsame⟩ := h.finish reach hahead
    exact hbehind.next hlex fun hnone => h.last (hsame ▸ hnone)
  | cons c rest =>
    have hcode : s.construct = .code := by
      by_contra hopen
      rw [h.opened hopen] at hahead
      cases hahead
    obtain ⟨r', l', hlex, hinside⟩ := h.token hreach hcode hahead
    refine ⟨r', chunks, ?_, .inl ⟨l', hinside⟩⟩
    unfold next?
    rw [hlex]

/-- The answers of the reader and of the scanner are the same, call by call. -/
theorem Reads.next (hreach : ∀ body, reach body ≤ (body.takeWhile (· != '\n')).length)
    (h : Reads r chunks s) :
    ∃ r' chunks', r.next? reach chunks = some (s.next.1, r', chunks') ∧
      Reads r' chunks' s.next.2 := by
  rcases h with ⟨l, h⟩ | ⟨h, hnone⟩
  · exact h.next hreach
  have hlex : r.lex? reach = some (none, r) := by rw [lex?, h.lexer]
  cases chunks with
  | nil =>
    have hrest : s.rest = [] := by
      rw [h.rest, fence, hnone]
      rfl
    have hskip : s.skip = s := by
      obtain ⟨rest, construct, cursor⟩ := s
      cases hrest
      cases construct <;> rfl
    have hnext := h.next hlex fun _ => rfl
    rwa [← hskip] at hnext
  | cons chunk chunks =>
    obtain ⟨r', l', s', hresume, hinside, hskip⟩ := h.resume hnone
    obtain ⟨r'', chunks', hnext, hreads⟩ := hinside.next hreach
    have hsame : s.next = s'.next := by rw [Scanner.next, hskip]; rfl
    rw [hsame]
    refine ⟨r'', chunks', ?_, hreads⟩
    rw [next?, hlex]
    dsimp only
    rw [if_pos (List.isEmpty_iff.2 hnone), hresume]
    exact hnext

theorem reads_start (source : List UInt8) :
    Reads {} (Utf8.chunks source) (Scanner.ofBytes source) := by
  refine .inr ⟨{ lexer := rfl, cursor := rfl, carry := rfl, rest := ?_, chain := ?_ }, rfl⟩
  · exact (atoms_chunks source).symm
  · exact chain_chunksAfter [] source

theorem Reads.answers (hreach : ∀ body, reach body ≤ (body.takeWhile (· != '\n')).length)
    (h : Reads r chunks s) (n : Nat) :
    r.answers? reach chunks n = some ((List.range n).map s.call) := by
  induction n generalizing r chunks s with
  | zero => rfl
  | succ n ih =>
    obtain ⟨r', chunks', hnext, hreads⟩ := h.next hreach
    rw [answers?, hnext, List.range_succ_eq_map, List.map_cons, List.map_map]
    simp only [Option.bind_eq_bind, Option.bind_some, Option.pure_def, ih hreads]
    rfl

end ChunkReader

/-- None of the tests of a reader ever fails. Whatever the bytes are and however often it is
asked, it answers as the scanner. -/
theorem reader_answers (reach : List Char → Nat)
    (hreach : ∀ body, reach body ≤ (body.takeWhile (· != '\n')).length) (source : List UInt8)
    (n : Nat) :
    ChunkReader.answers? reach {} (chunks source) n =
      some ((List.range n).map (Scanner.ofBytes source).call) :=
  (ChunkReader.reads_start source).answers hreach n

end LabelGraph
