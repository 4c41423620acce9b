import LabelGraph.Proofs.Token.Followed
import Mathlib.Computability.Language

/-!
The scanner reads back what is printed. Each kind of token has its language of texts. Whatever
tokens are written one after another, with one blank between each two of them, the scanner
finds the same kinds and texts again.
-/

namespace LabelGraph

open Computability

/-! The languages of the kinds. -/

namespace Pattern

def one (p : Char → Bool) : Language Char := {text | ∃ c, p c ∧ text = [c]}

def sign (c : Char) : Language Char := {text | text = [c]}

def hexadecimal (c : Char) : Bool :=
  ('0' ≤ c && c ≤ '9') || ('A' ≤ c && c ≤ 'F') || ('a' ≤ c && c ≤ 'f')

def quotable : Language Char :=
  one (fun c => c != '"' && c != '\\' && c != '\n') + sign '\\' * one (fun c => c != '\n')

end Pattern

open Pattern in
/-- The texts that a kind of token has. An error and the end of the text are of no pattern. -/
def Kind.pattern : Kind → Language Char
  | newline => sign '\n'
  | colon => sign ':'
  | comma => sign ','
  | plus => sign '+'
  | minus => sign '-'
  | leftBracket => sign '['
  | rightBracket => sign ']'
  | leftBrace => sign '\x7b'
  | rightBrace => sign '\x7d'
  | directive =>
    sign '.' * (one (fun c => c.isAlpha || c == '_') * (one fun c => c.isAlphanum || c == '_')∗)
  | identifier =>
    one (fun c => c.isAlpha || c == '_') *
      (one fun c => c.isAlphanum || c == '_' || c == '.' || c == '$')∗
  | register => sign '%' * (one Char.isAlpha * (one Char.isAlphanum)∗)
  | number =>
    sign '0' * (one (fun c => c == 'x' || c == 'X') * (one hexadecimal * (one hexadecimal)∗)) +
      one Char.isDigit * (one Char.isDigit)∗
  | stringLiteral => sign '"' * (quotable∗ * sign '"')
  | corrupt => sign '\x00'
  | error | eof => 0

namespace Pattern

variable {p : Char → Bool} {c : Char} {text : List Char} {l : Language Char}

@[simp] theorem mem_sign : text ∈ sign c ↔ text = [c] := Iff.rfl

theorem mem_one_mul : text ∈ one p * l ↔ ∃ c, p c ∧ ∃ rest ∈ l, text = c :: rest := by
  rw [Language.mem_mul]
  constructor
  · rintro ⟨_, ⟨c, hc, rfl⟩, rest, hrest, rfl⟩
    exact ⟨c, hc, rest, hrest, rfl⟩
  · rintro ⟨c, hc, rest, hrest, rfl⟩
    exact ⟨[c], ⟨c, hc, rfl⟩, rest, hrest, rfl⟩

@[simp] theorem mem_sign_mul : text ∈ sign c * l ↔ ∃ rest ∈ l, text = c :: rest := by
  rw [Language.mem_mul]
  constructor
  · rintro ⟨_, rfl, rest, hrest, rfl⟩
    exact ⟨rest, hrest, rfl⟩
  · rintro ⟨rest, hrest, rfl⟩
    exact ⟨[c], rfl, rest, hrest, rfl⟩

theorem mem_kstar_one : text ∈ (one p)∗ ↔ ∀ c ∈ text, p c := by
  rw [Language.mem_kstar]
  constructor
  · rintro ⟨pieces, rfl, hpieces⟩ c hc
    obtain ⟨piece, hpiece, hmem⟩ := List.mem_flatten.1 hc
    obtain ⟨d, hd, rfl⟩ := hpieces piece hpiece
    rwa [List.mem_singleton.1 hmem]
  · intro h
    refine ⟨text.map fun c => [c], (List.flatMap_singleton' text).symm, fun piece hpiece => ?_⟩
    obtain ⟨c, hc, rfl⟩ := List.mem_map.1 hpiece
    exact ⟨c, h c hc, rfl⟩

/-- A character of one class and then any number of them of another one. -/
theorem mem_word {q : Char → Bool} :
    text ∈ one p * (one q)∗ ↔ ∃ c rest, text = c :: rest ∧ p c ∧ ∀ d ∈ rest, q d := by
  rw [mem_one_mul]
  constructor
  · rintro ⟨c, hc, rest, hrest, rfl⟩
    exact ⟨c, rest, rfl, hc, mem_kstar_one.1 hrest⟩
  · rintro ⟨c, rest, rfl, hc, hrest⟩
    exact ⟨c, hc, rest, mem_kstar_one.2 hrest, rfl⟩

theorem mem_stringLiteral {text : List Char} :
    text ∈ Kind.stringLiteral.pattern ↔ ∃ body ∈ quotable∗, text = '"' :: (body ++ ['"']) := by
  constructor
  · intro h
    obtain ⟨_, ⟨body, hbody, _, rfl, rfl⟩, rfl⟩ := mem_sign_mul.1 h
    exact ⟨body, hbody, rfl⟩
  · rintro ⟨body, hbody, rfl⟩
    exact mem_sign_mul.2 ⟨_, Language.mem_mul.2 ⟨body, hbody, _, rfl, rfl⟩, rfl⟩

end Pattern

open Pattern

/-! What the scanner takes of a text, with a blank or nothing behind it. -/

namespace Lexeme

def AtBlank (more : List Atom) : Prop := more = [] ∨ ∃ rest, more = .char ' ' :: rest

variable {p : Char → Bool} {c : Char} {text rest : List Char} {more : List Atom}

theorem run_word (hp : p ' ' = false) (htext : ∀ c ∈ text, p c) (hmore : AtBlank more) :
    run p (text.map .char ++ more) = text.length := by
  induction text with
  | nil =>
    rcases hmore with rfl | ⟨rest, rfl⟩
    · rfl
    · exact run_stop hp rest
  | cons c text ih =>
    obtain ⟨hc, htext⟩ := List.forall_mem_cons.1 htext
    exact (run_char hc _).trans (congrArg (· + 1) (ih htext))

/-- A word whose first character is of a narrower class. -/
theorem run_headed {q : Char → Bool} (hpq : p c → q c) (hq : q ' ' = false) (hc : p c)
    (htext : ∀ d ∈ text, q d) (hmore : AtBlank more) :
    headIs p ((c :: text).map .char ++ more) = true ∧
      run q ((c :: text).map .char ++ more) = (c :: text).length :=
  ⟨hc, run_word hq (List.forall_mem_cons.2 ⟨hpq hc, htext⟩) hmore⟩

theorem isNameChar_of_start (h : isNameStart c) : isNameChar c := by
  simp only [isNameStart, isNameChar, Char.isAlphanum, Bool.or_eq_true] at h ⊢
  exact h.imp_left .inl

theorem punctuation?_eq_none (h : isNameChar c) : punctuation? c = none := by
  unfold punctuation?
  split
  case h_11 => rfl
  all_goals exact absurd h (by decide)

theorem isAlpha_eq_false (h : c.isDigit) : c.isAlpha = false ∧ c ≠ '_' := by
  constructor
  · rw [Bool.eq_false_iff]
    intro halpha
    have hletter : 'A'.val ≤ c.val ∧ c.val ≤ 'Z'.val ∨ 'a'.val ≤ c.val ∧ c.val ≤ 'z'.val := by
      change (decide ('A'.val ≤ c.val ∧ c.val ≤ 'Z'.val) ||
        (decide ('a'.val ≤ c.val) && decide (c.val ≤ 'z'.val))) = true at halpha
      simpa using halpha
    have hdigit : 48 ≤ c.val.toNat ∧ c.val.toNat ≤ 57 := Char.isDigit_iff_toNat.1 h
    have : 'A'.val.toNat = 65 := rfl
    have : 'a'.val.toNat = 97 := rfl
    simp only [UInt32.le_iff_toNat_le] at hletter
    omega
  · rintro rfl
    exact absurd h (by decide)

theorem longest?_identifier (hc : c.isAlpha || c == '_')
    (hrest : ∀ d ∈ rest, d.isAlphanum || d == '_' || d == '.' || d == '$') (hmore : AtBlank more) :
    longest? c (rest.map .char ++ more) = some (.identifier, (c :: rest).length) := by
  have hsign : punctuation? c = none := punctuation?_eq_none (isNameChar_of_start hc)
  have hrun : run isIdentifierChar (rest.map .char ++ more) = rest.length :=
    run_word rfl hrest hmore
  simp only [longest?, hsign, isNameStart, hc, hrun, if_true, List.length_cons, Nat.add_comm]

theorem longest?_directive (hc : c.isAlpha || c == '_')
    (hrest : ∀ d ∈ rest, d.isAlphanum || d == '_') (hmore : AtBlank more) :
    longest? '.' ((c :: rest).map .char ++ more) =
      some (.directive, ('.' :: c :: rest).length) := by
  have hstart : isNameStart c := hc
  have hname : ∀ d ∈ rest, isNameChar d := hrest
  have hword := run_headed isNameChar_of_start rfl hstart hname hmore
  have hlongest (atoms : List Atom) (h : headIs isNameStart atoms = true) :
      longest? '.' atoms = some (.directive, 1 + run isNameChar atoms) := by
    simp [longest?, punctuation?, isNameStart, h]
  rw [hlongest _ hword.1, hword.2, Nat.add_comm]
  rfl

theorem longest?_register (hc : c.isAlpha) (hrest : ∀ d ∈ rest, d.isAlphanum)
    (hmore : AtBlank more) :
    longest? '%' ((c :: rest).map .char ++ more) =
      some (.register, ('%' :: c :: rest).length) := by
  have hwide : c.isAlpha → c.isAlphanum := fun h => by rw [Char.isAlphanum, h, Bool.true_or]
  have hword := run_headed hwide rfl hc hrest hmore
  have hlongest (atoms : List Atom) (h : headIs Char.isAlpha atoms = true) :
      longest? '%' atoms = some (.register, 1 + run Char.isAlphanum atoms) := by
    simp [longest?, punctuation?, isNameStart, h]
  rw [hlongest _ hword.1, hword.2, Nat.add_comm]
  rfl

/-! Numbers. -/

theorem longest?_digit (hc : c.isDigit) (atoms : List Atom) :
    longest? c atoms = some (.number, numberLength (.char c :: atoms)) := by
  obtain ⟨halpha, hline⟩ := isAlpha_eq_false hc
  have hchar : isNameChar c := by simp [isNameChar, Char.isAlphanum, hc]
  have hsign : punctuation? c = none := punctuation?_eq_none hchar
  have hname : isNameStart c = false := by simp [isNameStart, halpha, hline]
  simp [longest?, hsign, hname, hc]

/-- A number goes on with decimal digits, unless the second character is an `x`. -/
theorem numberLength_decimal {atoms : List Atom}
    (h : ∀ x tail, atoms = .char x :: tail → x ≠ 'x' ∧ x ≠ 'X') (a : Atom) :
    numberLength (a :: atoms) = 1 + run Char.isDigit atoms := by
  by_cases ha : a = .char '0'
  case neg => exact numberLength_of_ne ha atoms
  case pos =>
    subst ha
    cases atoms with
    | nil => rfl
    | cons b tail =>
      cases b with
      | stray b => rfl
      | char x =>
        obtain ⟨hlower, hupper⟩ := h x tail rfl
        simp [numberLength, hlower, hupper]

theorem longest?_decimal (hc : c.isDigit) (hrest : ∀ d ∈ rest, d.isDigit) (hmore : AtBlank more) :
    longest? c (rest.map .char ++ more) = some (.number, (c :: rest).length) := by
  have hrun : run Char.isDigit (rest.map .char ++ more) = rest.length := run_word rfl hrest hmore
  -- Behind a zero stands another digit, a blank or nothing.
  have hnext : ∀ x tail, rest.map .char ++ more = .char x :: tail → x ≠ 'x' ∧ x ≠ 'X' := by
    intro x tail heq
    cases rest with
    | nil =>
      rcases hmore with rfl | ⟨behind, rfl⟩
      · cases heq
      · cases heq
        decide
    | cons d rest =>
      cases heq
      have hx : x.isDigit := hrest x List.mem_cons_self
      constructor <;>
      · rintro rfl
        exact absurd hx (by decide)
  rw [longest?_digit hc, numberLength_decimal hnext, hrun, List.length_cons, Nat.add_comm]

theorem longest?_hexadecimal {x : Char} (hx : x == 'x' || x == 'X') (hc : hexadecimal c)
    (hrest : ∀ d ∈ rest, hexadecimal d) (hmore : AtBlank more) :
    longest? '0' ((x :: c :: rest).map .char ++ more) =
      some (.number, ('0' :: x :: c :: rest).length) := by
  have hclass : hexadecimal = isHexDigit := by
    funext d
    rw [isHexDigit, hexadecimal, Char.isDigit, Bool.or_right_comm]
    rfl
  rw [hclass] at hc hrest
  obtain ⟨hhead, hrun⟩ := run_headed id rfl hc hrest hmore
  have hnumber : numberLength (.char '0' :: .char x :: ((c :: rest).map .char ++ more)) =
      2 + (c :: rest).length := by
    rw [numberLength, hx, hhead, hrun]
    rfl
  refine (longest?_digit rfl _).trans ?_
  rw [List.map_cons, List.cons_append, hnumber, Nat.add_comm]
  rfl

/-! Strings. -/

theorem quotedAfter_piece {piece : List Char} (h : piece ∈ quotable) (count : Nat)
    (atoms : List Atom) :
    quotedAfter count (piece.map .char ++ atoms) = quotedAfter (count + piece.length) atoms := by
  rcases h with ⟨c, hc, rfl⟩ | hescape
  · have hplain : (c ≠ '"' ∧ c ≠ '\\') ∧ c ≠ '\n' := by simpa using hc
    exact quotedAfter_char hplain.1.1 hplain.2 hplain.1.2 count atoms
  · obtain ⟨_, ⟨c, hc, rfl⟩, rfl⟩ := mem_sign_mul.1 hescape
    have hfeed : c ≠ '\n' := by simpa using hc
    change quotedAfter count (.char '\\' :: .char c :: atoms) = _
    rw [quotedAfter, if_neg hfeed]
    rfl

/-- A string closes at the first quote that no backslash takes with it. -/
theorem quotedAfter_body {body : List Char} (h : body ∈ quotable∗) (count : Nat)
    (more : List Atom) :
    quotedAfter count (body.map .char ++ .char '"' :: more) = some (count + body.length + 1) := by
  obtain ⟨pieces, rfl, hpieces⟩ := Language.mem_kstar.1 h
  clear h
  -- Each piece is taken as a whole, so a quote behind a backslash is not seen by itself.
  induction pieces generalizing count with
  | nil => rfl
  | cons piece pieces ih =>
    obtain ⟨hpiece, hmore⟩ := List.forall_mem_cons.1 hpieces
    rw [List.flatten_cons, List.map_append, List.append_assoc, quotedAfter_piece hpiece,
      ih _ hmore, List.length_append, Nat.add_assoc count]

theorem longest?_string {body : List Char} (h : body ∈ quotable∗) (more : List Atom) :
    longest? '"' ((body ++ ['"']).map .char ++ more) =
      some (.stringLiteral, ('"' :: (body ++ ['"'])).length) := by
  have hquoted : quoted? ((body ++ ['"']).map .char ++ more) = some (body ++ ['"']).length := by
    rw [List.map_append, List.append_assoc, quoted?]
    refine (quotedAfter_body h 0 more).trans ?_
    rw [List.length_append, List.length_singleton, Nat.zero_add]
  have hlongest (atoms : List Atom) : longest? '"' atoms =
      (quoted? atoms).map fun n => (.stringLiteral, 1 + n) := by
    simp [longest?, punctuation?, isNameStart]
  rw [hlongest, hquoted, List.length_cons, Nat.add_comm]
  rfl

/-- Neither a blank nor the start of a comment starts a lexeme. -/
theorem longest?_start {atoms : List Atom} {found : Kind × Nat}
    (h : longest? c atoms = some found) : isBlank c = false ∧ startsComment c = false := by
  constructor
  · rw [Bool.eq_false_iff]
    intro hblank
    rcases blank_cases hblank with rfl | rfl | rfl | rfl <;> cases h
  · rw [Bool.eq_false_iff]
    intro hcomment
    rcases comment_cases hcomment with rfl | rfl <;> cases h

end Lexeme

open Lexeme in
/-- A text of a pattern is the longest lexeme where it stands in front of a blank. -/
theorem Kind.pattern_longest {kind : Kind} {text : List Char} (h : text ∈ kind.pattern) :
    ∃ c rest, text = c :: rest ∧ ∀ more, AtBlank more →
      longest? c (rest.map .char ++ more) = some (kind, text.length) := by
  cases kind with
  | directive =>
    obtain ⟨_, hword, rfl⟩ := mem_sign_mul.1 h
    obtain ⟨c, rest, rfl, hc, hrest⟩ := mem_word.1 hword
    exact ⟨_, _, rfl, fun more hmore => longest?_directive hc hrest hmore⟩
  | identifier =>
    obtain ⟨c, rest, rfl, hc, hrest⟩ := mem_word.1 h
    exact ⟨_, _, rfl, fun more hmore => longest?_identifier hc hrest hmore⟩
  | register =>
    obtain ⟨_, hword, rfl⟩ := mem_sign_mul.1 h
    obtain ⟨c, rest, rfl, hc, hrest⟩ := mem_word.1 hword
    exact ⟨_, _, rfl, fun more hmore => longest?_register hc hrest hmore⟩
  | number =>
    rcases (Language.mem_add _ _ _).1 h with hhex | hdecimal
    · obtain ⟨_, htail, rfl⟩ := mem_sign_mul.1 hhex
      obtain ⟨x, hx, _, hword, rfl⟩ := mem_one_mul.1 htail
      obtain ⟨c, rest, rfl, hc, hrest⟩ := mem_word.1 hword
      exact ⟨_, _, rfl, fun more hmore => longest?_hexadecimal hx hc hrest hmore⟩
    · obtain ⟨c, rest, rfl, hc, hrest⟩ := mem_word.1 hdecimal
      exact ⟨_, _, rfl, fun more hmore => longest?_decimal hc hrest hmore⟩
  | stringLiteral =>
    obtain ⟨body, hbody, rfl⟩ := mem_stringLiteral.1 h
    exact ⟨_, _, rfl, fun more _ => longest?_string hbody more⟩
  | error => cases h
  | eof => cases h
  | _ =>
    obtain rfl := mem_sign.1 h
    exact ⟨_, _, rfl, fun _ _ => rfl⟩

/-! Printing. -/

def printed (tokens : List (Kind × String)) : List Char :=
  [' '].intercalate (tokens.map fun x => x.2.toList)

theorem printed_cons (x y : Kind × String) (tokens : List (Kind × String)) :
    printed (x :: y :: tokens) = x.2.toList ++ ' ' :: printed (y :: tokens) := by
  simp [printed, List.intercalate]

@[simp] theorem textOf_chars (text : List Char) : textOf (text.map .char) = String.ofList text := by
  have hchars : (text.map Atom.char).filterMap Atom.char? = text := by
    rw [List.filterMap_map]
    exact List.filterMap_some
  rw [textOf, hchars]

namespace Scanner

variable {s : Scanner} {kind : Kind} {text : List Char} {more : List Atom}

theorem tokens_lexeme (hcode : s.construct = .code) (hrest : s.rest = text.map .char ++ more)
    (htext : text ∈ kind.pattern) (hmore : Lexeme.AtBlank more) :
    ∃ (t : Token) (u : Scanner), s.tokens = t :: u.tokens ∧
      t.reading = (kind, String.ofList text) ∧ u.construct = .code ∧ u.rest = more := by
  obtain ⟨c, rest, rfl, hlongest⟩ := Kind.pattern_longest htext
  have hfound := hlongest more hmore
  obtain ⟨hblank, hcomment⟩ := Lexeme.longest?_start hfound
  have hskip : s.skip = s := by rw [skip_code hcode, skipTrivia_token hrest hblank hcomment]
  have hcut : s.cutToken = s.cut kind (c :: rest).length := cutToken_lexeme hrest hfound
  have htake : s.rest.take (c :: rest).length = (c :: rest).map .char := by
    rw [hrest, List.take_left' (List.length_map _)]
  have hdrop : s.rest.drop (c :: rest).length = more := by
    rw [hrest, List.drop_left' (List.length_map _)]
  refine ⟨_, _, tokens_of_cut hskip hcut (Lexeme.longest?_kind hfound).2, ?_, hcode, hdrop⟩
  simp only [Token.reading, htake, textOf_chars]

theorem tokens_blank (hcode : s.construct = .code) (hrest : s.rest = .char ' ' :: more) :
    s.tokens = (s.advance 1).tokens := by
  have hcode' : (s.advance 1).construct = .code := hcode
  have hmore : (s.advance 1).rest = more := by
    rw [advance, hrest]
    rfl
  rw [tokens_blanks hcode, tokens_blanks hcode', advance_advance, hrest, hmore,
    Lexeme.run_char rfl, Nat.add_comm]

theorem tokens_printed {tokens : List (Kind × String)}
    (h : ∀ x ∈ tokens, x.2.toList ∈ x.1.pattern) (hcode : s.construct = .code)
    (hrest : s.rest = (printed tokens).map .char) :
    s.tokens.map Token.reading = tokens ++ [(.eof, "")] := by
  induction tokens generalizing s with
  | nil =>
    rw [tokens_of_end (skip_nil hrest).1]
    rfl
  | cons x tokens ih =>
    obtain ⟨hx, hmore⟩ := List.forall_mem_cons.1 h
    -- Behind the last token the text ends, behind any other one stands a blank.
    cases tokens with
    | nil =>
      have hlast : s.rest = x.2.toList.map .char ++ [] := by simpa [printed] using hrest
      obtain ⟨t, u, htokens, hreading, hcode', hrest'⟩ :=
        tokens_lexeme hcode hlast hx (.inl rfl)
      rw [htokens, List.map_cons, hreading, ih hmore hcode' hrest', String.ofList_toList]
      rfl
    | cons y tokens =>
      rw [printed_cons, List.map_append] at hrest
      obtain ⟨t, u, htokens, hreading, hcode', hrest'⟩ :=
        tokens_lexeme hcode hrest hx (.inr ⟨_, rfl⟩)
      have hbehind : (u.advance 1).construct = .code := hcode'
      have hnext : (u.advance 1).rest = (printed (y :: tokens)).map .char := by
        rw [advance, hrest']
        rfl
      rw [htokens, List.map_cons, hreading, tokens_blank hcode' hrest', ih hmore hbehind hnext,
        String.ofList_toList]
      rfl

end Scanner

/-- Whatever tokens are printed, each with a text of its kind's pattern and with one blank
between each two of them, the scanner reads the same kinds and texts, and then the end. -/
theorem tokenize_printed (tokens : List (Kind × String))
    (h : ∀ x ∈ tokens, x.2.toList ∈ x.1.pattern) :
    (tokenize (Utf8.encode (printed tokens))).map Token.reading = tokens ++ [(.eof, "")] :=
  Scanner.tokens_printed h rfl (Utf8.decode_encode _)

/-- Names with dots and dollar signs, numbers of both kinds, an end of line, and a string with a
quote, a comment, a NUL and a letter beyond ASCII in it. -/
theorem tokenize_printed_line :
    let tokens : List (Kind × String) :=
      [(.directive, ".db"), (.stringLiteral, "\"\\\" ;é\x00\""), (.newline, "\n"),
        (.identifier, "a.b$"), (.register, "%r0"), (.number, "0x1F"), (.number, "010")]
    (∀ x ∈ tokens, x.2.toList ∈ x.1.pattern) ∧
    (tokenize (Utf8.encode (printed tokens))).map Token.reading = tokens ++ [(.eof, "")] := by
  intro tokens
  have hbody : ['\\', '"', ' ', ';', 'é', '\x00'] ∈ quotable∗ := by
    refine Language.mem_kstar.2 ⟨[['\\', '"'], [' '], [';'], ['é'], ['\x00']], rfl, ?_⟩
    have hplain {c : Char} (hc : (c != '"' && c != '\\' && c != '\n') = true) : [c] ∈ quotable :=
      .inl ⟨c, hc, rfl⟩
    have hescape : ['\\', '"'] ∈ quotable := .inr (mem_sign_mul.2 ⟨['"'], ⟨'"', rfl, rfl⟩, rfl⟩)
    simp [hescape, hplain]
  have hdirective : ".db".toList ∈ Kind.directive.pattern :=
    mem_sign_mul.2 ⟨_, mem_word.2 ⟨'d', ['b'], rfl, rfl, List.all_eq_true.1 rfl⟩, rfl⟩
  have hstring : "\"\\\" ;é\x00\"".toList ∈ Kind.stringLiteral.pattern :=
    mem_sign_mul.2 ⟨_, Language.mem_mul.2 ⟨_, hbody, _, rfl, rfl⟩, rfl⟩
  have hidentifier : "a.b$".toList ∈ Kind.identifier.pattern :=
    mem_word.2 ⟨'a', ['.', 'b', '$'], rfl, rfl, List.all_eq_true.1 rfl⟩
  have hregister : "%r0".toList ∈ Kind.register.pattern :=
    mem_sign_mul.2 ⟨_, mem_word.2 ⟨'r', ['0'], rfl, rfl, List.all_eq_true.1 rfl⟩, rfl⟩
  have hhexadecimal : "0x1F".toList ∈ Kind.number.pattern :=
    .inl (mem_sign_mul.2 ⟨_, mem_one_mul.2 ⟨'x', rfl, _,
      mem_word.2 ⟨'1', ['F'], rfl, rfl, List.all_eq_true.1 rfl⟩, rfl⟩, rfl⟩)
  have hdecimal : "010".toList ∈ Kind.number.pattern :=
    .inr (mem_word.2 ⟨'0', ['1', '0'], rfl, rfl, List.all_eq_true.1 rfl⟩)
  have hpatterns : ∀ x ∈ tokens, x.2.toList ∈ x.1.pattern := by
    simp only [tokens, List.forall_mem_cons]
    exact ⟨hdirective, hstring, rfl, hidentifier, hregister, hhexadecimal, hdecimal,
      List.forall_mem_nil _⟩
  exact ⟨hpatterns, tokenize_printed tokens hpatterns⟩

end LabelGraph
