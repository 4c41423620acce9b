import LabelGraph.Proofs.Text.Slice
import LabelGraph.Proofs.Token.Construct

/-!
Where an open construct closes, as a byte offset. The bytes of an open string are looked at
by index. A backslash takes one byte with it, and when a longer character follows, the loop
goes on in the midst of it. There it finds nothing to stop at, so it stops where the
characters say.
-/

namespace LabelGraph

open Utf8

namespace Construct

def closeQuote (bytes : List UInt8) (i : Nat) : Option Nat :=
  match _found : bytes[i]? with
  | none => none
  | some b =>
    if b = 0x22 then some (i + 1)
    else if b = 0x0A then some i
    else if b = 0x5C ∧ bytes[i + 1]? ≠ some 0x0A then closeQuote bytes (i + 2)
    else closeQuote bytes (i + 1)
termination_by bytes.length - i
decreasing_by
  all_goals
    have := (List.getElem?_eq_some_iff.1 _found).1
    omega

def closeCommentAfter (i : Nat) : List Char → Option Nat
  | [] => none
  | c :: text =>
    if c = '\n' ∨ c = '\x00' then some i else closeCommentAfter (i + c.utf8Size) text

/-- The number of bytes of a valid text that still belong to the construct. There is none if
the construct is open at the end of the text. -/
def closeOffset? : Construct → List Char → Option Nat
  | .code, _ => some 0
  | .comment, text => closeCommentAfter 0 text
  | .string, text => closeQuote (encode text) 0

theorem closeQuote_end (bytes : List UInt8) {i : Nat} (h : bytes.length ≤ i) :
    closeQuote bytes i = none := by
  rw [closeQuote]
  split
  · rfl
  · next hbyte => exact absurd (List.getElem?_eq_some_iff.1 hbyte).1 (Nat.not_lt.2 h)

theorem closeQuote_at (front back : List UInt8) (b : UInt8) :
    closeQuote (front ++ b :: back) front.length =
      if b = 0x22 then some (front.length + 1)
      else if b = 0x0A then some front.length
      else if b = 0x5C ∧ back.head? ≠ some 0x0A then
        closeQuote (front ++ b :: back) (front.length + 2)
      else closeQuote (front ++ b :: back) (front.length + 1) := by
  have hbyte : (front ++ b :: back)[front.length]? = some b := by simp
  have hnext : (front ++ b :: back)[front.length + 1]? = back.head? := by
    rw [List.getElem?_append_right (by omega), Nat.add_sub_cancel_left, List.getElem?_cons_succ,
      List.head?_eq_getElem?]
  rw [closeQuote]
  split
  · next hnone =>
    rw [hbyte] at hnone
    cases hnone
  · next hsome =>
    rw [hbyte] at hsome
    rw [← Option.some.inj hsome, hnext]

def Passed (b : UInt8) : Prop := b ≠ 0x22 ∧ b ≠ 0x0A ∧ b ≠ 0x5C

theorem closeQuote_pass {passed : List UInt8} (h : ∀ b ∈ passed, Passed b)
    (front back : List UInt8) :
    closeQuote (front ++ (passed ++ back)) front.length =
      closeQuote (front ++ (passed ++ back)) (front.length + passed.length) := by
  induction passed generalizing front with
  | nil => rfl
  | cons b passed ih =>
    obtain ⟨⟨hquote, hfeed, hescape⟩, hpassed⟩ := List.forall_mem_cons.1 h
    have hrest := ih hpassed (front ++ [b])
    rw [List.append_assoc, List.length_append, List.length_singleton, Nat.add_assoc,
      Nat.add_comm 1] at hrest
    rw [List.cons_append, closeQuote_at, if_neg hquote, if_neg hfeed,
      if_neg fun hpair => hescape hpair.1]
    exact hrest

theorem passed_of_char {c : Char} (hquote : c ≠ '"') (hfeed : c ≠ '\n') (hescape : c ≠ '\\') :
    ∀ b ∈ String.utf8EncodeChar c, Passed b := by
  have hsign {d : Char} {b : UInt8} (hb : b ∈ String.utf8EncodeChar c) (hne : c ≠ d)
      (hd : d.toNat < 0x80) : b.toNat ≠ d.toNat := by
    intro heq
    exact hne (Char.toNat_inj.1 ((encode_of_ascii hb (by omega)).1.trans heq))
  intro b hb
  refine ⟨?_, ?_, ?_⟩
  · rintro rfl
    exact hsign hb hquote (by decide) rfl
  · rintro rfl
    exact hsign hb hfeed (by decide) rfl
  · rintro rfl
    exact hsign hb hescape (by decide) rfl

/-- Behind the first byte of a character there is nothing to stop at. -/
theorem passed_of_tail {c : Char} {lead : UInt8} {bytes : List UInt8}
    (h : String.utf8EncodeChar c = lead :: bytes) : ∀ b ∈ bytes, Passed b := by
  intro b hb
  obtain ⟨lead', bytes', hencode, -, hbytes⟩ := encode_bytes c
  obtain ⟨-, rfl⟩ := List.cons.inj (h.symm.trans hencode)
  have hhigh := (hbytes b hb).1
  refine ⟨?_, ?_, ?_⟩ <;>
  · rintro rfl
    exact absurd hhigh (by decide)

/-- The loop over the bytes of a text stops where the characters say. -/
def StopsAlike (front : List UInt8) (text : List Char) : Prop :=
  closeQuote (front ++ encode text) front.length =
    (closeStringAfter 0 (text.map .char)).map fun n => front.length + width (text.take n)

/-- Where the loop comes to the end of some characters without a stop, so do the characters. -/
theorem StopsAlike.behind {front : List UInt8} {passed more : List Char}
    (h : StopsAlike (front ++ encode passed) more)
    (hcount : closeStringAfter 0 ((passed ++ more).map .char) =
      closeStringAfter passed.length (more.map .char))
    (hloop : closeQuote (front ++ encode (passed ++ more)) front.length =
      closeQuote (front ++ encode (passed ++ more)) (front.length + (encode passed).length)) :
    StopsAlike front (passed ++ more) := by
  have hencode : encode (passed ++ more) = encode passed ++ encode more := List.flatMap_append
  rw [StopsAlike, List.append_assoc, List.length_append, ← hencode] at h
  rw [StopsAlike, hloop, h, hcount, ← Nat.add_zero passed.length, closeStringAfter_add,
    Option.map_map]
  congr 1
  funext n
  simp [List.take_length_add_append, Nat.add_assoc]

theorem StopsAlike.char {front : List UInt8} {c : Char} {text : List Char}
    (h : StopsAlike (front ++ encode [c]) text) (hquote : c ≠ '"') (hfeed : c ≠ '\n')
    (hescape : c ≠ '\\') : StopsAlike front (c :: text) := by
  refine h.behind (closeStringAfter_char hquote hfeed hescape 0 _) ?_
  have hone : encode [c] = String.utf8EncodeChar c := List.append_nil _
  rw [hone]
  exact closeQuote_pass (passed_of_char hquote hfeed hescape) front (encode text)

/-- A backslash takes the first byte of the next character, and the others are passed. -/
theorem StopsAlike.escape {front : List UInt8} {d : Char} {more : List Char}
    (h : StopsAlike (front ++ encode ['\\', d]) more) (hd : d ≠ '\n') :
    StopsAlike front ('\\' :: d :: more) := by
  refine h.behind (closeStringAfter_escape hd 0 _) ?_
  obtain ⟨lead, bytes, hencode, -, -⟩ := encode_bytes d
  have hlead : lead ≠ 0x0A := by
    rintro rfl
    exact hd (char_of_feed (hencode ▸ List.mem_cons_self ..)).1
  have htext : encode ('\\' :: d :: more) = 0x5C :: lead :: (bytes ++ encode more) :=
    congrArg (fun l => 0x5C :: (l ++ encode more)) hencode
  have htaken : (encode ['\\', d]).length = 2 + bytes.length := by
    have hpair : encode ['\\', d] = 0x5C :: (String.utf8EncodeChar d ++ []) := rfl
    rw [hpair, hencode, List.append_nil, List.length_cons, List.length_cons]
    omega
  have hpass := closeQuote_pass (passed_of_tail hencode) (front ++ [0x5C, lead]) (encode more)
  rw [List.append_assoc, List.length_append, Nat.add_assoc] at hpass
  rw [List.cons_append, List.cons_append, List.nil_append, htext, htaken, closeQuote_at,
    if_neg (by decide), if_neg (by decide), if_pos]
  · exact hpass
  · exact ⟨rfl, fun heq => hlead (Option.some.inj heq)⟩

theorem stopsAlike_escapeEnd (front : List UInt8) : StopsAlike front ['\\'] := by
  refine (closeQuote_at front [] 0x5C).trans ?_
  rw [if_neg (by decide), if_neg (by decide), if_pos (by decide)]
  exact closeQuote_end _ (by simp)

theorem stopsAlike_escapeFeed (front : List UInt8) (more : List Char) :
    StopsAlike front ('\\' :: '\n' :: more) := by
  have hfeed := closeQuote_at (front ++ [0x5C]) (encode more) 0x0A
  rw [List.append_assoc, List.length_append] at hfeed
  refine (closeQuote_at front (0x0A :: encode more) 0x5C).trans ?_
  rw [if_neg (by decide), if_neg (by decide), if_neg (by simp), List.map_cons, List.map_cons,
    closeStringAfter_escapeFeed]
  exact hfeed

theorem stopsAlike (front : List UInt8) (text : List Char) : StopsAlike front text := by
  induction hn : text.length using Nat.strongRecOn generalizing front text with
  | ind n ih =>
    subst hn
    cases text with
    | nil => exact closeQuote_end _ (by simp [encode])
    | cons c text =>
      by_cases hquote : c = '"'
      · subst hquote
        exact closeQuote_at front (encode text) 0x22
      by_cases hfeed : c = '\n'
      · subst hfeed
        exact closeQuote_at front (encode text) 0x0A
      by_cases hescape : c = '\\'
      case neg => exact (ih text.length (by simp) _ text rfl).char hquote hfeed hescape
      subst hescape
      cases text with
      | nil => exact stopsAlike_escapeEnd front
      | cons d more =>
        by_cases hd : d = '\n'
        · subst hd
          exact stopsAlike_escapeFeed front more
        · have hlength : more.length < ('\\' :: d :: more).length :=
            Nat.lt_add_of_pos_right Nat.two_pos
          exact (ih more.length hlength _ more rfl).escape hd

/-- An open string closes as a complete literal does, or else at the line feed that ends its
line. -/
theorem closeStringAfter_cases {count n : Nat} {atoms : List Atom}
    (h : closeStringAfter count atoms = some n) :
    Lexeme.quotedAfter count atoms = some n ∨
      n = count + Lexeme.run (· != '\n') atoms ∧
        ∃ more, atoms.drop (Lexeme.run (· != '\n') atoms) = .char '\n' :: more := by
  fun_induction closeStringAfter count atoms with
  | case1 => exact .inl h
  | case2 count rest =>
    cases h
    rw [Lexeme.run_stop rfl]
    exact .inr ⟨rfl, rest, rfl⟩
  | case3 count rest =>
    cases h
    rw [Lexeme.run_char rfl, Lexeme.run_stop rfl]
    exact .inr ⟨rfl, rest, rfl⟩
  | case4 count c rest hc ih =>
    have hrun : Lexeme.run (· != '\n') (.char '\\' :: .char c :: rest) =
        Lexeme.run (· != '\n') rest + 2 := by
      rw [Lexeme.run_char rfl, Lexeme.run_char (p := (· != '\n')) (bne_iff_ne.2 hc)]
    rw [Lexeme.quotedAfter, if_neg hc, hrun]
    exact (ih h).imp_right (And.imp_left fun heq => by omega)
  | case5 count c rest hquote hfeed hescape ih =>
    rw [Lexeme.run_char (p := (· != '\n')) (bne_iff_ne.2 hfeed)]
    by_cases hc : c = '\\'
    case neg =>
      rw [Lexeme.quotedAfter_char hquote hfeed hc]
      exact (ih h).imp_right (And.imp_left fun heq => by omega)
    subst hc
    cases rest with
    | nil => cases h
    | cons a rest =>
      cases a with
      | char d => exact absurd rfl (hescape d rest rfl)
      | stray b => cases h
  | case6 => cases h
  | case7 => cases h

theorem closeCommentAfter_eq (i : Nat) (text : List Char) :
    closeCommentAfter i text =
      (comment.close? (text.map .char)).map fun n => i + width (text.take n) := by
  induction text generalizing i with
  | nil => rfl
  | cons c text ih =>
    by_cases hc : Lexeme.isCommentChar c
    · have hpass : ¬(c = '\n' ∨ c = '\x00') := by simpa [Lexeme.isCommentChar] using hc
      rw [closeCommentAfter, if_neg hpass, ih, List.map_cons, close?_comment_char hc,
        Option.map_map]
      congr 1
      funext n
      simp [Nat.add_assoc]
    · have hstop : Lexeme.isCommentChar c = false := eq_false_of_ne_true hc
      rw [closeCommentAfter, if_pos (Lexeme.stop_cases hstop), List.map_cons,
        close?_comment_stop hstop]
      rfl

theorem closeOffset?_eq (c : Construct) (text : List Char) :
    c.closeOffset? text = (c.close? (text.map .char)).map fun n => width (text.take n) := by
  cases c with
  | code => rfl
  | comment =>
    rw [closeOffset?, closeCommentAfter_eq]
    simp only [Nat.zero_add]
  | string =>
    have heq := stopsAlike [] text
    simp only [StopsAlike, List.nil_append, List.length_nil, Nat.zero_add] at heq
    exact heq

end Construct

end LabelGraph
