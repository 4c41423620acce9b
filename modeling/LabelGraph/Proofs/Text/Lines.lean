import LabelGraph.Proofs.Text.Place

/-!
Texts of whole lines. A line feed is a character by itself, wherever it stands. So what is in
front of it and what is behind it are decoded apart, and a position behind it depends on the
lines in front by their number and their bytes alone.
-/

namespace LabelGraph

open Atom

namespace Utf8

variable {source lines text : List UInt8}

/-- Every line of the text has its line feed. -/
def WholeLines (source : List UInt8) : Prop := source = [] ∨ source.getLast? = some 0x0A

instance (source : List UInt8) : Decidable (WholeLines source) :=
  inferInstanceAs (Decidable (_ ∨ _))

theorem char?_append {lead : UInt8} {bytes rest : List UInt8} {c : Char}
    (h : char? lead bytes = some (c, rest)) (more : List UInt8) :
    char? lead (bytes ++ more) = some (c, rest ++ more) := by
  obtain ⟨start, tail, hencode, hchar⟩ := char?_encode c (rest ++ more)
  have hbytes : lead :: bytes = start :: (tail ++ rest) := by rw [encode_char? h, hencode]; rfl
  obtain ⟨rfl, rfl⟩ := List.cons.inj hbytes
  rw [List.append_assoc]
  exact hchar

/-- The atoms that a text starts with are those of their own bytes. -/
theorem decode_front {front back : List Atom} (h : decode source = front ++ back) :
    decode (bytesOf front) = front := by
  induction front generalizing source with
  | nil => exact decode_nil
  | cons a front ih =>
    cases source with
    | nil =>
      rw [decode_nil] at h
      cases h
    | cons lead bytes =>
      cases found : char? lead bytes with
      | none =>
        rw [decode_stray found] at h
        obtain ⟨rfl, hmore⟩ := List.cons.inj h
        change decode bytes = front ++ back at hmore
        have hnone : char? lead (bytesOf front) = none := by
          refine Option.eq_none_iff_forall_ne_some.2 ?_
          rintro ⟨c, rest⟩ hsome
          have hbytes : bytes = bytesOf front ++ bytesOf back := by
            rw [← bytesOf_append, ← hmore, bytesOf_decode]
          rw [hbytes, char?_append hsome] at found
          cases found
        exact (decode_stray hnone).trans (congrArg _ (ih hmore))
      | some result =>
        obtain ⟨c, rest⟩ := result
        rw [decode_char found] at h
        obtain ⟨rfl, hmore⟩ := List.cons.inj h
        obtain ⟨start, tail, hencode, hchar⟩ := char?_encode c (bytesOf front)
        have hbytes : bytesOf (.char c :: front) = start :: (tail ++ bytesOf front) :=
          congrArg (· ++ bytesOf front) hencode
        rw [hbytes, decode_char hchar, ih hmore]

/-- What is in front of a character and what is behind it are decoded apart. -/
theorem decode_split (before : List UInt8) (c : Char) (after : List UInt8) :
    decode (before ++ String.utf8EncodeChar c ++ after) =
      decode before ++ .char c :: decode after := by
  obtain ⟨front, hdecode, hfront⟩ := decode_at before c after
  have hbefore := decode_front hdecode
  rw [hfront] at hbefore
  rw [hbefore]
  exact hdecode

theorem decode_feed (before after : List UInt8) :
    decode (before ++ [0x0A] ++ after) = decode before ++ .char '\n' :: decode after :=
  decode_split before '\n' after

theorem WholeLines.eq_append (h : WholeLines lines) :
    lines = [] ∨ ∃ before, lines = before ++ [0x0A] :=
  h.imp_right List.getLast?_eq_some_iff.1

/-- Whole lines are decoded apart from what follows them. -/
theorem WholeLines.decode_append (h : WholeLines lines) (text : List UInt8) :
    decode (lines ++ text) = decode lines ++ decode text := by
  obtain rfl | ⟨before, rfl⟩ := h.eq_append
  · rw [decode_nil]
    rfl
  · have hlines := decode_feed before []
    rw [List.append_nil, decode_nil] at hlines
    rw [decode_feed, hlines, List.append_assoc]
    rfl

theorem WholeLines.decode_last (h : WholeLines lines) :
    decode lines = [] ∨ (decode lines).getLast? = some (.char '\n') := by
  obtain rfl | ⟨before, rfl⟩ := h.eq_append
  · exact .inl decode_nil
  · have hlines := decode_feed before []
    rw [List.append_nil, decode_nil] at hlines
    right
    rw [hlines, List.getLast?_concat]

end Utf8

namespace Position

def behind (lines : List UInt8) (p : Position) : Position where
  line := p.line + lines.count 0x0A
  column := p.column
  offset := p.offset + lines.length

@[simp] theorem behind_behind (lines text : List UInt8) (p : Position) :
    (p.behind text).behind lines = p.behind (lines ++ text) := by
  simp only [behind, List.count_append, List.length_append, Nat.add_comm, Nat.add_left_comm]

@[simp] theorem after_behind (lines : List UInt8) (p : Position) (a : Atom) :
    (p.behind lines).after a = (p.after a).behind lines := by
  unfold after
  split
  · simp only [behind, Nat.add_right_comm]
  · simp only [behind, Nat.add_right_comm]

@[simp] theorem advance_behind (lines : List UInt8) (p : Position) (atoms : List Atom) :
    (p.behind lines).advance atoms = (p.advance atoms).behind lines := by
  induction atoms generalizing p with
  | nil => rfl
  | cons a atoms ih =>
    rw [advance, List.foldl_cons, after_behind]
    exact ih (p.after a)

/-- Behind whole lines a new line starts. -/
theorem start_advance_lines {lines : List UInt8} (h : Utf8.WholeLines lines) :
    start.advance (Utf8.decode lines) = start.behind lines := by
  have hcount : (Utf8.decode lines).countP isFeed = lines.count 0x0A := by
    rw [← count_feed fun _ => Utf8.stray_of_decode, Utf8.bytesOf_decode]
  have hextent : extent (Utf8.decode lines) = lines.length := by
    rw [← bytesOf_length, Utf8.bytesOf_decode]
  have hlast : lastLine (Utf8.decode lines) = [] := by
    obtain hnil | hfeed := h.decode_last
    · rw [hnil]
      rfl
    · obtain ⟨before, heq⟩ := List.getLast?_eq_some_iff.1 hfeed
      rw [heq, lastLine_concat]
      rfl
  rw [start_advance, hcount, hlast, hextent]
  simp only [behind, start, List.length_nil, Nat.zero_add, Nat.add_zero]

end Position

end LabelGraph
