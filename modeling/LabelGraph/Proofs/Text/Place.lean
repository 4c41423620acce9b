import LabelGraph.Proofs.Text.Stray
import LabelGraph.Text.Position
import Mathlib.Data.List.DropRight
import Mathlib.Data.Set.Card

/-!
The true line and column of an offset, counted in the text itself: lines by its line feeds,
columns by its characters and its bytes outside UTF-8. A position that is moved from the start
of a text over its atoms is the true one, wherever it stops.
-/

namespace LabelGraph

namespace Utf8

/-- The bytes from `i` up to `j` fill one column: a character, or a byte outside UTF-8. -/
def Column (source : List UInt8) (i j : Nat) : Prop :=
  Stray source i ∧ j = i + 1 ∨
    ∃ before c after, source = before ++ String.utf8EncodeChar c ++ after ∧ before.length = i ∧
      j = i + c.utf8Size

def lineStart (source : List UInt8) (k : Nat) : Nat :=
  ((source.take k).rdropWhile (· != 0x0A)).length

/-- Where the columns start that lie in front of `k` in its line. -/
def columnsBefore (source : List UInt8) (k : Nat) : Set Nat :=
  {i | lineStart source k ≤ i ∧ ∃ j ≤ k, Column source i j}

end Utf8

noncomputable def Position.ofOffset (source : List UInt8) (k : Nat) : Position where
  line := 1 + (source.take k).count 0x0A
  column := 1 + (Utf8.columnsBefore source k).ncard
  offset := k

namespace Atom

/-! Lines. -/

def lines (atoms : List Atom) : List Atom := atoms.rdropWhile (!·.isFeed)

def lastLine (atoms : List Atom) : List Atom := atoms.rtakeWhile (!·.isFeed)

section Lines

variable {atoms : List Atom}

theorem lines_append_lastLine (atoms : List Atom) : lines atoms ++ lastLine atoms = atoms :=
  List.rdropWhile_append_rtakeWhile ..

theorem lines_concat (atoms : List Atom) (a : Atom) :
    lines (atoms ++ [a]) = if a.isFeed then atoms ++ [a] else lines atoms := by
  rw [lines, List.rdropWhile_concat]
  cases a.isFeed <;> rfl

theorem lastLine_concat (atoms : List Atom) (a : Atom) :
    lastLine (atoms ++ [a]) = if a.isFeed then [] else lastLine atoms ++ [a] := by
  rw [lastLine, List.rtakeWhile_concat]
  cases a.isFeed <;> rfl

theorem isFeed_iff {a : Atom} : a.isFeed ↔ a = .char '\n' := beq_iff_eq

theorem not_feed_bytes {a : Atom} (hstray : ∀ b, a = .stray b → 0x80 ≤ b.toNat)
    (ha : a.isFeed = false) : (0x0A : UInt8) ∉ a.bytes := by
  intro hmem
  obtain ⟨i, hi⟩ := List.mem_iff_getElem?.1 hmem
  have hfeed := ((Utf8.feed_bytes hstray i).1 hi).1
  rw [ha] at hfeed
  cases hfeed

theorem count_feed (h : ∀ b, .stray b ∈ atoms → 0x80 ≤ b.toNat) :
    (bytesOf atoms).count 0x0A = atoms.countP isFeed := by
  induction atoms with
  | nil => rfl
  | cons a atoms ih =>
    have hmore := ih fun b hb => h b (List.mem_cons_of_mem a hb)
    rw [bytesOf_cons, List.count_append, hmore, List.countP_cons, Nat.add_comm]
    by_cases ha : a.isFeed
    · rw [if_pos ha, isFeed_iff.1 ha]
      rfl
    · have hnone := not_feed_bytes (a := a) (fun b hb => h b (by simp [hb])) (by simpa using ha)
      rw [if_neg ha, List.count_eq_zero.2 hnone]

/-- The last line feed of a text ends its whole lines. -/
theorem bytesOf_lines (h : ∀ b, .stray b ∈ atoms → 0x80 ≤ b.toNat) :
    (bytesOf atoms).rdropWhile (· != 0x0A) = bytesOf (lines atoms) := by
  induction atoms using List.reverseRecOn with
  | nil => rfl
  | append_singleton atoms a ih =>
    have hmore := ih fun b hb => h b (List.mem_append_left _ hb)
    rw [lines_concat, bytesOf_append]
    by_cases ha : a.isFeed
    · rw [if_pos ha, bytesOf_append, isFeed_iff.1 ha]
      exact List.rdropWhile_concat_neg _ _ _ (by simp)
    · have hnone := not_feed_bytes (a := a) (fun b hb => h b (by simp [hb])) (by simpa using ha)
      have hall : ∀ b ∈ (bytesOf [a]).reverse, b != 0x0A := by
        intro b hb
        rw [bne_iff_ne]
        rintro rfl
        exact hnone (by simpa [bytesOf] using hb)
      rw [if_neg ha, ← hmore, List.rdropWhile, List.reverse_append,
        List.dropWhile_append_of_pos hall]
      rfl

end Lines

/-! Places of the atoms. -/

section Places

variable {p : Atom → Bool} {offset k : Nat} {atoms : List Atom}

theorem mem_places_iff :
    k ∈ places p offset atoms ↔
      ∃ before a after, atoms = before ++ a :: after ∧ p a ∧ k = offset + extent before := by
  induction atoms generalizing offset with
  | nil => simp [places]
  | cons a atoms ih =>
    rw [mem_places_cons, ih]
    constructor
    · rintro (⟨ha, rfl⟩ | ⟨before, b, after, rfl, hb, rfl⟩)
      · exact ⟨[], a, atoms, rfl, ha, rfl⟩
      · exact ⟨a :: before, b, after, rfl, hb, by simp [Nat.add_assoc]⟩
    · rintro ⟨before, b, after, hatoms, hb, rfl⟩
      cases before with
      | nil =>
        obtain ⟨rfl, rfl⟩ := List.cons.inj hatoms
        exact .inl ⟨hb, rfl⟩
      | cons c before =>
        obtain ⟨rfl, rfl⟩ := List.cons.inj hatoms
        exact .inr ⟨before, b, after, rfl, hb, by simp [Nat.add_assoc]⟩

theorem places_ascend (p : Atom → Bool) (offset : Nat) (atoms : List Atom) :
    (places p offset atoms).Pairwise (· < ·) := by
  induction atoms generalizing offset with
  | nil => exact List.Pairwise.nil
  | cons a atoms ih =>
    rw [places]
    split
    · refine List.pairwise_cons.2 ⟨?_, ih _⟩
      intro k hk
      have hpos := a.size_pos
      have := (places_bounds hk).1
      omega
    · exact ih _

@[simp] theorem places_length (offset : Nat) (atoms : List Atom) :
    (places (fun _ => true) offset atoms).length = atoms.length := by
  induction atoms generalizing offset with
  | nil => rfl
  | cons a atoms ih => exact congrArg (· + 1) (ih (offset + a.size))

/-- Of two beginnings of a text, the one of fewer bytes is a beginning of the other one. -/
theorem prefix_of_extent {first second : List Atom} (h : first <+: atoms) (h' : second <+: atoms)
    (hle : extent first ≤ extent second) : first <+: second := by
  refine (List.prefix_or_prefix_of_prefix h h').elim id ?_
  rintro ⟨more, rfl⟩
  cases more with
  | nil => simp
  | cons a more =>
    have hpos := a.size_pos
    rw [extent_append, extent_cons] at hle
    omega

end Places

end Atom

open Atom

/-- A position moved over atoms from the start counts their line feeds, and what stands behind
the last one. -/
theorem Position.start_advance (atoms : List Atom) :
    Position.start.advance atoms =
      { line := 1 + atoms.countP isFeed, column := 1 + (lastLine atoms).length
        offset := extent atoms } := by
  induction atoms using List.reverseRecOn with
  | nil => rfl
  | append_singleton atoms a ih =>
    rw [advance_append, ih, List.countP_append, List.countP_singleton, lastLine_concat,
      extent_append]
    change Position.after _ a = _
    by_cases ha : a.isFeed
    · rw [if_pos ha, if_pos ha, isFeed_iff.1 ha]
      rfl
    · have hne : a ≠ .char '\n' := fun h => ha (isFeed_iff.2 h)
      rw [if_neg ha, if_neg ha, after, if_neg hne, List.length_append, List.length_singleton]
      rfl

namespace Utf8

variable {source : List UInt8} {front back : List Atom}

theorem column_iff {i j : Nat} :
    Column source i j ↔ ∃ before a after, decode source = before ++ a :: after ∧
      i = extent before ∧ j = i + a.size := by
  constructor
  · rintro (⟨hstray, rfl⟩ | ⟨before, c, after, rfl, rfl, rfl⟩)
    · obtain ⟨before, a, after, hdecode, ha, hi⟩ := mem_places_iff.1 (stray_iff.1 hstray)
      rw [Nat.zero_add] at hi
      cases a with
      | char c => cases ha
      | stray b => exact ⟨before, .stray b, after, hdecode, hi, rfl⟩
    · obtain ⟨front, hdecode, hfront⟩ := decode_at before c after
      exact ⟨front, .char c, decode after, hdecode, by rw [← hfront, bytesOf_length], rfl⟩
  · rintro ⟨before, a, after, hdecode, rfl, rfl⟩
    cases a with
    | stray b =>
      refine .inl ⟨stray_iff.2 (mem_places_iff.2 ⟨before, .stray b, after, hdecode, rfl, ?_⟩), rfl⟩
      exact (Nat.zero_add _).symm
    | char c =>
      refine .inr ⟨bytesOf before, c, bytesOf after, ?_, bytesOf_length before, rfl⟩
      rw [← bytesOf_decode source, hdecode, bytesOf_append, bytesOf_cons, List.append_assoc]
      rfl

theorem take_extent (h : decode source = front ++ back) :
    source.take (extent front) = bytesOf front := by
  rw [← bytesOf_decode source, h, bytesOf_append, ← bytesOf_length, List.take_left]

theorem stray_of_front (h : decode source = front ++ back) :
    ∀ b, .stray b ∈ front → 0x80 ≤ b.toNat :=
  fun _ hb => stray_of_decode (h ▸ List.mem_append_left back hb)

theorem lineStart_eq (h : decode source = front ++ back) :
    lineStart source (extent front) = extent (lines front) := by
  rw [lineStart, take_extent h, bytesOf_lines (stray_of_front h), bytesOf_length]

/-- The columns in front of an atom are the atoms in front of it in its line. -/
theorem columnsBefore_eq (h : decode source = front ++ back) :
    columnsBefore source (extent front) =
      {i | i ∈ places (fun _ => true) (extent (lines front)) (lastLine front)} := by
  have hfront := lines_append_lastLine front
  have hwhole : lines front <+: front := List.rdropWhile_prefix ..
  rw [columnsBefore, lineStart_eq h]
  generalize lines front = whole at hfront hwhole ⊢
  generalize lastLine front = line at hfront ⊢
  ext i
  rw [Set.mem_ofPred_eq, Set.mem_ofPred_eq, mem_places_iff]
  constructor
  · rintro ⟨hstart, j, hj, hcolumn⟩
    obtain ⟨before, a, after, hdecode, rfl, rfl⟩ := column_iff.1 hcolumn
    -- The atom is within the front, and behind its whole lines.
    have hwithin : before ++ [a] <+: front := by
      have hbegin : before ++ [a] <+: decode source := ⟨after, by simp [hdecode]⟩
      refine prefix_of_extent hbegin ⟨back, h.symm⟩ ?_
      rwa [extent_append]
    have hbehind : whole <+: before :=
      prefix_of_extent (hwhole.trans ⟨back, h.symm⟩) ⟨a :: after, hdecode.symm⟩ hstart
    obtain ⟨middle, rfl⟩ := hbehind
    obtain ⟨more, hmore⟩ := hwithin
    refine ⟨middle, a, more, ?_, rfl, extent_append ..⟩
    have hsame : whole ++ line = whole ++ (middle ++ a :: more) := by
      rw [hfront, ← hmore]
      simp
    exact List.append_cancel_left hsame
  · rintro ⟨before, a, after, rfl, -, rfl⟩
    refine ⟨Nat.le_add_right .., _, ?_, column_iff.2 ⟨whole ++ before, a, after ++ back, ?_,
      (extent_append ..).symm, rfl⟩⟩
    · rw [← hfront, extent_append, extent_append, extent_cons]
      omega
    · rw [h, ← hfront]
      simp

theorem columnsBefore_ncard (h : decode source = front ++ back) :
    (columnsBefore source (extent front)).ncard = (lastLine front).length := by
  have hnodup : (places (fun _ => true) (extent (lines front)) (lastLine front)).Nodup :=
    (places_ascend ..).imp Nat.ne_of_lt
  rw [columnsBefore_eq h, ← List.coe_toFinset, Set.ncard_coe_finset,
    List.toFinset_card_of_nodup hnodup, places_length]

end Utf8

/-- A position moved over the first atoms of a text is that of the offset it comes to. -/
theorem Position.advance_eq_ofOffset {source : List UInt8} {front back : List Atom}
    (h : Utf8.decode source = front ++ back) :
    Position.start.advance front = ofOffset source (extent front) := by
  rw [start_advance, ofOffset, Utf8.take_extent h, count_feed (Utf8.stray_of_front h),
    Utf8.columnsBefore_ncard h]

end LabelGraph
