import LabelGraph.Proofs.Token.Quote
import LabelGraph.Proofs.Token.Reader
import Mathlib.Order.Lattice

/-!
Joining the spans of a text. Positions of one text are ordered by line and column as they are by
offset, for both grow with every atom that is passed. So a span can be told by its offsets, and
joining two spans gives the least one that covers both.
-/

namespace LabelGraph

namespace Position

/-- The position is one that the scanner reports: its own after some calls, or an end of what it
answers. -/
def Reported (source : List UInt8) (p : Position) : Prop :=
  ∃ n, p = ((Scanner.ofBytes source).afterCalls n).cursor ∨
    p = ((Scanner.ofBytes source).call n).span.start ∨
    p = ((Scanner.ofBytes source).call n).span.stop

variable {source : List UInt8} {p q : Position}

theorem Reported.within (h : p.Reported source) : p.Within source := by
  obtain ⟨n, rfl | rfl | rfl⟩ := h
  · exact (Scanner.afterCalls_ahead _ n).within
  · exact (Scanner.call_within source n).1
  · exact (Scanner.call_within source n).2

theorem compare_swap (p q : Position) : (p.compare q).swap = q.compare p := by
  simp only [Position.compare, Ordering.swap_then, Nat.compare_swap]

namespace Within

/-- Positions of one text compare as their offsets do. -/
theorem compare_eq (hp : p.Within source) (hq : q.Within source) :
    p.compare q = compare p.offset q.offset := by
  have hle := hp.compare_isLE hq
  have hge := hq.compare_isLE hp
  rw [← compare_swap p q] at hge
  cases horder : p.compare q with
  | lt =>
    rw [horder] at hge
    exact (Nat.compare_eq_lt.2 (Nat.not_le.1 (of_decide_eq_false hge.symm))).symm
  | eq =>
    rw [horder] at hle hge
    exact (Nat.compare_eq_eq.2 (Nat.le_antisymm (of_decide_eq_true hle.symm)
      (of_decide_eq_true hge.symm))).symm
  | gt =>
    rw [horder] at hle
    exact (Nat.compare_eq_gt.2 (Nat.not_le.1 (of_decide_eq_false hle.symm))).symm

theorem eq_of_offset (hp : p.Within source) (hq : q.Within source) (h : p.offset = q.offset) :
    p = q := by
  have htrue : p = ofOffset source p.offset := hp.isTrue
  rw [htrue, h]
  exact hq.isTrue.symm

end Within

end Position

namespace Span

structure Within (source : List UInt8) (s : Span) : Prop where
  start : s.start.Within source
  stop : s.stop.Within source
  ordered : s.start.offset ≤ s.stop.offset

def Covers (a b : Span) : Prop :=
  a.start.offset ≤ b.start.offset ∧ b.stop.offset ≤ a.stop.offset

variable {source : List UInt8} {a b d : Span}

namespace Within

theorem eq_of_covers (ha : a.Within source) (hb : b.Within source) (hab : a.Covers b)
    (hba : b.Covers a) : a = b := by
  have hstart := ha.start.eq_of_offset hb.start (Nat.le_antisymm hab.1 hba.1)
  have hstop := ha.stop.eq_of_offset hb.stop (Nat.le_antisymm hba.2 hab.2)
  obtain ⟨start, stop⟩ := a
  cases hstart
  cases hstop
  rfl

theorem join_eq (ha : a.Within source) (hb : b.Within source) :
    a.join b =
      { start := if a.start.offset ≤ b.start.offset then a.start else b.start
        stop := if a.stop.offset ≤ b.stop.offset then b.stop else a.stop } := by
  rw [Span.join, ha.start.min_eq hb.start, ha.stop.max_eq hb.stop]

/-- A join starts where the first of the two spans does, and ends where the last of them does. -/
theorem join_offsets (ha : a.Within source) (hb : b.Within source) :
    (a.join b).start.offset = min a.start.offset b.start.offset ∧
      (a.join b).stop.offset = max a.stop.offset b.stop.offset := by
  simp only [ha.join_eq hb]
  constructor
  · split <;> omega
  · split <;> omega

theorem join (ha : a.Within source) (hb : b.Within source) : (a.join b).Within source := by
  refine { start := ?_, stop := ?_, ordered := ?_ }
  · simp only [ha.join_eq hb]
    split
    · exact ha.start
    · exact hb.start
  · simp only [ha.join_eq hb]
    split
    · exact hb.stop
    · exact ha.stop
  · obtain ⟨hstart, hstop⟩ := ha.join_offsets hb
    have := ha.ordered
    omega

theorem covers_join_iff (ha : a.Within source) (hb : b.Within source) :
    d.Covers (a.join b) ↔ d.Covers a ∧ d.Covers b := by
  obtain ⟨hstart, hstop⟩ := ha.join_offsets hb
  simp only [Covers, hstart, hstop]
  omega

end Within

theorem Covers.refl (a : Span) : a.Covers a := ⟨Nat.le_refl _, Nat.le_refl _⟩

end Span

abbrev TextSpan (source : List UInt8) := {s : Span // s.Within source}

/-- A span of a text is less than those that cover it. -/
instance (source : List UInt8) : PartialOrder (TextSpan source) where
  le a b := b.val.Covers a.val
  le_refl a := .refl a.val
  le_trans _ _ _ hab hbc := ⟨Nat.le_trans hbc.1 hab.1, Nat.le_trans hab.2 hbc.2⟩
  le_antisymm a b hab hba := Subtype.ext (a.property.eq_of_covers b.property hba hab)

instance (source : List UInt8) : SemilatticeSup (TextSpan source) where
  sup a b := ⟨a.val.join b.val, a.property.join b.property⟩
  le_sup_left a b := ((a.property.covers_join_iff b.property).1 (.refl _)).1
  le_sup_right a b := ((a.property.covers_join_iff b.property).1 (.refl _)).2
  sup_le a b _ hac hbc := (a.property.covers_join_iff b.property).2 ⟨hac, hbc⟩

/-- The positions that the scanner reports on a text, and all others that it comes by, are ordered
as their offsets are. So joining two spans of a text gives one that starts at the smaller offset
and ends at the larger one. It covers both and is covered by every span that does, and it makes no
difference which is joined first. -/
theorem span_joins (source : List UInt8) :
    (∀ p : Position, p.Reported source → p.Within source) ∧
    (∀ p q : Position, p.Within source → q.Within source →
      p.compare q = compare p.offset q.offset) ∧
    ∀ a b : Span, a.Within source → b.Within source →
      Span.new? (a.start.min b.start) (a.stop.max b.stop) = some (a.join b) ∧
      (a.join b).Within source ∧
      (a.join b).start.offset = min a.start.offset b.start.offset ∧
      (a.join b).stop.offset = max a.stop.offset b.stop.offset ∧
      (a.join b).Covers a ∧ (a.join b).Covers b ∧
      (∀ d : Span, d.Covers a → d.Covers b → d.Covers (a.join b)) ∧
      a.join b = b.join a ∧ a.join a = a ∧
      ∀ c : Span, c.Within source → (a.join b).join c = a.join (b.join c) := by
  refine ⟨fun p hp => hp.within, fun p q hp hq => hp.compare_eq hq, fun a b ha hb => ?_⟩
  let x : TextSpan source := ⟨a, ha⟩
  let y : TextSpan source := ⟨b, hb⟩
  have hjoin := ha.join hb
  obtain ⟨hstart, hstop⟩ := ha.join_offsets hb
  refine ⟨if_pos hjoin.ordered, hjoin, hstart, hstop, le_sup_left (a := x) (b := y),
    le_sup_right (a := x) (b := y), fun d hda hdb => (ha.covers_join_iff hb).2 ⟨hda, hdb⟩,
    congrArg Subtype.val (sup_comm x y), congrArg Subtype.val (sup_idem x), fun c hc => ?_⟩
  exact congrArg Subtype.val (sup_assoc x y ⟨c, hc⟩)

/-- A letter of two bytes on the first line, and behind a byte outside UTF-8 a name on the second
one. -/
theorem span_joins_stray :
    let source := [0xC3, 0xA9, 0x0A, 0xFF, 0x61]
    let letter : Span := ⟨⟨1, 1, 0⟩, ⟨1, 2, 2⟩⟩
    let stray : Span := ⟨⟨2, 1, 3⟩, ⟨2, 2, 4⟩⟩
    let name : Span := ⟨⟨2, 2, 4⟩, ⟨2, 3, 5⟩⟩
    letter.Within source ∧ stray.Within source ∧ name.Within source ∧
    letter.stop.compare stray.start = compare 2 3 ∧
    Span.new? ⟨1, 1, 0⟩ ⟨2, 3, 5⟩ = some (name.join letter) ∧
    (name.join letter).Covers name ∧ (name.join letter).Covers letter ∧
    (name.join letter).join stray = name.join (letter.join stray) := by
  intro source letter stray name
  let atoms : List Atom := [.char 'é', .char '\n', .stray 0xFF, .char 'a']
  have hdecode : Utf8.decode [0xC3, 0xA9, 0x0A, 0xFF, 0x61] =
      [.char 'é', .char '\n', .stray 0xFF, .char 'a'] := by decide +kernel
  have hwithin (n : Nat) : (Position.start.advance (atoms.take n)).Within source :=
    ⟨_, hdecode ▸ List.take_prefix n atoms, rfl⟩
  have hletter : letter.Within source := ⟨hwithin 0, hwithin 1, by decide⟩
  have hstray : stray.Within source := ⟨hwithin 2, hwithin 3, by decide⟩
  have hname : name.Within source := ⟨hwithin 3, hwithin 4, by decide⟩
  obtain ⟨-, horder, hjoins⟩ := span_joins source
  obtain ⟨hnew, -, -, -, hfirst, hsecond, -, -, -, hassoc⟩ := hjoins name letter hname hletter
  exact ⟨hletter, hstray, hname, horder _ _ hletter.stop hstray.start, hnew, hfirst, hsecond,
    hassoc stray hstray⟩

end LabelGraph
