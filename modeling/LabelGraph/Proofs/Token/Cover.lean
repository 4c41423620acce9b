import LabelGraph.Proofs.Token.Tiling
import Mathlib.Data.List.Basic
import Mathlib.Data.List.Pairwise

/-!
The tokens of a text cover it without loss. Every byte is in one token or in one gap, the
text of a token is what stands there, and what is passed over in silence is blanks and
comments. Bytes outside UTF-8 and line feeds are never passed over.
-/

namespace LabelGraph

open Atom

def slice (source : List UInt8) (i j : Nat) : List UInt8 := (source.drop i).take (j - i)

theorem slice_middle (before middle after : List UInt8) :
    slice (before ++ (middle ++ after)) before.length (before.length + middle.length) = middle := by
  rw [slice, List.drop_left, Nat.add_sub_cancel_left, List.take_left]

/-- Bytes that are passed over in silence. Behind bytes outside UTF-8 these are also the rest
of what those interrupt. -/
structure Skipped (behindStray : Prop) (bytes : List UInt8) : Prop where
  inLine : 0x0A ∉ bytes
  trivia : ¬ behindStray → ∃ blanks comment, bytes = blanks ++ comment ∧
    (∀ b ∈ blanks, b ∈ [0x20, 0x09, 0x0C, 0x0D]) ∧
    (comment = [] ∨ ∃ sign text, comment = sign :: text ∧ sign ∈ [0x3B, 0x23] ∧ 0x00 ∉ text)

def lastStop (offset : Nat) (tokens : List Token) : Nat :=
  (tokens.getLast?.map Token.stop).getD offset

def EndsStray (tokens : List Token) : Prop := ∃ t ∈ tokens.getLast?, t.IsStray

/-- The tokens cover the text without loss. They stand one behind another, and no token but
the last one is empty. Each spells the bytes of its span; only an error with no text stands
for a whole run of bytes outside UTF-8 instead. Such a run is one token, and so is a line
feed, wherever it stands. -/
structure Covers (source : List UInt8) (tokens : List Token) : Prop where
  apart : tokens.Pairwise fun t u => t.stop ≤ u.start
  filled : ∀ t ∈ tokens, t.kind ≠ .eof → t.start < t.stop
  ends : ∃ init t, tokens = init ++ [t] ∧ (∀ u ∈ init, u.kind ≠ .eof) ∧ t.kind = .eof ∧
    t.span = .point t.span.start ∧ t.start = source.length
  spells : ∀ t ∈ tokens, ¬ t.IsStray →
    Utf8.encode t.text.toList = slice source t.start t.stop
  strays : ∀ i j, Utf8.StrayRun source i j ↔
    ∃ t ∈ tokens, t.IsStray ∧ t.start = i ∧ t.stop = j
  feeds : ∀ i j, source[i]? = some 0x0A ∧ j = i + 1 ↔
    ∃ t ∈ tokens, t.kind = .newline ∧ t.start = i ∧ t.stop = j
  gaps : ∀ init t more, tokens = init ++ t :: more →
    Skipped (EndsStray init) (slice source (lastStop 0 init) t.start)

namespace Token

/-- The second token starts where the first one ends, or behind. Between errors over bytes
outside UTF-8 there is something else. -/
def Precedes (t u : Token) : Prop := t.stop ≤ u.start ∧ (t.IsStray → u.IsStray → t.stop < u.start)

def StrayApart (t u : Token) : Prop :=
  t.IsStray → u.IsStray → t.stop < u.start ∨ u.stop < t.start

instance : Std.Symm StrayApart := ⟨fun _ _ h ht hu => (h hu ht).symm⟩

end Token

/-! What is skipped. -/

theorem Gap.mono {p q : Prop} {gap : List Atom} (h : Gap p gap) (hpq : p → q) : Gap q gap :=
  ⟨h.inLine, fun hnot => h.trivia fun hp => hnot (hpq hp)⟩

theorem mem_bytesOf {atoms : List Atom} {b : UInt8} (h : b ∈ bytesOf atoms) {p : Char → Prop}
    (hatoms : ∀ a ∈ atoms, ∃ c, a = .char c ∧ p c) :
    ∃ c, p c ∧ b ∈ String.utf8EncodeChar c := by
  obtain ⟨a, ha, hb⟩ := List.mem_flatMap.1 h
  obtain ⟨c, rfl, hc⟩ := hatoms a ha
  exact ⟨c, hc, hb⟩

theorem blank_bytes {c : Char} (hc : Lexeme.isBlank c) :
    ∃ blank, String.utf8EncodeChar c = [blank] ∧ blank ∈ [0x20, 0x09, 0x0C, 0x0D] := by
  rcases Lexeme.blank_cases hc with rfl | rfl | rfl | rfl
  · exact ⟨0x20, rfl, by decide⟩
  · exact ⟨0x09, rfl, by decide⟩
  · exact ⟨0x0C, rfl, by decide⟩
  · exact ⟨0x0D, rfl, by decide⟩

theorem blanks_bytes {blanks : List Atom} (h : ∀ a ∈ blanks, a.satisfies Lexeme.isBlank) :
    ∀ b ∈ bytesOf blanks, b ∈ [0x20, 0x09, 0x0C, 0x0D] := by
  intro b hb
  obtain ⟨c, hc, hmem⟩ := mem_bytesOf hb (chars_of_class h)
  obtain ⟨blank, hencode, hblank⟩ := blank_bytes hc
  rw [hencode, List.mem_singleton] at hmem
  rwa [hmem]

theorem comment_bytes {c : Char} (hc : Lexeme.startsComment c) :
    ∃ sign, String.utf8EncodeChar c = [sign] ∧ sign ∈ [0x3B, 0x23] := by
  rcases Lexeme.comment_cases hc with rfl | rfl
  · exact ⟨0x3B, rfl, by decide⟩
  · exact ⟨0x23, rfl, by decide⟩

theorem Gap.skipped {behindStray : Prop} {gap : List Atom} (h : Gap behindStray gap) :
    Skipped behindStray (bytesOf gap) where
  inLine hfeed := by
    obtain ⟨c, hc, hb⟩ := mem_bytesOf hfeed h.inLine
    exact hc (Utf8.char_of_feed hb).1
  trivia hnot := by
    obtain ⟨blanks, comment, rfl, hblanks, hcomment⟩ := h.trivia hnot
    refine ⟨bytesOf blanks, bytesOf comment, bytesOf_append _ _, blanks_bytes hblanks, ?_⟩
    refine hcomment.imp (fun hnil => by rw [hnil]; rfl) ?_
    rintro ⟨c, text, rfl, hc, htext⟩
    obtain ⟨sign, hencode, hsign⟩ := comment_bytes hc
    refine ⟨sign, bytesOf text, congrArg (· ++ bytesOf text) hencode, hsign, fun hnul => ?_⟩
    obtain ⟨d, hd, hmem⟩ := mem_bytesOf hnul (chars_of_class htext)
    have hvalue : d.toNat = '\x00'.toNat := (Utf8.encode_of_ascii hmem (by decide)).1
    rw [Char.toNat_inj.1 hvalue] at hd
    cases hd

/-! What a token is cut from. -/

section Cut

variable {lexeme rest : List Atom} {t : Token}

theorem encode_textOf {atoms : List Atom} (h : ∀ a ∈ atoms, ∃ c, a = .char c) :
    Utf8.encode (textOf atoms).toList = bytesOf atoms := by
  rw [textOf, String.toList_ofList]
  induction atoms with
  | nil => rfl
  | cons a atoms ih =>
    obtain ⟨⟨c, rfl⟩, hmore⟩ := List.forall_mem_cons.1 h
    exact congrArg (String.utf8EncodeChar c ++ ·) (ih hmore)

theorem textOf_ne {atoms : List Atom} (h : ∀ a ∈ atoms, ∃ c, a = .char c) (hne : atoms ≠ []) :
    textOf atoms ≠ "" := by
  cases atoms with
  | nil => exact absurd rfl hne
  | cons a atoms =>
    obtain ⟨⟨c, rfl⟩, -⟩ := List.forall_mem_cons.1 h
    intro htext
    have hlist := congrArg String.toList htext
    rw [textOf, String.toList_ofList] at hlist
    cases hlist

theorem InLine.chars {atoms : List Atom} (h : InLine atoms) : ∀ a ∈ atoms, ∃ c, a = .char c :=
  fun a ha => (h a ha).imp fun _ => And.left

theorem InLine.not_stray {atoms : List Atom} (h : InLine atoms) :
    ∀ a ∈ atoms, a.isStray = false := by
  intro a ha
  obtain ⟨c, rfl, -⟩ := h a ha
  rfl

theorem InLine.not_feed {atoms : List Atom} (h : InLine atoms) :
    ∀ a ∈ atoms, a.isFeed = false := by
  intro a ha
  obtain ⟨c, rfl, hc⟩ := h a ha
  simpa [isFeed] using hc

/-- A token is an error over stray bytes, or spells what it is cut from. -/
theorem Cut.spells (h : Cut lexeme rest t) (hne : lexeme ≠ []) :
    t.IsStray ∧ (∀ a ∈ lexeme, a.isStray) ∨
      ¬ t.IsStray ∧ (∀ a ∈ lexeme, a.isStray = false) ∧
        Utf8.encode t.text.toList = bytesOf lexeme := by
  have hspells (htext : t.text = textOf lexeme) (hchars : ∀ a ∈ lexeme, ∃ c, a = .char c) :
      ¬ t.IsStray ∧ Utf8.encode t.text.toList = bytesOf lexeme := by
    rw [Token.IsStray, htext]
    exact ⟨fun hstray => textOf_ne hchars hne hstray.2, encode_textOf hchars⟩
  cases h with
  | stray hkind htext hall _ => exact .inl ⟨⟨hkind, htext⟩, hall⟩
  | feed hkind htext hlexeme =>
    subst hlexeme
    obtain ⟨hnot, hencode⟩ := hspells htext (by simp)
    exact .inr ⟨hnot, by simp [isStray], hencode⟩
  | line hkind htext hline =>
    obtain ⟨hnot, hencode⟩ := hspells htext hline.chars
    exact .inr ⟨hnot, hline.not_stray, hencode⟩

theorem Cut.stray_head (h : Cut lexeme rest t) (hne : lexeme ≠ []) (hstray : t.IsStray) :
    ∀ a ∈ rest.head?, a.isStray = false := by
  cases h with
  | stray _ _ _ hrest => exact hrest
  | feed hkind _ _ =>
    rw [Token.IsStray, hkind] at hstray
    cases hstray.1
  | line _ htext hline => exact absurd (htext.symm.trans hstray.2) (textOf_ne hline.chars hne)

theorem Cut.newline (h : Cut lexeme rest t) :
    t.kind = .newline ∧ lexeme = [.char '\n'] ∨
      t.kind ≠ .newline ∧ ∀ a ∈ lexeme, a.isFeed = false := by
  cases h with
  | stray hkind _ hall _ =>
    refine .inr ⟨by rw [hkind]; decide, ?_⟩
    intro a ha
    cases a with
    | char c => cases hall _ ha
    | stray b => rfl
  | feed hkind _ hlexeme => exact .inl ⟨hkind, hlexeme⟩
  | line hkind _ hline => exact .inr ⟨hkind, hline.not_feed⟩

end Cut

/-! What the tokens of a text have in common. -/

namespace Tiles

variable {behindStray : Prop} {offset : Nat} {atoms : List Atom} {tokens : List Token}

theorem stop_of_point {t : Token} (h : t.span = .point t.span.start) : t.stop = t.start := by
  rw [Token.stop, h]
  rfl

theorem extent_pos {atoms : List Atom} (h : atoms ≠ []) : 0 < extent atoms := by
  cases atoms with
  | nil => exact absurd rfl h
  | cons a atoms => exact Nat.add_pos_left a.size_pos _

theorem bounds (h : Tiles behindStray offset atoms tokens) :
    ∀ t ∈ tokens, offset ≤ t.start ∧ t.start ≤ t.stop ∧ (t.kind ≠ .eof → t.start < t.stop) := by
  induction h with
  | @last _ _ _ t _ hkind _ hspan hstart =>
    intro u hu
    rw [List.mem_singleton.1 hu]
    have hstop := stop_of_point hspan
    exact ⟨by omega, by omega, fun hmore => absurd hkind hmore⟩
  | @more _ _ _ _ _ t _ _ _ _ hlexeme hstart hstop _ ih =>
    have hpos := extent_pos hlexeme
    intro u hu
    rcases List.mem_cons.1 hu with rfl | hu
    · exact ⟨by omega, by omega, fun _ => by omega⟩
    · obtain ⟨hle, hmore⟩ := ih u hu
      exact ⟨by omega, hmore⟩

/-- No error over bytes outside UTF-8 starts where no such byte stands. -/
theorem stray_apart (h : Tiles behindStray offset atoms tokens)
    (hhead : ∀ a ∈ atoms.head?, a.isStray = false) :
    ∀ t ∈ tokens, t.IsStray → offset < t.start := by
  intro u hu hstray
  cases h with
  | last _ hkind =>
    rw [List.mem_singleton.1 hu, Token.IsStray, hkind] at hstray
    cases hstray.1
  | @more _ _ gap lexeme rest t tokens hgap hcut hkind hlexeme hstart hstop hrest =>
    have hpos := extent_pos hlexeme
    rcases List.mem_cons.1 hu with rfl | hu
    · obtain ⟨-, hall⟩ := (hcut.spells hlexeme).resolve_right fun hnot => hnot.1 hstray
      cases gap with
      | nil =>
        cases lexeme with
        | nil => exact absurd rfl hlexeme
        | cons a lexeme =>
          have htrue := hall a (List.mem_cons_self ..)
          rw [hhead a rfl] at htrue
          cases htrue
      | cons a gap =>
        have := extent_pos (List.cons_ne_nil a gap)
        omega
    · have := (hrest.bounds u hu).1
      omega

theorem ordered (h : Tiles behindStray offset atoms tokens) : tokens.Pairwise Token.Precedes := by
  induction h with
  | last => exact List.pairwise_singleton _ _
  | more _ hcut _ hlexeme _ _ hrest ih =>
    refine List.pairwise_cons.2 ⟨?_, ih⟩
    intro u hu
    refine ⟨(hrest.bounds u hu).1, ?_⟩
    intro hstray hstray'
    exact hrest.stray_apart (hcut.stray_head hlexeme hstray) u hu hstray'

/-- The last token is a point at the end of the text, and the only one that says so. -/
theorem ends (h : Tiles behindStray offset atoms tokens) :
    ∃ init t, tokens = init ++ [t] ∧ (∀ u ∈ init, u.kind ≠ .eof) ∧ t.kind = .eof ∧
      t.span = .point t.span.start ∧ t.start = offset + extent atoms := by
  induction h with
  | @last _ _ _ t _ hkind _ hspan hstart => exact ⟨[], t, rfl, by simp, hkind, hspan, hstart⟩
  | @more _ _ _ _ _ t _ _ _ hkind _ hstart hstop _ ih =>
    obtain ⟨init, last, rfl, hinit, heof, hspan, hlast⟩ := ih
    refine ⟨t :: init, last, rfl, List.forall_mem_cons.2 ⟨hkind, hinit⟩, heof, hspan, ?_⟩
    simp [hlast, hstop, hstart]
    omega

/-- The stray bytes are in the errors over bytes outside UTF-8. -/
theorem mem_stray (h : Tiles behindStray offset atoms tokens) {k : Nat} :
    k ∈ places isStray offset atoms ↔ ∃ t ∈ tokens, t.IsStray ∧ t.start ≤ k ∧ k < t.stop := by
  induction h with
  | last hgap hkind =>
    refine iff_of_false (not_mem_places hgap.inLine.not_stray) ?_
    rintro ⟨u, hu, ⟨herror, -⟩, -⟩
    rw [List.mem_singleton.1 hu, hkind] at herror
    cases herror
  | @more _ offset gap lexeme _ t _ hgap hcut _ hlexeme hstart hstop _ ih =>
    have hgapNone : k ∉ places isStray offset gap := not_mem_places hgap.inLine.not_stray
    have hlexemeIff : k ∈ places isStray t.start lexeme ↔
        t.IsStray ∧ t.start ≤ k ∧ k < t.stop := by
      rw [hstop]
      rcases hcut.spells hlexeme with ⟨hstray, hall⟩ | ⟨hnot, hnone, -⟩
      · rw [mem_places_stray hall, and_iff_right hstray]
      · exact iff_of_false (not_mem_places hnone) fun h => hnot h.1
    rw [mem_places_append, mem_places_append, extent_append, ← Nat.add_assoc, ← hstart, ← hstop,
      ih, hlexemeIff, or_iff_right hgapNone, List.exists_mem_cons_iff]

/-- The line feeds are the tokens for them. -/
theorem mem_feed (h : Tiles behindStray offset atoms tokens) {i j : Nat} :
    (∃ t ∈ tokens, t.kind = .newline ∧ t.start = i ∧ t.stop = j) ↔
      i ∈ places isFeed offset atoms ∧ j = i + 1 := by
  induction h with
  | last hgap hkind =>
    refine iff_of_false ?_ fun h => not_mem_places hgap.inLine.not_feed h.1
    rintro ⟨u, hu, hnewline, -⟩
    rw [List.mem_singleton.1 hu, hkind] at hnewline
    cases hnewline
  | @more _ offset gap lexeme _ t _ hgap hcut _ hlexeme hstart hstop _ ih =>
    have hgapNone : i ∉ places isFeed offset gap := not_mem_places hgap.inLine.not_feed
    have hlexemeIff : i ∈ places isFeed t.start lexeme ∧ j = i + 1 ↔
        t.kind = .newline ∧ t.start = i ∧ t.stop = j := by
      rw [hstop]
      rcases hcut.newline with ⟨hnewline, rfl⟩ | ⟨hnot, hnone⟩
      · have hone : extent [.char '\n'] = 1 := rfl
        simp only [places, isFeed, beq_self_eq_true, if_true, List.mem_singleton, hone, hnewline,
          true_and]
        omega
      · exact iff_of_false (fun h => not_mem_places hnone h.1) fun h => hnot h.1
    rw [mem_places_append, mem_places_append, extent_append, ← Nat.add_assoc, ← hstart, ← hstop,
      or_iff_right hgapNone, List.exists_mem_cons_iff, or_and_right, hlexemeIff, ih]

theorem endsStray_cons {t : Token} {init : List Token} :
    EndsStray (t :: init) ↔ init = [] ∧ t.IsStray ∨ EndsStray init := by
  rw [EndsStray, EndsStray, List.getLast?_cons]
  rcases List.eq_nil_or_concat init with rfl | ⟨init, u, rfl⟩ <;> simp

theorem lastStop_cons (offset : Nat) (t : Token) (init : List Token) :
    lastStop offset (t :: init) = lastStop t.stop init := by
  rw [lastStop, lastStop, List.getLast?_cons]
  cases init.getLast? <;> rfl

/-- Where a token stands, behind the other tokens and a gap. -/
theorem placed {init more : List Token} {t : Token}
    (h : Tiles behindStray offset atoms (init ++ t :: more)) :
    ∃ front gap lexeme rest, atoms = front ++ (gap ++ (lexeme ++ rest)) ∧
      lastStop offset init = offset + extent front ∧
      t.start = lastStop offset init + extent gap ∧ t.stop = t.start + extent lexeme ∧
      Gap (init = [] ∧ behindStray ∨ EndsStray init) gap ∧
      (¬ t.IsStray → Utf8.encode t.text.toList = bytesOf lexeme) := by
  induction init generalizing behindStray offset atoms with
  | nil =>
    cases h with
    | last hgap _ htext hspan hstart =>
      refine ⟨[], atoms, [], [], by simp, rfl, hstart, stop_of_point hspan,
        hgap.mono fun hb => .inl ⟨rfl, hb⟩, fun _ => ?_⟩
      rw [htext]
      rfl
    | @more _ _ gap lexeme rest _ _ hgap hcut _ hlexeme hstart hstop _ =>
      refine ⟨[], gap, lexeme, rest, by simp, rfl, hstart, hstop,
        hgap.mono fun hb => .inl ⟨rfl, hb⟩, fun hnot => ?_⟩
      exact ((hcut.spells hlexeme).resolve_left fun hstray => hnot hstray.1).2.2
  | cons u init ih =>
    generalize htokens : u :: init ++ t :: more = tokens at h
    cases h with
    | last => simp at htokens
    | @more _ _ gap' lexeme' rest' _ _ _ _ _ _ hstart' hstop' hrest =>
      obtain ⟨rfl, rfl⟩ := List.cons.inj htokens
      obtain ⟨front, gap, lexeme, rest, rfl, hlast, hstart, hstop, hgap, hspells⟩ := ih hrest
      rw [lastStop_cons]
      refine ⟨gap' ++ lexeme' ++ front, gap, lexeme, rest, by simp, ?_, hstart, hstop,
        hgap.mono fun hb => .inr (endsStray_cons.2 hb), hspells⟩
      rw [hlast, hstop', hstart', extent_append, extent_append]
      omega

theorem slice_atoms {front middle back : List Atom} {i j : Nat} (hi : i = extent front)
    (hj : j = i + extent middle) :
    slice (bytesOf (front ++ (middle ++ back))) i j = bytesOf middle := by
  rw [hj, hi, bytesOf_append, bytesOf_append, ← bytesOf_length, ← bytesOf_length, slice_middle]

theorem strays_apart (h : Tiles behindStray offset atoms tokens) {t u : Token} (ht : t ∈ tokens)
    (hu : u ∈ tokens) (hne : t ≠ u) : t.StrayApart u := by
  have happart : tokens.Pairwise Token.StrayApart :=
    h.ordered.imp fun hbefore hstray hstray' => .inl (hbefore.2 hstray hstray')
  exact happart.forall ht hu hne

section Source

variable {source : List UInt8}

theorem stray_iff_mem (h : Tiles behindStray 0 (Utf8.decode source) tokens) {k : Nat} :
    Utf8.Stray source k ↔ ∃ t ∈ tokens, t.IsStray ∧ t.start ≤ k ∧ k < t.stop :=
  Utf8.stray_iff.trans h.mem_stray

/-- A stray byte right beside an error over such bytes would be in another one that touches
it. -/
theorem not_stray_beside (h : Tiles behindStray 0 (Utf8.decode source) tokens) {t : Token}
    (ht : t ∈ tokens) (hstray : t.IsStray) {k : Nat} (hk : k + 1 = t.start ∨ k = t.stop) :
    ¬ Utf8.Stray source k := by
  intro hbeside
  obtain ⟨u, hu, hstray', hle, hlt⟩ := h.stray_iff_mem.1 hbeside
  have hne : t ≠ u := by
    rintro rfl
    omega
  have hapart := h.strays_apart ht hu hne hstray hstray'
  have := (h.bounds t ht).2.1
  omega

theorem strayRun_of_mem (h : Tiles behindStray 0 (Utf8.decode source) tokens) {t : Token}
    (ht : t ∈ tokens) (hstray : t.IsStray) : Utf8.StrayRun source t.start t.stop where
  lt := (h.bounds t ht).2.2 (by rw [hstray.1]; decide)
  stray _ hle hlt := h.stray_iff_mem.2 ⟨t, ht, hstray, hle, hlt⟩
  first _ hk := h.not_stray_beside ht hstray (.inl hk)
  last := h.not_stray_beside ht hstray (.inr rfl)

/-- The errors over bytes outside UTF-8 stand at the runs of them. -/
theorem strayRun_iff (h : Tiles behindStray 0 (Utf8.decode source) tokens) {i j : Nat} :
    Utf8.StrayRun source i j ↔ ∃ t ∈ tokens, t.IsStray ∧ t.start = i ∧ t.stop = j := by
  constructor
  · intro hrun
    -- The first byte of the run is in an error, which is over a run itself.
    have hfirst : i ≤ i ∧ i < j := ⟨Nat.le_refl i, hrun.lt⟩
    obtain ⟨t, ht, hstray, hin⟩ := h.stray_iff_mem.1 (hrun.stray i hfirst.1 hfirst.2)
    exact ⟨t, ht, hstray, (h.strayRun_of_mem ht hstray).eq hrun hin hfirst⟩
  · rintro ⟨t, ht, hstray, rfl, rfl⟩
    exact h.strayRun_of_mem ht hstray

theorem covers (h : Tiles False 0 (Utf8.decode source) tokens) : Covers source tokens where
  apart := h.ordered.imp And.left
  filled t ht := (h.bounds t ht).2.2
  ends := by
    obtain ⟨init, t, htokens, hinit, heof, hspan, hstart⟩ := h.ends
    refine ⟨init, t, htokens, hinit, heof, hspan, ?_⟩
    rw [hstart, Nat.zero_add, ← bytesOf_length, Utf8.bytesOf_decode]
  spells t ht hnot := by
    obtain ⟨init, more, rfl⟩ := List.append_of_mem ht
    obtain ⟨front, gap, lexeme, rest, hatoms, hlast, hstart, hstop, -, hspells⟩ := h.placed
    rw [hspells hnot, ← Utf8.bytesOf_decode source, hatoms, ← List.append_assoc]
    refine (slice_atoms ?_ hstop).symm
    simp [hstart, hlast]
  strays i j := h.strayRun_iff
  feeds i j := by rw [Utf8.feed_iff, h.mem_feed]
  gaps init t more htokens := by
    subst htokens
    obtain ⟨front, gap, lexeme, rest, hatoms, hlast, hstart, -, hgap, -⟩ := h.placed
    rw [← Utf8.bytesOf_decode source, hatoms]
    rw [slice_atoms (hlast.trans (Nat.zero_add _)) hstart]
    exact (hgap.mono fun hbefore => hbefore.resolve_left And.right).skipped

end Source

end Tiles

namespace Scanner

variable {s : Scanner}

def call (s : Scanner) : Nat → Token
  | 0 => s.next.1
  | n + 1 => s.next.2.call n

theorem cutToken_more (hrest : s.rest ≠ []) : s.cutToken.1.kind ≠ .eof := by
  unfold cutToken
  split
  · next hnil => exact absurd hnil hrest
  · exact Kind.noConfusion
  · next c rest hs =>
    split
    · next kind n hlongest => exact (Lexeme.longest?_kind hlongest).2
    · split
      · unfold cutOpenString
        split
        · exact Kind.noConfusion
        · dsimp only
          split <;> exact Kind.noConfusion
      · exact Kind.noConfusion

/-- At the end of the text every answer is the same. -/
theorem call_of_end (h : s.skip.rest = []) (n : Nat) :
    s.call n = { kind := .eof, text := "", span := .point s.skip.cursor } := by
  induction n generalizing s with
  | zero => rw [call, next_eof h]
  | succ n ih =>
    obtain ⟨hrest, hcursor⟩ := skip_nil h
    rw [call, next_eof h, ih hrest, hcursor]

/-- The answers are the tokens, and then the last one forever after. -/
theorem call_tokens (s : Scanner) (n : Nat) :
    (s.tokens[n]?).or s.tokens.getLast? = some (s.call n) := by
  induction n generalizing s with
  | zero =>
    by_cases hmore : s.next.1.kind = .eof
    · rw [tokens_of_eof hmore]
      rfl
    · rw [tokens_of_more hmore]
      rfl
  | succ n ih =>
    by_cases hnil : s.skip.rest = []
    · rw [tokens_of_end hnil, call_of_end hnil]
      rfl
    · have hnext := ih s.next.2
      rw [tokens_of_more (cutToken_more hnil), List.getElem?_cons_succ, List.getLast?_cons, call,
        ← hnext]
      cases hfound : s.next.2.tokens[n]? with
      | some t => rfl
      | none =>
        rw [hfound, Option.none_or] at hnext
        rw [hnext]
        rfl

end Scanner

theorem covers_tokenize (source : List UInt8) : Covers source (tokenize source) :=
  Tiles.covers (Scanner.tokens_tiled (Scanner.ofBytes source) (.inl rfl))

/-- The tokens of a text cover it. Asked again and again, the scanner answers with these, and
with the last one forever after. -/
theorem tokenize_covers (source : List UInt8) :
    Covers source (tokenize source) ∧
      ∀ n, ((tokenize source)[n]?).or (tokenize source).getLast? =
        some ((Scanner.ofBytes source).call n) :=
  ⟨covers_tokenize source, (Scanner.ofBytes source).call_tokens⟩

end LabelGraph
