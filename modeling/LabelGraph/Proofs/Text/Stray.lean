import LabelGraph.Proofs.Text.Utf8
import Mathlib.Algebra.GroupWithZero.Nat
import Mathlib.Data.List.Induction

/-!
Which bytes of a text belong to no character. The byte that starts a character never
stands inside another one. So a character is decoded wherever its encoding stands, and
the stray bytes are those that no encoding in the text covers.
-/

namespace LabelGraph

namespace Atom

def bytesOf (atoms : List Atom) : List UInt8 := atoms.flatMap bytes

def extent (atoms : List Atom) : Nat := (atoms.map size).sum

@[simp] theorem bytes_length (a : Atom) : a.bytes.length = a.size := by
  cases a with
  | char c => exact String.length_utf8EncodeChar c
  | stray b => rfl

@[simp] theorem bytesOf_nil : bytesOf [] = [] := rfl

@[simp] theorem bytesOf_cons (a : Atom) (atoms : List Atom) :
    bytesOf (a :: atoms) = a.bytes ++ bytesOf atoms := rfl

@[simp] theorem bytesOf_append (first second : List Atom) :
    bytesOf (first ++ second) = bytesOf first ++ bytesOf second :=
  List.flatMap_append

@[simp] theorem extent_nil : extent [] = 0 := rfl

@[simp] theorem extent_cons (a : Atom) (atoms : List Atom) :
    extent (a :: atoms) = a.size + extent atoms :=
  rfl

@[simp] theorem extent_append (first second : List Atom) :
    extent (first ++ second) = extent first + extent second := by
  rw [extent, List.map_append, List.sum_append]
  rfl

@[simp] theorem bytesOf_length (atoms : List Atom) : (bytesOf atoms).length = extent atoms := by
  induction atoms with
  | nil => rfl
  | cons a atoms ih => simp [ih]

def isFeed (a : Atom) : Bool := a == .char '\n'

/-- The offsets at which the atoms of a class stand, the first atom at `offset`. -/
def places (p : Atom → Bool) (offset : Nat) : List Atom → List Nat
  | [] => []
  | a :: atoms =>
    if p a then offset :: places p (offset + a.size) atoms else places p (offset + a.size) atoms

section Places

variable {p : Atom → Bool} {offset k : Nat} {atoms : List Atom}

@[simp] theorem places_nil : places p offset [] = [] := rfl

@[simp] theorem mem_places_cons {a : Atom} :
    k ∈ places p offset (a :: atoms) ↔
      p a ∧ k = offset ∨ k ∈ places p (offset + a.size) atoms := by
  rw [places]
  split
  · next ha => simp [ha]
  · next ha => simp [ha]

@[simp] theorem mem_places_append {more : List Atom} :
    k ∈ places p offset (atoms ++ more) ↔
      k ∈ places p offset atoms ∨ k ∈ places p (offset + extent atoms) more := by
  induction atoms generalizing offset with
  | nil => simp [places, extent]
  | cons a atoms ih =>
      simp [ih, Nat.add_assoc, or_assoc]

theorem places_bounds (h : k ∈ places p offset atoms) :
    offset ≤ k ∧ k < offset + extent atoms := by
  induction atoms generalizing offset with
  | nil => cases h
  | cons a atoms ih =>
      have hpos := a.size_pos
      rw [extent_cons]
      rcases mem_places_cons.1 h with ⟨-, rfl⟩ | h
      · omega
      · have := ih h
        omega

theorem not_mem_places (h : ∀ a ∈ atoms, p a = false) : k ∉ places p offset atoms := by
  induction atoms generalizing offset with
  | nil => exact List.not_mem_nil
  | cons a atoms ih =>
      obtain ⟨ha, hmore⟩ := List.forall_mem_cons.1 h
      rw [mem_places_cons]
      rintro (⟨htrue, -⟩ | hmem)
      · rw [ha] at htrue
        cases htrue
      · exact ih hmore hmem

theorem mem_places_stray (h : ∀ a ∈ atoms, a.isStray) :
    k ∈ places isStray offset atoms ↔ offset ≤ k ∧ k < offset + extent atoms := by
  refine ⟨places_bounds, ?_⟩
  rintro ⟨hle, hlt⟩
  induction atoms generalizing offset with
  | nil => exact absurd hle (Nat.not_le.2 hlt)
  | cons a atoms ih =>
      obtain ⟨ha, hmore⟩ := List.forall_mem_cons.1 h
      cases a with
      | char c => cases ha
      | stray b =>
        have hsize : (Atom.stray b).size = 1 := rfl
        rw [extent_cons, hsize] at hlt
        rw [mem_places_cons, hsize]
        by_cases hk : k = offset
        · exact .inl ⟨rfl, hk⟩
        · exact .inr (ih hmore (by omega) (by omega))

end Places

end Atom

namespace Utf8

open Atom

def Encoded (source : List UInt8) (k : Nat) : Prop :=
  ∃ before c after, source = before ++ String.utf8EncodeChar c ++ after ∧
    before.length ≤ k ∧ k < before.length + c.utf8Size

def Stray (source : List UInt8) (k : Nat) : Prop := k < source.length ∧ ¬ Encoded source k

/-- The bytes from `i` up to `j` are outside UTF-8, and those beside them are not. -/
structure StrayRun (source : List UInt8) (i j : Nat) : Prop where
  lt : i < j
  stray : ∀ k, i ≤ k → k < j → Stray source k
  first : ∀ k, k + 1 = i → ¬ Stray source k
  last : ¬ Stray source j

section StrayRun

variable {source : List UInt8} {i j i' j' k : Nat}

theorem StrayRun.first_le (h : StrayRun source i j) (h' : StrayRun source i' j')
    (hk : i ≤ k ∧ k < j) (hk' : i' ≤ k ∧ k < j') : i' ≤ i := by
  refine Nat.not_lt.1 fun hlt => ?_
  exact h'.first (i' - 1) (by omega) (h.stray _ (by omega) (by omega))

theorem StrayRun.last_le (h : StrayRun source i j) (h' : StrayRun source i' j')
    (hk : i ≤ k ∧ k < j) (hk' : i' ≤ k ∧ k < j') : j' ≤ j := by
  refine Nat.not_lt.1 fun hlt => ?_
  exact h.last (h'.stray _ (by omega) hlt)

/-- Two runs that share a byte are the same. -/
theorem StrayRun.eq (h : StrayRun source i j) (h' : StrayRun source i' j')
    (hk : i ≤ k ∧ k < j) (hk' : i' ≤ k ∧ k < j') : i = i' ∧ j = j' :=
  ⟨Nat.le_antisymm (h'.first_le h hk' hk) (h.first_le h' hk hk'),
    Nat.le_antisymm (h'.last_le h hk' hk) (h.last_le h' hk hk')⟩

end StrayRun

/-- Only the first byte of an encoding can start a character. -/
theorem encode_bytes (c : Char) :
    ∃ lead bytes, String.utf8EncodeChar c = lead :: bytes ∧
      (lead.toNat < 0x80 ∧ lead.toNat = c.toNat ∧ bytes = [] ∨ 0xC0 ≤ lead.toNat) ∧
      ∀ b ∈ bytes, 0x80 ≤ b.toNat ∧ b.toNat < 0xC0 := by
  have hscalar := scalar_bounds c
  have hv : c.val.toNat = c.toNat := rfl
  have hnext (n : Nat) : 0x80 ≤ (UInt8.ofNat (n % 0x40 + 0x80)).toNat ∧
      (UInt8.ofNat (n % 0x40 + 0x80)).toNat < 0xC0 := by
    rw [toNat_byte (by omega)]
    omega
  simp only [String.utf8EncodeChar, hv]
  generalize c.toNat = v at *
  split
  · refine ⟨_, _, rfl, .inl ⟨?_, ?_, rfl⟩, by simp⟩ <;> rw [toNat_byte (by omega)]
    omega
  split
  · refine ⟨_, _, rfl, .inr ?_, by simpa using hnext v⟩
    rw [toNat_byte (by omega)]
    omega
  split
  · refine ⟨_, _, rfl, .inr ?_, by simpa using ⟨hnext (v / 64), hnext v⟩⟩
    rw [toNat_byte (by omega)]
    omega
  · refine ⟨_, _, rfl, .inr ?_, by simpa using ⟨hnext (v / 4096), hnext (v / 64), hnext v⟩⟩
    rw [toNat_byte (by omega)]
    omega

/-- A byte below `80` is a character by itself. -/
theorem encode_of_ascii {c : Char} {b : UInt8} (h : b ∈ String.utf8EncodeChar c)
    (hb : b.toNat < 0x80) : c.toNat = b.toNat ∧ String.utf8EncodeChar c = [b] := by
  obtain ⟨lead, bytes, hencode, hlead, hbytes⟩ := encode_bytes c
  rw [hencode] at h ⊢
  rcases List.mem_cons.1 h with rfl | hmem
  · obtain ⟨-, heq, rfl⟩ := hlead.resolve_right (by omega)
    exact ⟨heq.symm, rfl⟩
  · have := hbytes b hmem
    omega

theorem stray_of_decode {source : List UInt8} {b : UInt8} (h : .stray b ∈ decode source) :
    0x80 ≤ b.toNat := by
  induction hn : source.length using Nat.strongRecOn generalizing source with
  | ind n ih =>
    subst hn
    cases source with
    | nil =>
      rw [decode_nil] at h
      cases h
    | cons lead bytes =>
      cases found : char? lead bytes with
      | none =>
        rw [decode_stray found] at h
        rcases List.mem_cons.1 h with heq | h
        · cases heq
          refine Nat.not_lt.1 fun hlow => ?_
          rw [char?, lead?_one hlow] at found
          cases found
        · exact ih bytes.length (by simp) h rfl
      | some result =>
        obtain ⟨c, rest⟩ := result
        have hlength := length_of_char? found
        rw [decode_char found] at h
        rcases List.mem_cons.1 h with heq | h
        · cases heq
        · exact ih rest.length (by simp only [List.length_cons]; omega) h rfl

/-- An encoding in a text that starts with another one stands behind that one. -/
theorem split_of_encode {lead : UInt8} {before after rest : List UInt8} {c d : Char}
    (h : lead :: (before ++ String.utf8EncodeChar c ++ after) = String.utf8EncodeChar d ++ rest) :
    ∃ more, lead :: before = String.utf8EncodeChar d ++ more ∧
      rest = more ++ String.utf8EncodeChar c ++ after := by
  rw [List.append_assoc, ← List.cons_append] at h
  rcases List.append_eq_append_iff.1 h with ⟨more, hmore, hrest⟩ | ⟨more, hmore, hrest⟩
  · cases more with
    | nil => exact ⟨[], by rw [hmore, List.append_nil, List.append_nil], hrest.symm⟩
    | cons b more =>
      -- Otherwise the first byte of the one stands inside the other.
      obtain ⟨start, tail, hencode, hstart, -⟩ := encode_bytes c
      obtain ⟨start', tail', hencode', -, htail⟩ := encode_bytes d
      rw [hencode] at hrest
      rw [hencode'] at hmore
      have hb : start = b := (List.cons.inj hrest).1
      have hinside : b ∈ tail' := by
        rw [(List.cons.inj hmore).2]
        simp
      have := htail b hinside
      rw [hb] at hstart
      omega
  · exact ⟨more, hmore, by rw [hrest, List.append_assoc]⟩

/-- A character is decoded wherever its encoding stands. -/
theorem decode_at (before : List UInt8) (c : Char) (after : List UInt8) :
    ∃ front, decode (before ++ String.utf8EncodeChar c ++ after) =
        front ++ .char c :: decode after ∧ bytesOf front = before := by
  induction hn : before.length using Nat.strongRecOn generalizing before with
  | ind n ih =>
    subst hn
    obtain ⟨start, tail, hencode, hchar⟩ := char?_encode c after
    cases before with
    | nil =>
      refine ⟨[], ?_, rfl⟩
      rw [hencode, List.nil_append, List.cons_append, decode_char hchar]
      rfl
    | cons lead before =>
      rw [List.cons_append, List.cons_append]
      cases found : char? lead (before ++ String.utf8EncodeChar c ++ after) with
      | none =>
        obtain ⟨front, hdecode, hfront⟩ := ih before.length (by simp) before rfl
        refine ⟨.stray lead :: front, ?_, ?_⟩
        · rw [decode_stray found, hdecode]
          rfl
        · rw [bytesOf_cons, hfront]
          rfl
      | some result =>
        obtain ⟨d, rest⟩ := result
        obtain ⟨more, hmore, hrest⟩ := split_of_encode (encode_char? found)
        have hlt : more.length < (lead :: before).length := by
          rw [hmore, List.length_append, String.length_utf8EncodeChar]
          exact Nat.lt_add_of_pos_left (Char.utf8Size_pos d)
        obtain ⟨front, hdecode, hfront⟩ := ih more.length hlt more rfl
        refine ⟨.char d :: front, ?_, ?_⟩
        · rw [decode_char found, hrest, hdecode]
          rfl
        · rw [bytesOf_cons, hfront, hmore]
          rfl

@[simp] theorem bytesOf_decode (source : List UInt8) : bytesOf (decode source) = source :=
  bytes_decode source

theorem encoded_of_char {source : List UInt8} {front back : List Atom} {c : Char}
    (h : decode source = front ++ .char c :: back) {k : Nat} (hk : extent front ≤ k)
    (hk' : k < extent front + c.utf8Size) : Encoded source k := by
  refine ⟨bytesOf front, c, bytesOf back, ?_, ?_⟩
  · rw [← bytesOf_decode source, h, List.append_assoc]
    exact bytesOf_append front (.char c :: back)
  · rw [bytesOf_length]
    exact ⟨hk, hk'⟩

/-- An offset inside a text is the place of a stray byte, or inside a character. -/
theorem places_or_char {atoms : List Atom} {k : Nat} (h : k < extent atoms) :
    k ∈ places isStray 0 atoms ∨ ∃ front c back, atoms = front ++ .char c :: back ∧
      extent front ≤ k ∧ k < extent front + c.utf8Size := by
  induction atoms using List.reverseRecOn with
  | nil => cases h
  | append_singleton atoms a ih =>
    rw [extent_append, extent_cons] at h
    by_cases hbefore : k < extent atoms
    · rcases ih hbefore with hmem | ⟨front, c, back, rfl, hk⟩
      · exact .inl (mem_places_append.2 (.inl hmem))
      · exact .inr ⟨front, c, back ++ [a], by simp, hk⟩
    · cases a with
      | char c => exact .inr ⟨atoms, c, [], rfl, by omega, h⟩
      | stray b =>
        have hk : k = extent atoms := by
          have hone : (Atom.stray b).size = 1 := rfl
          have hnil : extent [] = 0 := rfl
          omega
        refine .inl (mem_places_append.2 (.inr (mem_places_cons.2 (.inl ⟨rfl, ?_⟩))))
        omega

/-- What is outside UTF-8 is decoded as such, and nothing else. -/
theorem stray_iff {source : List UInt8} {k : Nat} :
    Stray source k ↔ k ∈ places isStray 0 (decode source) := by
  have hlength : source.length = extent (decode source) := by
    rw [← bytesOf_length, bytesOf_decode]
  constructor
  · rintro ⟨hlt, hnot⟩
    rw [hlength] at hlt
    refine (places_or_char hlt).resolve_right ?_
    rintro ⟨front, c, back, hdecode, hk, hk'⟩
    exact hnot (encoded_of_char hdecode hk hk')
  · intro hk
    have hbounds := places_bounds hk
    refine ⟨by omega, ?_⟩
    rintro ⟨before, c, after, rfl, hbefore, hafter⟩
    obtain ⟨front, hdecode, hfront⟩ := decode_at before c after
    rw [hdecode, mem_places_append, mem_places_cons, ← bytesOf_length, hfront] at hk
    rcases hk with hk | ⟨hstray, -⟩ | hk
    · have := places_bounds hk
      rw [← bytesOf_length, hfront] at this
      omega
    · cases hstray
    · have := places_bounds hk
      have hsize : (Atom.char c).size = c.utf8Size := rfl
      omega

theorem char_of_feed {c : Char} (h : (0x0A : UInt8) ∈ String.utf8EncodeChar c) :
    c = '\n' ∧ String.utf8EncodeChar c = [0x0A] := by
  obtain ⟨hvalue, hencode⟩ := encode_of_ascii h (by decide)
  exact ⟨Char.toNat_inj.1 hvalue, hencode⟩

theorem feed_bytes {a : Atom} (ha : ∀ b, a = .stray b → 0x80 ≤ b.toNat) (i : Nat) :
    a.bytes[i]? = some 0x0A ↔ a.isFeed ∧ i = 0 := by
  cases a with
  | stray b =>
    have hb : b ≠ 0x0A := by
      rintro rfl
      exact absurd (ha _ rfl) (by decide)
    cases i with
    | zero => simp [bytes, isFeed, hb]
    | succ i => simp [bytes]
  | char c =>
    constructor
    · intro h
      obtain ⟨rfl, hencode⟩ := char_of_feed (List.mem_of_getElem? h)
      refine ⟨rfl, ?_⟩
      rw [bytes, hencode] at h
      cases i with
      | zero => rfl
      | succ i => cases h
    · rintro ⟨hc, rfl⟩
      rw [eq_of_beq hc]
      rfl

theorem feed_bytesOf {atoms : List Atom} (h : ∀ b, .stray b ∈ atoms → 0x80 ≤ b.toNat) {k : Nat} :
    (bytesOf atoms)[k]? = some 0x0A ↔ k ∈ places isFeed 0 atoms := by
  induction atoms using List.reverseRecOn with
  | nil => simp [bytesOf, places]
  | append_singleton atoms a ih =>
    have hmore := ih fun b hb => h b (List.mem_append_left _ hb)
    have hlast := feed_bytes (a := a) (fun b hb => h b (by simp [hb])) (k - extent atoms)
    rw [bytesOf_append, mem_places_append, mem_places_cons, Nat.zero_add]
    by_cases hk : k < extent atoms
    · rw [List.getElem?_append_left (by rwa [bytesOf_length]), hmore]
      constructor
      · exact .inl
      · rintro (hmem | ⟨-, rfl⟩ | hmem)
        · exact hmem
        · exact absurd hk (Nat.lt_irrefl _)
        · cases hmem
    · rw [List.getElem?_append_right (by rw [bytesOf_length]; omega), bytesOf_length, bytesOf_cons]
      have hnil : bytesOf [] = [] := rfl
      rw [hnil, List.append_nil, hlast]
      constructor
      · rintro ⟨ha, hzero⟩
        exact .inr (.inl ⟨ha, by omega⟩)
      · rintro (hmem | ⟨ha, rfl⟩ | hmem)
        · have := places_bounds hmem
          omega
        · exact ⟨ha, Nat.sub_self _⟩
        · cases hmem

/-- A line feed is decoded as such, and nothing else is. -/
theorem feed_iff {source : List UInt8} {k : Nat} :
    source[k]? = some 0x0A ↔ k ∈ places isFeed 0 (decode source) := by
  have hstray : ∀ b, .stray b ∈ decode source → 0x80 ≤ b.toNat := fun _ => stray_of_decode
  rw [← feed_bytesOf hstray, bytesOf_decode]

end Utf8

end LabelGraph
