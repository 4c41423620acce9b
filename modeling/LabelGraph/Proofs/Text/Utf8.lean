import LabelGraph.Text.Atom

/-!
Decoding loses nothing and makes nothing up. The bytes of the atoms of a text are
the bytes of the text, and every sequence that encodes a character is decoded to
this character, whatever follows it.
-/

namespace LabelGraph

def Atom.bytes : Atom → List UInt8
  | .char c => String.utf8EncodeChar c
  | .stray b => [b]

theorem Atom.size_pos (a : Atom) : 0 < a.size := by
  cases a with
  | char c => exact Char.utf8Size_pos c
  | stray b => exact Nat.one_pos

namespace Utf8

theorem decodeAfter_append (more read : List Atom) (bytes : List UInt8) :
    decodeAfter (more ++ read) bytes = read.reverse ++ decodeAfter more bytes := by
  fun_induction decodeAfter more bytes with
  | case1 more => simp [decodeAfter]
  | case2 more lead bytes c rest found ih =>
    rw [decodeAfter]
    split
    · next found' =>
      rw [found] at found'
      cases found'
      exact ih
    · next found' => simp [found] at found'
  | case3 more lead bytes found ih =>
    rw [decodeAfter]
    split
    · next found' => simp [found] at found'
    · exact ih

@[simp] theorem decode_nil : decode [] = [] := by
  simp [decode, decodeAfter]

theorem decode_char {lead : UInt8} {bytes rest : List UInt8} {c : Char}
    (h : char? lead bytes = some (c, rest)) : decode (lead :: bytes) = .char c :: decode rest := by
  rw [decode, decodeAfter]
  split
  · next found =>
    rw [h] at found
    cases found
    exact decodeAfter_append [] [_] _
  · next found =>
    rw [h] at found
    cases found

theorem decode_stray {lead : UInt8} {bytes : List UInt8} (h : char? lead bytes = none) :
    decode (lead :: bytes) = .stray lead :: decode bytes := by
  rw [decode, decodeAfter]
  split
  · next found =>
    rw [h] at found
    cases found
  · exact decodeAfter_append [] [_] _

/-- A scalar value is no surrogate and at most `10FFFF`. -/
theorem scalar_bounds (c : Char) :
    c.toNat < 0xD800 ∨ 0xDFFF < c.toNat ∧ c.toNat < 0x110000 := by
  have := c.valid
  simpa [UInt32.isValidChar, Nat.isValidChar] using this

/-! What a lead byte announces, by its value. -/

theorem lead?_one {b : UInt8} (h : b.toNat < 0x80) : lead? b = some (b.toNat, []) := by
  simp only [lead?, if_pos h]

theorem lead?_two {b : UInt8} (hlow : 0xC2 ≤ b.toNat) (hhigh : b.toNat < 0xE0) :
    lead? b = some (b.toNat - 0xC0, [(0x80, 0xBF)]) := by
  simp only [lead?]
  rw [if_neg (by omega), if_neg (by omega), if_pos hhigh]

theorem lead?_three {b : UInt8} (hlow : 0xE0 ≤ b.toNat) (hhigh : b.toNat < 0xF0) :
    lead? b = some (b.toNat - 0xE0,
      [(if b.toNat = 0xE0 then 0xA0 else 0x80, if b.toNat = 0xED then 0x9F else 0xBF),
        (0x80, 0xBF)]) := by
  simp only [lead?]
  rw [if_neg (by omega), if_neg (by omega), if_neg (by omega), if_pos hhigh]

theorem lead?_four {b : UInt8} (hlow : 0xF0 ≤ b.toNat) (hhigh : b.toNat < 0xF5) :
    lead? b = some (b.toNat - 0xF0,
      [(if b.toNat = 0xF0 then 0x90 else 0x80, if b.toNat = 0xF4 then 0x8F else 0xBF),
        (0x80, 0xBF), (0x80, 0xBF)]) := by
  simp only [lead?]
  rw [if_neg (by omega), if_neg (by omega), if_neg (by omega), if_neg (by omega), if_pos hhigh]

theorem lead?_none {b : UInt8} (h : 0x80 ≤ b.toNat ∧ b.toNat < 0xC2 ∨ 0xF5 ≤ b.toNat) :
    lead? b = none := by
  simp only [lead?]
  rw [if_neg (by omega)]
  rcases h with h | h
  · rw [if_pos h.2]
  · rw [if_neg (by omega), if_neg (by omega), if_neg (by omega), if_neg (by omega)]

theorem continue?_cons {low high b : UInt8} {bounds : List (UInt8 × UInt8)} {value : Nat}
    {bytes : List UInt8} (h : low.toNat ≤ b.toNat ∧ b.toNat ≤ high.toNat) :
    continue? ((low, high) :: bounds) value (b :: bytes) =
      continue? bounds (value * 64 + (b.toNat - 0x80)) bytes := by
  rw [continue?, if_pos (by simpa [UInt8.le_iff_toNat_le] using h)]

theorem toNat_byte {n : Nat} (h : n < 256) : (UInt8.ofNat n).toNat = n := by
  simpa using h

/-- The encoding of a character is decoded to it. -/
theorem char?_encode (c : Char) (rest : List UInt8) :
    ∃ lead bytes, String.utf8EncodeChar c = lead :: bytes ∧
      char? lead (bytes ++ rest) = some (c, rest) := by
  have hscalar := scalar_bounds c
  have hof : Char.ofNat c.toNat = c := Char.ofNat_toNat c
  have hv : c.val.toNat = c.toNat := rfl
  simp only [String.utf8EncodeChar, hv]
  generalize c.toNat = v at *
  split
  · refine ⟨_, _, rfl, ?_⟩
    have h1 : (UInt8.ofNat v).toNat = v := toNat_byte (by omega)
    rw [char?, lead?_one (by omega), h1]
    simp [continue?, hof]
  split
  · refine ⟨_, _, rfl, ?_⟩
    have h1 : (UInt8.ofNat (v / 64 % 0x20 + 0xc0)).toNat = v / 64 % 0x20 + 0xc0 :=
      toNat_byte (by omega)
    have h2 : (UInt8.ofNat (v % 0x40 + 0x80)).toNat = v % 0x40 + 0x80 := toNat_byte (by omega)
    have hvalue : (v / 64 % 0x20 + 0xc0 - 0xC0) * 64 + (v % 0x40 + 0x80 - 0x80) = v := by omega
    rw [char?, lead?_two (by omega) (by omega)]
    simp only [List.cons_append, List.nil_append]
    rw [continue?_cons (by rw [h2]; simp; omega), continue?, h1, h2, hvalue]
    simp [hof]
  split
  · refine ⟨_, _, rfl, ?_⟩
    have h1 : (UInt8.ofNat (v / 4096 % 0x10 + 0xe0)).toNat = v / 4096 % 0x10 + 0xe0 :=
      toNat_byte (by omega)
    have h2 : (UInt8.ofNat (v / 64 % 0x40 + 0x80)).toNat = v / 64 % 0x40 + 0x80 :=
      toNat_byte (by omega)
    have h3 : (UInt8.ofNat (v % 0x40 + 0x80)).toNat = v % 0x40 + 0x80 := toNat_byte (by omega)
    have hvalue : ((v / 4096 % 0x10 + 0xe0 - 0xE0) * 64 + (v / 64 % 0x40 + 0x80 - 0x80)) * 64 +
        (v % 0x40 + 0x80 - 0x80) = v := by omega
    rw [char?, lead?_three (by omega) (by omega)]
    simp only [List.cons_append, List.nil_append]
    rw [continue?_cons (by rw [h1, h2]; constructor <;> split <;> simp <;> omega),
      continue?_cons (by rw [h3]; simp; omega), continue?, h1, h2, h3, hvalue]
    simp [hof]
  · refine ⟨_, _, rfl, ?_⟩
    have h1 : (UInt8.ofNat (v / 262144 % 0x08 + 0xf0)).toNat = v / 262144 % 0x08 + 0xf0 :=
      toNat_byte (by omega)
    have h2 : (UInt8.ofNat (v / 4096 % 0x40 + 0x80)).toNat = v / 4096 % 0x40 + 0x80 :=
      toNat_byte (by omega)
    have h3 : (UInt8.ofNat (v / 64 % 0x40 + 0x80)).toNat = v / 64 % 0x40 + 0x80 :=
      toNat_byte (by omega)
    have h4 : (UInt8.ofNat (v % 0x40 + 0x80)).toNat = v % 0x40 + 0x80 := toNat_byte (by omega)
    have hvalue : (((v / 262144 % 0x08 + 0xf0 - 0xF0) * 64 + (v / 4096 % 0x40 + 0x80 - 0x80)) * 64 +
        (v / 64 % 0x40 + 0x80 - 0x80)) * 64 + (v % 0x40 + 0x80 - 0x80) = v := by omega
    rw [char?, lead?_four (by omega) (by omega)]
    simp only [List.cons_append, List.nil_append]
    rw [continue?_cons (by rw [h1, h2]; constructor <;> split <;> simp <;> omega),
      continue?_cons (by rw [h3]; simp; omega), continue?_cons (by rw [h4]; simp; omega),
      continue?, h1, h2, h3, h4, hvalue]
    simp [hof]

theorem continue?_inv {low high : UInt8} {bounds : List (UInt8 × UInt8)} {value : Nat}
    {bytes : List UInt8} {result : Nat × List UInt8}
    (h : continue? ((low, high) :: bounds) value bytes = some result) :
    ∃ b more, bytes = b :: more ∧ (low.toNat ≤ b.toNat ∧ b.toNat ≤ high.toNat) ∧
      continue? bounds (value * 64 + (b.toNat - 0x80)) more = some result := by
  cases bytes with
  | nil => cases h
  | cons b more =>
      rw [continue?] at h
      split at h
      · next hb => exact ⟨b, more, rfl, by simpa [UInt8.le_iff_toNat_le] using hb, h⟩
      · cases h

theorem toNat_ofNat {v : Nat} (h : v < 0xD800 ∨ 0xDFFF < v ∧ v < 0x110000) :
    (Char.ofNat v).val.toNat = v := by
  have hvalid : v.isValidChar := h
  rw [Char.ofNat, dif_pos hvalid]
  rfl

theorem byte_eq {n : Nat} {b : UInt8} (h : n = b.toNat) : UInt8.ofNat n = b := by
  rw [h, UInt8.ofNat_toNat]

/-- A character is decoded from nothing but its encoding. -/
theorem encode_char? {lead : UInt8} {bytes rest : List UInt8} {c : Char}
    (h : char? lead bytes = some (c, rest)) :
    lead :: bytes = String.utf8EncodeChar c ++ rest := by
  have hlead := lead.toNat_lt
  rw [char?] at h
  by_cases h1 : lead.toNat < 0x80
  · rw [lead?_one h1] at h
    simp only [continue?, Option.map_some, Option.some.injEq, Prod.mk.injEq] at h
    obtain ⟨rfl, rfl⟩ := h
    simp only [String.utf8EncodeChar, toNat_ofNat (v := lead.toNat) (by omega)]
    rw [if_pos (by omega), byte_eq rfl]
    rfl
  by_cases h2 : lead.toNat < 0xC2 ∨ 0xF5 ≤ lead.toNat
  · rw [lead?_none (by omega)] at h
    cases h
  by_cases h3 : lead.toNat < 0xE0
  · rw [lead?_two (by omega) h3] at h
    obtain ⟨⟨value, tail⟩, hcontinue, heq⟩ := Option.map_eq_some_iff.1 h
    obtain ⟨b, more, rfl, hb, hcontinue⟩ := continue?_inv hcontinue
    simp only [continue?, Option.some.injEq, Prod.mk.injEq] at hcontinue heq
    obtain ⟨rfl, rfl⟩ := hcontinue
    obtain ⟨rfl, rfl⟩ := heq
    simp only [UInt8.reduceToNat] at hb
    simp only [String.utf8EncodeChar,
      toNat_ofNat (v := (lead.toNat - 0xC0) * 64 + (b.toNat - 0x80)) (by omega)]
    rw [if_neg (by omega), if_pos (by omega), byte_eq (b := lead) (by omega),
      byte_eq (b := b) (by omega)]
    rfl
  by_cases h4 : lead.toNat < 0xF0
  · rw [lead?_three (by omega) h4] at h
    obtain ⟨⟨value, tail⟩, hcontinue, heq⟩ := Option.map_eq_some_iff.1 h
    obtain ⟨b, more, rfl, hb, hcontinue⟩ := continue?_inv hcontinue
    obtain ⟨d, more, rfl, hd, hcontinue⟩ := continue?_inv hcontinue
    simp only [continue?, Option.some.injEq, Prod.mk.injEq] at hcontinue heq
    obtain ⟨rfl, rfl⟩ := hcontinue
    obtain ⟨rfl, rfl⟩ := heq
    simp only [apply_ite UInt8.toNat, UInt8.reduceToNat] at hb hd
    obtain ⟨hlow, hhigh⟩ := hb
    -- The bounds of the second byte keep out overlong forms and surrogates.
    have hbyte : 0x80 ≤ b.toNat ∧ b.toNat ≤ 0xBF ∧
        (lead.toNat = 0xE0 → 0xA0 ≤ b.toNat) ∧ (lead.toNat = 0xED → b.toNat ≤ 0x9F) := by
      split at hlow <;> split at hhigh <;> omega
    simp only [String.utf8EncodeChar,
      toNat_ofNat (v := ((lead.toNat - 0xE0) * 64 + (b.toNat - 0x80)) * 64 + (d.toNat - 0x80))
        (by omega)]
    rw [if_neg (by omega), if_neg (by omega), if_pos (by omega), byte_eq (b := lead) (by omega),
      byte_eq (b := b) (by omega), byte_eq (b := d) (by omega)]
    rfl
  · rw [lead?_four (by omega) (by omega)] at h
    obtain ⟨⟨value, tail⟩, hcontinue, heq⟩ := Option.map_eq_some_iff.1 h
    obtain ⟨b, more, rfl, hb, hcontinue⟩ := continue?_inv hcontinue
    obtain ⟨d, more, rfl, hd, hcontinue⟩ := continue?_inv hcontinue
    obtain ⟨e, more, rfl, he, hcontinue⟩ := continue?_inv hcontinue
    simp only [continue?, Option.some.injEq, Prod.mk.injEq] at hcontinue heq
    obtain ⟨rfl, rfl⟩ := hcontinue
    obtain ⟨rfl, rfl⟩ := heq
    simp only [apply_ite UInt8.toNat, UInt8.reduceToNat] at hb hd he
    obtain ⟨hlow, hhigh⟩ := hb
    -- Here they keep out overlong forms and values past the last scalar value.
    have hbyte : 0x80 ≤ b.toNat ∧ b.toNat ≤ 0xBF ∧
        (lead.toNat = 0xF0 → 0x90 ≤ b.toNat) ∧ (lead.toNat = 0xF4 → b.toNat ≤ 0x8F) := by
      split at hlow <;> split at hhigh <;> omega
    simp only [String.utf8EncodeChar,
      toNat_ofNat (v := (((lead.toNat - 0xF0) * 64 + (b.toNat - 0x80)) * 64 +
        (d.toNat - 0x80)) * 64 + (e.toNat - 0x80)) (by omega)]
    rw [if_neg (by omega), if_neg (by omega), if_neg (by omega), byte_eq (b := lead) (by omega),
      byte_eq (b := b) (by omega), byte_eq (b := d) (by omega), byte_eq (b := e) (by omega)]
    rfl

/-- The atoms of a text spell its bytes. -/
@[simp] theorem bytes_decode (bytes : List UInt8) : (decode bytes).flatMap Atom.bytes = bytes := by
  induction hn : bytes.length using Nat.strongRecOn generalizing bytes with
  | ind n ih =>
    subst hn
    cases bytes with
    | nil => rw [decode_nil]; rfl
    | cons lead bytes =>
      cases found : char? lead bytes with
      | none =>
        rw [decode_stray found, List.flatMap_cons, ih bytes.length (by simp) bytes rfl]
        rfl
      | some result =>
        obtain ⟨c, rest⟩ := result
        have hlength := length_of_char? found
        rw [decode_char found, List.flatMap_cons,
          ih rest.length (by simp only [List.length_cons]; omega) rest rfl, encode_char? found]
        rfl

/-- Characters are decoded from their encodings one by one. -/
theorem decode_encode_append (text : List Char) (rest : List UInt8) :
    decode (encode text ++ rest) = text.map Atom.char ++ decode rest := by
  induction text with
  | nil => rfl
  | cons c text ih =>
      obtain ⟨lead, bytes, hencode, hchar⟩ := char?_encode c (encode text ++ rest)
      have hcons : encode (c :: text) ++ rest = lead :: (bytes ++ (encode text ++ rest)) := by
        simp [encode, hencode]
      rw [hcons, decode_char hchar, ih]
      rfl

@[simp] theorem decode_encode (text : List Char) : decode (encode text) = text.map Atom.char := by
  simpa using decode_encode_append text []

end Utf8

end LabelGraph
