import LabelGraph.Toml.Number
import Mathlib.Algebra.GroupWithZero.Nat

/-!
A natural number in base ten is read as that number. A line end behind its digits keeps it
from being taken for a date, for a time or for a number with a fraction.
-/

namespace LabelGraph.Toml

variable {digits rest text : List Char} {d : Char}

/-! The digits of a number. -/

theorem number_eq_ofDigitChars (hdigits : ∀ d ∈ digits, d.isDigit = true) (start : Nat) :
    digits.foldl (fun n c => n * 10 + (Digits.value? c).getD 0) start =
      Nat.ofDigitChars 10 digits start := by
  induction digits generalizing start with
  | nil => rfl
  | cons d digits ih =>
    obtain ⟨hd, hrest⟩ := List.forall_mem_cons.1 hdigits
    have hvalue : (Digits.value? d).getD 0 = d.toNat - '0'.toNat := by
      rw [Digits.value?, if_pos hd]
      rfl
    rw [List.foldl_cons, ih hrest, hvalue, Nat.mul_comm, Nat.ofDigitChars, Nat.ofDigitChars,
      List.foldl_cons]

theorem isDigit_toDigits (n : Nat) : ∀ d ∈ Nat.toDigits 10 n, d.isDigit = true :=
  fun _ hd => Nat.isDigit_of_mem_toDigits (by decide) (by decide) hd

/-- A number has a first digit. -/
theorem toDigits_cons (n : Nat) :
    ∃ d digits, Nat.toDigits 10 n = d :: digits ∧ d.isDigit = true ∧
      ∀ e ∈ digits, e.isDigit = true := by
  have hne : Nat.toDigits 10 n ≠ [] := by
    rw [Nat.toDigits_eq_if (by decide)]
    split <;> simp
  have hdigits := isDigit_toDigits n
  obtain ⟨d, digits, hlist⟩ := List.exists_cons_of_ne_nil hne
  rw [hlist] at hdigits
  exact ⟨d, digits, hlist, List.forall_mem_cons.1 hdigits⟩

/-- No number but zero starts with a zero. -/
theorem toDigits_head (n : Nat) (hn : 0 < n) : (Nat.toDigits 10 n).head? ≠ some '0' := by
  induction n using Nat.strongRecOn with
  | ind n ih =>
    rw [Nat.toDigits_eq_if (by decide)]
    split
    · next hlt =>
      have hdigit : ∀ n < 10, 0 < n → n.digitChar ≠ '0' := by decide
      simpa using hdigit n hlt hn
    · next hge =>
      have hsmaller : n / 10 < n := Nat.div_lt_self hn (by decide)
      have hpos : 0 < n / 10 := Nat.div_pos (Nat.not_lt.1 hge) (by decide)
      have hfirst := ih _ hsmaller hpos
      obtain ⟨d, tail, hlist, -⟩ := toDigits_cons (n / 10)
      rw [hlist] at hfirst ⊢
      exact hfirst

theorem bounded?_toDigits (n : Nat) (hn : n < 10 ^ 64) :
    Digits.bounded? 10 64 (Nat.toDigits 10 n) = some n := by
  rcases Nat.eq_zero_or_pos n with rfl | hpos
  · rfl
  · have hdrop : (Nat.toDigits 10 n).dropWhile (· == '0') = Nat.toDigits 10 n := by
      have hhead := toDigits_head n hpos
      cases hdigits : Nat.toDigits 10 n with
      | nil => rfl
      | cons d digits =>
        rw [hdigits] at hhead
        exact List.dropWhile_cons_of_neg (by simpa using hhead)
    have hlength : (Nat.toDigits 10 n).length ≤ 64 :=
      (Nat.length_toDigits_le_iff (by decide) (by decide)).2 hn
    have hnumber : Digits.number 10 (Nat.toDigits 10 n) = n :=
      (number_eq_ofDigitChars (isDigit_toDigits n) 0).trans
        (Nat.ofDigitChars_toDigits (by decide) (by decide))
    rw [Digits.bounded?, hdrop, hnumber, List.drop_of_length_le hlength]
    rfl

theorem integer?_toDigits (n : Nat) (hn : n < 2 ^ 63) :
    integer? false 10 (Nat.toDigits 10 n) = some (.integer n) := by
  have hbounded := bounded?_toDigits n (Nat.lt_trans hn (by decide))
  simp only [integer?, hbounded]
  have hrange : -9223372036854775808 ≤ (n : Int) ∧ (n : Int) ≤ 9223372036854775807 := by
    omega
  simp [hrange]

/-! No date and no time. -/

/-- Digits are not followed by a mark that parts the fields of a date or a time. -/
theorem expect?_field (hdigits : ∀ d ∈ digits, d.isDigit = true) {count low high n : Nat}
    (h : field? count low high (digits ++ '\n' :: rest) = some (n, text)) {c : Char}
    (hc : c.isDigit = false) (hline : c ≠ '\n') : expect? c text = none := by
  simp only [field?] at h
  split at h
  · next hfield =>
    cases h
    obtain ⟨-, hall, -⟩ := hfield
    have hcount : count ≤ digits.length := by
      refine Nat.not_lt.1 fun hshort => ?_
      obtain ⟨more, hmore⟩ : ∃ more, count = digits.length + (more + 1) :=
        ⟨count - digits.length - 1, by omega⟩
      rw [hmore, List.take_length_add_append] at hall
      simp at hall
    rw [List.drop_append_of_le_length hcount]
    cases hdrop : digits.drop count with
    | nil =>
      rw [List.nil_append, expect?, if_neg hline.symm]
    | cons d tail =>
      have hd : d.isDigit = true := hdigits d (List.mem_of_mem_drop (hdrop ▸ List.mem_cons_self))
      rw [List.cons_append, expect?, if_neg]
      rintro rfl
      rw [hc] at hd
      cases hd
  · cases h

theorem dateTimeEnd?_digits (hdigits : ∀ d ∈ digits, d.isDigit = true) :
    dateTimeEnd? (digits ++ '\n' :: rest) = none := by
  have hdate : date? (digits ++ '\n' :: rest) = none := by
    cases hfield : field? 4 0 9999 (digits ++ '\n' :: rest) with
    | none => simp [date?, hfield]
    | some found =>
      have hmark := expect?_field hdigits hfield (c := '-') (by decide) (by decide)
      simp [date?, hfield, hmark]
  have htime : time? (digits ++ '\n' :: rest) = none := by
    cases hfield : field? 2 0 23 (digits ++ '\n' :: rest) with
    | none => simp [time?, hfield]
    | some found =>
      have hmark := expect?_field hdigits hfield (c := ':') (by decide) (by decide)
      simp [time?, hfield, hmark]
  rw [dateTimeEnd?, hdate]
  exact htime

/-! A number without a fraction. -/

theorem digitsAfter_line (hdigits : ∀ d ∈ digits, d.isDigit = true) (read : List Char) :
    digitsAfter Char.isDigit read (digits ++ '\n' :: rest) =
      (read.reverse ++ digits, '\n' :: rest) := by
  induction digits generalizing read with
  | nil =>
    rw [List.nil_append, List.append_nil, digitsAfter]
    · rfl
    · exact nofun
  | cons d digits ih =>
    obtain ⟨hd, hrest⟩ := List.forall_mem_cons.1 hdigits
    rw [List.cons_append, digitsAfter]
    · rw [if_pos hd, ih hrest]
      simp
    · rintro _ _ rfl
      cases hd

theorem decimal?_toDigits (n : Nat) (hn : n < 2 ^ 63) :
    decimal? false (Nat.toDigits 10 n ++ '\n' :: rest) = some (.integer n, '\n' :: rest) := by
  have hread : digits? Char.isDigit (Nat.toDigits 10 n ++ '\n' :: rest) =
      some (Nat.toDigits 10 n, '\n' :: rest) := by
    obtain ⟨d, digits, hlist, hd, hrest⟩ := toDigits_cons n
    rw [hlist, List.cons_append, digits?, if_pos hd, digitsAfter_line hrest]
    rfl
  have hzero : ¬ ((Nat.toDigits 10 n).length ≠ 1 ∧ (Nat.toDigits 10 n).head? = some '0') := by
    rintro ⟨hlength, hhead⟩
    rcases Nat.eq_zero_or_pos n with rfl | hpos
    · exact hlength rfl
    · exact toDigits_head n hpos hhead
  have hinteger := integer?_toDigits n hn
  simp only [decimal?, hread, fraction?, Option.bind_eq_bind, Option.bind_some, if_neg hzero,
    hinteger]
  rfl

/-- A number starts with no sign and with no mark of another base. -/
theorem number?_digits (hd : d.isDigit = true)
    (hbehind : ∀ c ∈ text.head?, c.isDigit = true ∨ c = '\n') :
    number? (d :: text) = decimal? false (d :: text) := by
  have hsigned : signed? false (d :: text) = decimal? false (d :: text) := by
    rw [signed?]
    · rintro rest ⟨⟩
      cases hd
    · rintro rest ⟨⟩
      cases hd
  rw [number?]
  · exact hsigned
  · rintro rest ⟨⟩
    cases hd
  · rintro rest ⟨⟩
    cases hd
  · rintro rest ⟨⟩
    exact absurd (hbehind 'x' rfl) (by decide)
  · rintro rest ⟨⟩
    exact absurd (hbehind 'o' rfl) (by decide)
  · rintro rest ⟨⟩
    exact absurd (hbehind 'b' rfl) (by decide)

/-- The digits of a number and the end of the line. -/
theorem dateTimeOrNumber?_toDigits (n : Nat) (hn : n < 2 ^ 63) (rest : List Char) :
    dateTimeOrNumber? (Nat.toDigits 10 n ++ '\n' :: rest) = some (.integer n, '\n' :: rest) := by
  have hnumber : number? (Nat.toDigits 10 n ++ '\n' :: rest) =
      decimal? false (Nat.toDigits 10 n ++ '\n' :: rest) := by
    obtain ⟨d, digits, hlist, hd, hrest⟩ := toDigits_cons n
    rw [hlist]
    apply number?_digits hd
    intro c hc
    cases digits with
    | nil =>
      cases hc
      exact .inr rfl
    | cons e digits =>
      cases hc
      exact .inl (hrest _ List.mem_cons_self)
  rw [dateTimeOrNumber?, dateTimeEnd?_digits (isDigit_toDigits n)]
  exact hnumber.trans (decimal?_toDigits n hn)

end LabelGraph.Toml
