import LabelGraph.Proofs.Text.Stray

/-!
Pieces of a text by byte offsets. A piece can be taken only where both offsets lie in the
text, in order, and between characters. Nothing is had otherwise.
-/

namespace LabelGraph

namespace Utf8

variable {text front back : List Char} {i j n : Nat}

def width (text : List Char) : Nat := Atom.extent (text.map .char)

def splitAt? : Nat → List Char → Option (List Char × List Char)
  | 0, text => some ([], text)
  | _ + 1, [] => none
  | n + 1, c :: text =>
    if c.utf8Size ≤ n + 1 then
      (splitAt? (n + 1 - c.utf8Size) text).map fun (front, back) => (c :: front, back)
    else none

def suffix? (text : List Char) (i : Nat) : Option (List Char) :=
  (splitAt? i text).map Prod.snd

def slice? (text : List Char) (i j : Nat) : Option (List Char) :=
  (splitAt? j text).bind fun (front, _) => suffix? front i

@[simp] theorem width_nil : width [] = 0 := rfl

@[simp] theorem width_cons (c : Char) (text : List Char) :
    width (c :: text) = c.utf8Size + width text :=
  rfl

@[simp] theorem width_append (front back : List Char) :
    width (front ++ back) = width front + width back := by
  rw [width, List.map_append, Atom.extent_append]
  rfl

theorem eq_nil_of_width (h : width text = 0) : text = [] := by
  cases text with
  | nil => rfl
  | cons c text =>
    have := c.utf8Size_pos
    rw [width_cons] at h
    omega

@[simp] theorem width_encode (text : List Char) : (encode text).length = width text := by
  induction text with
  | nil => rfl
  | cons c text ih =>
    rw [width_cons, ← ih, ← String.length_utf8EncodeChar, ← List.length_append]
    rfl

/-- A cut is one between characters. -/
theorem splitAt?_eq_some_iff :
    splitAt? n text = some (front, back) ↔ text = front ++ back ∧ n = width front := by
  fun_induction splitAt? n text generalizing front with
  | case1 text =>
    constructor
    · intro h
      cases h
      exact ⟨rfl, rfl⟩
    · rintro ⟨rfl, hwidth⟩
      cases front with
      | nil => rfl
      | cons c front =>
        have := c.utf8Size_pos
        rw [width_cons] at hwidth
        omega
  | case2 n =>
    refine iff_of_false nofun ?_
    rintro ⟨htext, hwidth⟩
    rw [(List.append_eq_nil_iff.1 htext.symm).1] at hwidth
    cases hwidth
  | case3 n c text hfits ih =>
    rw [Option.map_eq_some_iff]
    constructor
    · rintro ⟨⟨front', back'⟩, hsplit, heq⟩
      obtain ⟨rfl, rfl⟩ := Prod.mk.inj heq
      obtain ⟨htext, hwidth⟩ := ih.1 hsplit
      exact ⟨congrArg (c :: ·) htext, by rw [width_cons, ← hwidth]; omega⟩
    · rintro ⟨htext, hwidth⟩
      cases front with
      | nil => cases hwidth
      | cons d front =>
        obtain ⟨rfl, hmore⟩ := List.cons.inj htext
        rw [width_cons] at hwidth
        exact ⟨(front, back), ih.2 ⟨hmore, by omega⟩, rfl⟩
  | case4 n c text hfits =>
    refine iff_of_false nofun ?_
    rintro ⟨htext, hwidth⟩
    cases front with
    | nil => cases hwidth
    | cons d front =>
      obtain ⟨rfl, -⟩ := List.cons.inj htext
      rw [width_cons] at hwidth
      omega

@[simp] theorem splitAt?_width (front back : List Char) :
    splitAt? (width front) (front ++ back) = some (front, back) :=
  splitAt?_eq_some_iff.2 ⟨rfl, rfl⟩

@[simp] theorem suffix?_width (front back : List Char) :
    suffix? (front ++ back) (width front) = some back := by
  rw [suffix?, splitAt?_width]
  rfl

@[simp] theorem slice?_width (front middle back : List Char) :
    slice? (front ++ (middle ++ back)) (width front) (width front + width middle) =
      some middle := by
  rw [slice?, ← List.append_assoc, ← width_append, splitAt?_width]
  exact suffix?_width front middle

end Utf8

end LabelGraph
