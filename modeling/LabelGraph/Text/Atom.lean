/-!
Source text as a list of atoms. A text arrives as bytes that need not be
UTF-8. Decoding keeps every byte: a character wherever a well-formed sequence
starts, and otherwise a stray byte by itself. A byte that breaks a sequence off
can never start a character when it is a continuation byte, so giving up one
byte at a time finds the same characters as giving up a whole broken sequence.
-/

namespace LabelGraph

/-- One unit of source text: a decoded character, or a byte that belongs to no
character. -/
inductive Atom where
  | char (c : Char)
  | stray (b : UInt8)
deriving DecidableEq, Repr

namespace Atom

def size : Atom → Nat
  | .char c => c.utf8Size
  | .stray _ => 1

/-- Whether the atom is a character of class `p`. No stray byte is in any class. -/
def satisfies (p : Char → Bool) : Atom → Bool
  | .char c => p c
  | .stray _ => false

def isStray : Atom → Bool
  | .char _ => false
  | .stray _ => true

def char? : Atom → Option Char
  | .char c => some c
  | .stray _ => none

def byte? : Atom → Option UInt8
  | .char _ => none
  | .stray b => some b

end Atom

namespace Utf8

/-- The payload of a lead byte and the bounds of each byte that must follow it.
The bounds on the second byte exclude overlong forms, surrogates, and values
past the last scalar value. -/
def lead? (b : UInt8) : Option (Nat × List (UInt8 × UInt8)) :=
  let n := b.toNat
  if n < 0x80 then some (n, [])
  else if n < 0xC2 then none
  else if n < 0xE0 then some (n - 0xC0, [(0x80, 0xBF)])
  else if n < 0xF0 then
    let second := (if n = 0xE0 then 0xA0 else 0x80, if n = 0xED then 0x9F else 0xBF)
    some (n - 0xE0, [second, (0x80, 0xBF)])
  else if n < 0xF5 then
    let second := (if n = 0xF0 then 0x90 else 0x80, if n = 0xF4 then 0x8F else 0xBF)
    some (n - 0xF0, [second, (0x80, 0xBF), (0x80, 0xBF)])
  else none

/-- Reads one continuation byte for each pair of bounds. Each adds its six low
bits to the value. -/
def continue? : List (UInt8 × UInt8) → Nat → List UInt8 → Option (Nat × List UInt8)
  | [], value, bytes => some (value, bytes)
  | _ :: _, _, [] => none
  | (low, high) :: bounds, value, b :: bytes =>
    if low ≤ b ∧ b ≤ high then continue? bounds (value * 64 + (b.toNat - 0x80)) bytes
    else none

/-- The character whose UTF-8 form starts with `lead` and goes on in the bytes
that follow, with what is left of them. -/
def char? (lead : UInt8) (bytes : List UInt8) : Option (Char × List UInt8) :=
  match lead? lead with
  | none => none
  | some (value, bounds) =>
    (continue? bounds value bytes).map fun (value, rest) => (Char.ofNat value, rest)

theorem length_of_continue? {bounds : List (UInt8 × UInt8)} {value total : Nat}
    {bytes rest : List UInt8} (h : continue? bounds value bytes = some (total, rest)) :
    bytes.length = rest.length + bounds.length := by
  induction bounds generalizing value bytes with
  | nil => simp_all [continue?]
  | cons bound bounds ih =>
    cases bytes with
    | nil => simp [continue?] at h
    | cons b bytes =>
      simp only [continue?] at h
      split at h
      · have := ih h
        simp only [List.length_cons]
        omega
      · cases h

/-- Decoding a character never lengthens what is left to read. -/
theorem length_of_char? {lead : UInt8} {bytes rest : List UInt8} {c : Char}
    (h : char? lead bytes = some (c, rest)) : rest.length ≤ bytes.length := by
  unfold char? at h
  split at h
  · cases h
  · next value bounds _ =>
    obtain ⟨⟨total, tail⟩, found, same⟩ := Option.map_eq_some_iff.1 h
    have := length_of_continue? found
    cases same
    omega

/-- The atoms of the bytes, after those already read, which are in reverse. -/
def decodeAfter (read : List Atom) : List UInt8 → List Atom
  | [] => read.reverse
  | lead :: bytes =>
    match _found : char? lead bytes with
    | some (c, rest) => decodeAfter (.char c :: read) rest
    | none => decodeAfter (.stray lead :: read) bytes
termination_by bytes => bytes.length
decreasing_by
  · have := length_of_char? _found
    simp only [List.length_cons]
    omega
  · simp only [List.length_cons]
    omega

def decode (bytes : List UInt8) : List Atom :=
  decodeAfter [] bytes

def encode (text : List Char) : List UInt8 := text.flatMap String.utf8EncodeChar

end Utf8

def textOf (atoms : List Atom) : String :=
  String.ofList (atoms.filterMap Atom.char?)

/-- The text as characters alone, if every byte of it is UTF-8. -/
def utf8Text? (bytes : List UInt8) : Option (List Char) :=
  (Utf8.decode bytes).mapM Atom.char?

end LabelGraph
