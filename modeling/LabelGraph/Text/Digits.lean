/-!
Digits of numbers in text, for bases up to sixteen.
-/

namespace LabelGraph.Digits

def lowerHex (n : Nat) : Char :=
  if n < 10 then Char.ofNat (n + 0x30) else Char.ofNat (n - 10 + 0x61)

def upperHex (n : Nat) : Char :=
  if n < 10 then Char.ofNat (n + 0x30) else Char.ofNat (n - 10 + 0x41)

/-- The value of a digit, in upper or lower case. -/
def value? (c : Char) : Option Nat :=
  if c.isDigit then some (c.toNat - 0x30)
  else if 'a' ≤ c ∧ c ≤ 'f' then some (c.toNat - 0x61 + 10)
  else if 'A' ≤ c ∧ c ≤ 'F' then some (c.toNat - 0x41 + 10)
  else none

def isDigitOf (base : Nat) (c : Char) : Bool :=
  match value? c with
  | some n => n < base
  | none => false

def number (base : Nat) (digits : List Char) : Nat :=
  digits.foldl (fun n c => n * base + (value? c).getD 0) 0

/-- The number that digits spell, unless more than `count` of them are significant. -/
def bounded? (base count : Nat) (digits : List Char) : Option Nat :=
  let significant := digits.dropWhile (· == '0')
  if (significant.drop count).isEmpty then some (number base significant) else none

end LabelGraph.Digits
