import LabelGraph.Text.Digits
import LabelGraph.Toml.Basic

/-!
Numbers, dates and times. Each reader takes as much of the text as belongs to the
value, and gives what is left.
-/

namespace LabelGraph.Toml

/-- Takes digits, which single underscores may separate. -/
def digitsAfter (isDigit : Char → Bool) (read : List Char) : List Char → List Char × List Char
  | [] => (read.reverse, [])
  | '_' :: c :: rest =>
    if isDigit c then digitsAfter isDigit (c :: read) rest else (read.reverse, '_' :: c :: rest)
  | c :: rest =>
    if isDigit c then digitsAfter isDigit (c :: read) rest else (read.reverse, c :: rest)

def digits? (isDigit : Char → Bool) : List Char → Option (List Char × List Char)
  | [] => none
  | c :: rest => if isDigit c then some (digitsAfter isDigit [c] rest) else none

/-- An integer of 64 bits, which has no more digits than that in any base. -/
def integer? (negative : Bool) (base : Nat) (digits : List Char) : Option Toml := do
  let magnitude : Int ← Digits.bounded? base 64 digits
  let n := if negative then -magnitude else magnitude
  if -9223372036854775808 ≤ n ∧ n ≤ 9223372036854775807 then some (.integer n) else none

/-- Whether digits, moved by an exponent, are rounded to no finite number of double
precision. The bound is a whole number of 309 digits, so the digits behind the point
do not matter. -/
def exceedsDouble (digits : List Char) (exponent : Int) : Bool :=
  let bound := Nat.pow 2 1024 - Nat.pow 2 970
  let significant := digits.dropWhile (· == '0')
  let size := significant.length + exponent
  if significant.isEmpty ∨ size < 309 then false
  else if 309 < size then true
  else bound ≤ Digits.number 10 ((significant.take 309 ++ List.replicate 309 '0').take 309)

def fraction? : List Char → Option (List Char × List Char)
  | '.' :: rest => digits? Char.isDigit rest
  | text => some ([], text)

/-- The exponent, if one comes next. One with more than 18 digits counts as the next
power of ten, which no number of digits makes up for. -/
def exponent? : List Char → Option (Option Int × List Char)
  | c :: rest =>
    if c = 'e' ∨ c = 'E' then
      let (sign, rest) : Int × List Char :=
        match rest with
        | '-' :: rest => (-1, rest)
        | '+' :: rest => (1, rest)
        | rest => (1, rest)
      (digits? Char.isDigit rest).map fun (digits, rest) =>
        (some (sign * (Digits.bounded? 10 18 digits).getD 1000000000000000000), rest)
    else some (none, c :: rest)
  | [] => some (none, [])

/-- A number in base ten. Its whole part has no leading zeros. -/
def decimal? (negative : Bool) (text : List Char) : Option (Toml × List Char) := do
  let (whole, afterWhole) ← digits? Char.isDigit text
  if whole.length ≠ 1 ∧ whole.head? = some '0' then none
  else
    let (places, afterPlaces) ← fraction? afterWhole
    let (exponent, rest) ← exponent? afterPlaces
    if places.isEmpty ∧ exponent.isNone then return (← integer? negative 10 whole, rest)
    else if !negative && exceedsDouble (whole ++ places) (exponent.getD 0 - places.length) then
      none
    else return (.float, rest)

/-- A number in another base, behind its mark. -/
def based? (base : Nat) (text : List Char) : Option (Toml × List Char) := do
  let (digits, rest) ← digits? (Digits.isDigitOf base) text
  return (← integer? false base digits, rest)

def signed? (negative : Bool) : List Char → Option (Toml × List Char)
  | 'i' :: 'n' :: 'f' :: rest => some (.float, rest)
  | 'n' :: 'a' :: 'n' :: rest => some (.float, rest)
  | text => decimal? negative text

def number? : List Char → Option (Toml × List Char)
  | '+' :: rest => signed? false rest
  | '-' :: rest => signed? true rest
  | '0' :: 'x' :: rest => based? 16 rest
  | '0' :: 'o' :: rest => based? 8 rest
  | '0' :: 'b' :: rest => based? 2 rest
  | text => signed? false text

/-! Dates and times. -/

/-- The number in exactly `count` digits, if it lies between the bounds. -/
def field? (count low high : Nat) (text : List Char) : Option (Nat × List Char) :=
  let digits := text.take count
  let n := Digits.number 10 digits
  if digits.length = count ∧ digits.all Char.isDigit ∧ low ≤ n ∧ n ≤ high then
    some (n, text.drop count)
  else none

def expect? (c : Char) : List Char → Option (List Char)
  | [] => none
  | d :: rest => if d = c then some rest else none

def daysOf (year month : Nat) : Nat :=
  if month = 2 then
    if year % 4 = 0 ∧ (year % 100 ≠ 0 ∨ year % 400 = 0) then 29 else 28
  else if month = 4 ∨ month = 6 ∨ month = 9 ∨ month = 11 then 30
  else 31

def date? (text : List Char) : Option (List Char) := do
  let (year, text) ← field? 4 0 9999 text
  let (month, text) ← field? 2 1 12 (← expect? '-' text)
  let (_, text) ← field? 2 1 (daysOf year month) (← expect? '-' text)
  return text

def time? (text : List Char) : Option (List Char) := do
  let (_, text) ← field? 2 0 23 text
  let (_, text) ← field? 2 0 59 (← expect? ':' text)
  let (_, text) ← field? 2 0 60 (← expect? ':' text)
  match text with
  | '.' :: c :: rest => if c.isDigit then return rest.dropWhile Char.isDigit else none
  | '.' :: [] => none
  | text => return text

/-- The text behind the distance from universal time, if one comes next. -/
def offset? : List Char → Option (List Char)
  | [] => some []
  | c :: rest =>
    if c = 'Z' ∨ c = 'z' then some rest
    else if c = '+' ∨ c = '-' then do
      let (_, text) ← field? 2 0 23 rest
      let (_, text) ← field? 2 0 59 (← expect? ':' text)
      return text
    else some (c :: rest)

/-- The text behind a date, a time, or both. -/
def dateTimeEnd? (text : List Char) : Option (List Char) :=
  match date? text with
  | none => time? text
  | some rest =>
    match rest with
    | [] => some []
    | c :: behind =>
      if c = 'T' ∨ c = 't' ∨ c = ' ' then
        match time? behind with
        | some rest => offset? rest
        | none => some rest
      else some rest

/-- A date, a time, or a number. -/
def dateTimeOrNumber? (text : List Char) : Option (Toml × List Char) :=
  match dateTimeEnd? text with
  | some rest => some (.dateTime, rest)
  | none => number? text

end LabelGraph.Toml
