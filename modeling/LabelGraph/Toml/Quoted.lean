import LabelGraph.Text.Digits

/-!
The four ways to quote a string. Double quotes allow escapes and single quotes do
not; three quotes on each side allow line feeds in between. Reading cuts the text
into pieces: each piece says what it stands for and how much text it takes.
-/

namespace LabelGraph.Toml

/-- A way to quote a string. -/
structure Quoting where
  /-- Whether escapes are allowed, which is so between double quotes. -/
  escaped : Bool
  /-- Whether line feeds are allowed, which is so between three quotes. -/
  lines : Bool
deriving DecidableEq, Repr

/-- What the quoted text goes on with. -/
inductive Piece where
  /-- The next `length` characters stand for these ones. -/
  | chars (cs : List Char) (length : Nat)
  /-- The text closes after `length` characters. Of the quotes that are read the
  first ones may still belong to the text. -/
  | close (quotes length : Nat)
deriving DecidableEq, Repr

def isBlank (c : Char) : Bool := c == ' ' || c == '\t'

/-- A character that stands for itself in every string and comment. -/
def isPlain (c : Char) : Bool := c == '\t' || (0x20 ≤ c.toNat && c.toNat != 0x7F)

/-- The number of characters up to the next one that is neither a blank nor part
of a line end. -/
def spaceLength : List Char → Nat
  | '\r' :: '\n' :: rest => spaceLength rest + 2
  | c :: rest => if isBlank c || c == '\n' then spaceLength rest + 1 else 0
  | [] => 0

def startsLineEnd : List Char → Bool
  | '\n' :: _ => true
  | '\r' :: '\n' :: _ => true
  | _ => false

/-- The character with a number, if there is one. -/
def scalar? (n : Nat) : Option Char :=
  if n.isValidChar then some (Char.ofNat n) else none

/-- A character given by its number in `count` hexadecimal digits. -/
def numbered? (count : Nat) (text : List Char) : Option Piece :=
  let digits := text.take count
  if digits.length = count ∧ digits.all (Digits.isDigitOf 16) then
    (scalar? (Digits.number 16 digits)).map fun c => .chars [c] (count + 2)
  else none

/-- What a backslash and the text behind it stand for. -/
def escape? (lines : Bool) : List Char → Option Piece
  | 'b' :: _ => some (.chars ['\x08'] 2)
  | 't' :: _ => some (.chars ['\t'] 2)
  | 'n' :: _ => some (.chars ['\n'] 2)
  | 'f' :: _ => some (.chars ['\x0c'] 2)
  | 'r' :: _ => some (.chars ['\r'] 2)
  | '"' :: _ => some (.chars ['"'] 2)
  | '\\' :: _ => some (.chars ['\\'] 2)
  | 'u' :: rest => numbered? 4 rest
  | 'U' :: rest => numbered? 8 rest
  | text =>
    if lines && startsLineEnd (text.dropWhile isBlank) then
      some (.chars [] (1 + spaceLength text))
    else none

namespace Quoting

def mark (q : Quoting) : Char := if q.escaped then '"' else '\''

def delimiter (q : Quoting) : List Char := List.replicate (if q.lines then 3 else 1) q.mark

/-- The first piece of a text. Between three quotes, one or two quotes are text,
also right in front of the closing ones. A line end is read as a line feed. -/
def piece? (q : Quoting) : List Char → Option Piece
  | [] => none
  | c :: rest =>
    if c = q.mark then
      if q.lines then
        let run := 1 + (rest.takeWhile (· == c)).length
        if run < 3 then some (.chars (List.replicate run c) run)
        else some (.close (min (run - 3) 2) (min run 5))
      else some (.close 0 1)
    else if q.escaped ∧ c = '\\' then escape? q.lines rest
    else if isPlain c then some (.chars [c] 1)
    else if q.lines ∧ c = '\n' then some (.chars ['\n'] 1)
    else if q.lines ∧ startsLineEnd (c :: rest) then some (.chars ['\n'] 2)
    else none

/-- Reads up to and with the closing quotes. What has been read is in reverse, and
the next `skip` characters belong to the piece read last. -/
def readAfter (q : Quoting) (read : List Char) (skip : Nat) :
    List Char → Option (List Char × List Char)
  | [] => none
  | c :: rest =>
    match skip with
    | skip + 1 => q.readAfter read skip rest
    | 0 =>
      match q.piece? (c :: rest) with
      | some (.chars cs length) => q.readAfter (cs.reverse ++ read) (length - 1) rest
      | some (.close quotes length) =>
        some ((List.replicate quotes c ++ read).reverse, (c :: rest).drop length)
      | none => none

/-- The way in which a text is quoted that starts with a quote, and the text behind
the opening quotes. -/
def opened? : List Char → Option (Quoting × List Char)
  | '"' :: '"' :: '"' :: rest => some (⟨true, true⟩, rest)
  | '\'' :: '\'' :: '\'' :: rest => some (⟨false, true⟩, rest)
  | '"' :: rest => some (⟨true, false⟩, rest)
  | '\'' :: rest => some (⟨false, false⟩, rest)
  | _ => none

end Quoting

/-- Leaves out a line end at the start. -/
def dropLineEnd : List Char → List Char
  | '\n' :: rest => rest
  | '\r' :: '\n' :: rest => rest
  | text => text

/-- Reads a quoted string, and gives the text behind it. A line end right behind
three opening quotes is left out. -/
def readQuoted? (text : List Char) : Option (String × List Char) :=
  match Quoting.opened? text with
  | some (q, body) =>
    let body := if q.lines then dropLineEnd body else body
    (q.readAfter [] 0 body).map fun (cs, rest) => (String.ofList cs, rest)
  | none => none

/-! Writing. -/

/-- A control character that has to be escaped. -/
def isCode (c : Char) : Bool := !isPlain c && c != '\n'

/-- The longest run of a character in a text. The text goes on behind a run of
length `current`. -/
def longestRunFrom (mark : Char) (current : Nat) : List Char → Nat
  | [] => current
  | c :: rest =>
    if c = mark then longestRunFrom mark (current + 1) rest
    else max current (longestRunFrom mark 0 rest)

def longestRun (mark : Char) (text : List Char) : Nat := longestRunFrom mark 0 text

/-- The escape of a character. Between three quotes a line feed needs none. -/
def escaped (lines : Bool) (c : Char) : List Char :=
  match c with
  | '\x08' => ['\\', 'b']
  | '\t' => ['\\', 't']
  | '\n' => if lines then ['\n'] else ['\\', 'n']
  | '\x0c' => ['\\', 'f']
  | '\r' => ['\\', 'r']
  | '\\' => ['\\', '\\']
  | c =>
    if isCode c then
      ['\\', 'u', '0', '0', Digits.upperHex (c.toNat / 16), Digits.upperHex (c.toNat % 16)]
    else [c]

/-- The text between double quotes. Between three of them two quotes may stand in a
row without an escape; `bare` of them do already. -/
def escapeText (lines : Bool) (bare : Nat) : List Char → List Char
  | [] => []
  | c :: rest =>
    if c = '"' then
      if bare < (if lines then 2 else 0) then '"' :: escapeText lines (bare + 1) rest
      else '\\' :: '"' :: escapeText lines 0 rest
    else escaped lines c ++ escapeText lines 0 rest

namespace Quoting

/-- The way in which a text needs the fewest escapes and quotes. -/
def choose (text : List Char) : Quoting :=
  let codes := text.any isCode
  let lineFeed := text.any (· == '\n')
  let backslash := text.any (· == '\\')
  let double := longestRun '"' text
  let single := longestRun '\'' text
  if !codes && !backslash && double == 0 && !lineFeed then ⟨true, false⟩
  else if !codes && single == 0 && !lineFeed then ⟨false, false⟩
  else if !codes && !backslash && double ≤ 2 then ⟨true, true⟩
  else if !codes && single ≤ 2 then ⟨false, true⟩
  else ⟨true, lineFeed⟩

/-- The text in quotes. A text of several lines starts on a line of its own. -/
def write (q : Quoting) (text : List Char) : List Char :=
  let body := if q.escaped then escapeText q.lines 0 text else text
  let start := if q.lines && text.any (· == '\n') then ['\n'] else []
  q.delimiter ++ start ++ body ++ q.delimiter

end Quoting

def quoted (s : String) : List Char :=
  (Quoting.choose s.toList).write s.toList

end LabelGraph.Toml
