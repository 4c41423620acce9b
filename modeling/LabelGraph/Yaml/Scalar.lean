import LabelGraph.Text.Digits
import LabelGraph.Yaml.Character

/-!
The plain and the quoted scalars of a YAML document. Each reader gives the text of a
scalar and the number of characters it takes.
-/

namespace LabelGraph.Yaml

/-- A scalar that runs over lines. White space is kept apart until something follows
it, because a single line feed becomes a space, and the blanks around it are lost. -/
structure Folding where
  /-- The text so far, in reverse. -/
  text : List Char := []
  /-- The blanks behind it, in reverse. -/
  blanks : List Char := []
  /-- The line ends behind it, in reverse. -/
  breaks : List Char := []
  /-- Whether an escaped line end came before these. -/
  escapedBreak : Bool := false

namespace Folding

/-- Whether a line ended behind the text. -/
def isBroken (f : Folding) : Bool := f.escapedBreak || !f.breaks.isEmpty

/-- The white space that has been kept apart, as it is read, in reverse. A line feed
gives way to the line ends behind it. -/
def space (f : Folding) : List Char :=
  if f.escapedBreak then f.breaks
  else
    match f.breaks.getLast? with
    | none => f.blanks
    | some '\n' => if f.breaks.length = 1 then [' '] else f.breaks.dropLast
    | some _ => f.breaks

def add (f : Folding) (cs : List Char) : Folding :=
  { text := cs.reverse ++ (f.space ++ f.text) }

def white (f : Folding) (c : Char) : Folding :=
  if isBreak c then { f with blanks := [], breaks := c :: f.breaks }
  else if f.isBroken then f
  else { f with blanks := c :: f.blanks }

/-- Keeps the white space so far, and drops the line end. -/
def dropBreak (f : Folding) : Folding := { f.add [] with escapedBreak := true }

def finish (f : Folding) : String := String.ofList (f.space ++ f.text).reverse

end Folding

/-! Plain scalars. -/

/-- Whether a plain scalar can start here. -/
def startsPlain (flow : Bool) : List Char → Bool
  | [] => false
  | c :: rest =>
    if c == '-' then !rest.head?.any isBlank
    else if c == '?' || c == ':' then !flow && !atWhiteOrEnd rest
    else
      !(isWhite c || isFlowIndicator c || c == '#' || c == '&' || c == '*' || c == '!' ||
        c == '|' || c == '>' || c == '\'' || c == '"' || c == '%' || c == '@' || c == '\x60')

/-- What was read of a plain scalar. -/
structure PlainText where
  text : String
  /-- The number of characters up to what follows, with the white space between. -/
  length : Nat
  /-- Whether a line ends in that white space. -/
  broken : Bool

/-- Ends a plain scalar, without the white space behind it. -/
def Folding.finishPlain (f : Folding) (length : Nat) : PlainText :=
  { text := String.ofList f.text.reverse, length, broken := f.isBroken }

/-- Whether what follows white space, at a column, does not belong to the scalar. -/
def endsAfterWhite (flow : Bool) (least column : Nat) (text : List Char) : Bool :=
  text.head? == some '#' || (!flow && column < least) || (column == 0 && atMarker text)

/-- Reads a plain scalar, of which `length` characters are read already. Lines after
the first go on at column `least` or behind it. -/
def plainAfter (flow : Bool) (least : Nat) (f : Folding) (length column : Nat) :
    List Char → Option PlainText
  | [] => some (f.finishPlain length)
  | c :: rest =>
    if isBreak c then plainAfter flow least (f.white c) (length + 1) 0 rest
    else if isBlank c then
      if c = '\t' ∧ f.isBroken ∧ column < least then none
      else plainAfter flow least (f.white c) (length + 1) (column + 1) rest
    else
      let inSpace := f.isBroken || !f.blanks.isEmpty
      if inSpace && endsAfterWhite flow least column (c :: rest) then
        some (f.finishPlain length)
      else if flow && c == ':' && rest.head?.any (fun d => isFlowIndicator d || d == '?') then
        none
      else if (c == ':' && atWhiteOrEnd rest) || (flow && isFlowIndicator c) then
        some (f.finishPlain length)
      else plainAfter flow least (f.add [c]) (length + 1) (column + 1) rest

/-- The plain scalar that starts at a column. -/
def plain? (flow : Bool) (least column : Nat) (text : List Char) : Option PlainText :=
  plainAfter flow least {} 0 column text

/-! Quoted scalars. -/

/-- A character given by its number in hexadecimal digits. -/
def numbered? (count : Nat) (text : List Char) : Option (Char × Nat) :=
  let digits := text.take count
  let n := Digits.number 16 digits
  if digits.length = count ∧ digits.all (Digits.isDigitOf 16) ∧ n.isValidChar then
    some (Char.ofNat n, count + 2)
  else none

/-- The character that a backslash and what follows it stand for. -/
def escape? : List Char → Option (Char × Nat)
  | '0' :: _ => some ('\x00', 2)
  | 'a' :: _ => some ('\x07', 2)
  | 'b' :: _ => some ('\x08', 2)
  | 't' :: _ => some ('\t', 2)
  | '\t' :: _ => some ('\t', 2)
  | 'n' :: _ => some ('\n', 2)
  | 'v' :: _ => some ('\x0b', 2)
  | 'f' :: _ => some ('\x0c', 2)
  | 'r' :: _ => some ('\r', 2)
  | 'e' :: _ => some ('\x1b', 2)
  | ' ' :: _ => some (' ', 2)
  | '"' :: _ => some ('"', 2)
  | '/' :: _ => some ('/', 2)
  | '\\' :: _ => some ('\\', 2)
  | 'N' :: _ => some ('\u0085', 2)
  | '_' :: _ => some ('\u00a0', 2)
  | 'L' :: _ => some ('\u2028', 2)
  | 'P' :: _ => some ('\u2029', 2)
  | 'x' :: rest => numbered? 2 rest
  | 'u' :: rest => numbered? 4 rest
  | 'U' :: rest => numbered? 8 rest
  | _ => none

/-- Reads a quoted scalar up to its closing quote. The next `skip` characters belong
to an escape that was read already. -/
def quotedAfter (double : Bool) (f : Folding) (length skip : Nat) (lineStart : Bool) :
    List Char → Option (String × Nat)
  | [] => none
  | c :: rest =>
    match skip with
    | skip + 1 => quotedAfter double f (length + 1) skip lineStart rest
    | 0 =>
      if lineStart && atMarker (c :: rest) then none
      else if isWhite c then quotedAfter double (f.white c) (length + 1) 0 (isBreak c) rest
      else if double && c == '\\' then
        if rest.head?.any isBreak then quotedAfter double f.dropBreak (length + 1) 1 true rest
        else
          match escape? rest with
          | some (d, width) =>
            quotedAfter double (f.add [d]) (length + 1) (width - 1) false rest
          | none => none
      else if c == (if double then '"' else '\'') then
        if !double && rest.head? == some '\'' then
          quotedAfter double (f.add [c]) (length + 1) 1 false rest
        else some (f.finish, length + 1)
      else quotedAfter double (f.add [c]) (length + 1) 0 false rest

/-- The quoted scalar at its opening quote. -/
def quoted? : List Char → Option (String × Nat)
  | '"' :: rest => quotedAfter true {} 1 0 false rest
  | '\'' :: rest => quotedAfter false {} 1 0 false rest
  | _ => none

end LabelGraph.Yaml
