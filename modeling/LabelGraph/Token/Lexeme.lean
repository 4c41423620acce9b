import LabelGraph.Text.Atom
import LabelGraph.Token.Kind

/-!
Which token starts at a place, and how many atoms it takes. Each function looks
at the atoms from that place on and answers with a length, so that cutting the
text is left to one function of the scanner. Stray bytes belong to no class and
therefore end every token.
-/

namespace LabelGraph

namespace Lexeme

def isNameStart (c : Char) : Bool := c.isAlpha || c == '_'

def isNameChar (c : Char) : Bool := c.isAlphanum || c == '_'

/-- Identifiers may also hold dots and dollar signs after their first character. -/
def isIdentifierChar (c : Char) : Bool := isNameChar c || c == '.' || c == '$'

def isHexDigit (c : Char) : Bool :=
  c.isDigit || ('a' ≤ c && c ≤ 'f') || ('A' ≤ c && c ≤ 'F')

/-- White space within a line. A line feed is a token and not white space. -/
def isBlank (c : Char) : Bool := c == ' ' || c == '\t' || c == '\x0c' || c == '\r'

def startsComment (c : Char) : Bool := c == ';' || c == '#'

/-- What a comment runs over. It ends before a line feed and before a NUL. -/
def isCommentChar (c : Char) : Bool := c != '\n' && c != '\x00'

def run (p : Char → Bool) (atoms : List Atom) : Nat :=
  (atoms.takeWhile (·.satisfies p)).length

def headIs (p : Char → Bool) : List Atom → Bool
  | [] => false
  | a :: _ => a.satisfies p

/-- Counts the atoms after an opening quote up to and with the closing quote.
There is none if a line feed, a stray byte or the end comes first. A backslash
takes the next character with it, but a line feed cannot be taken. -/
def quotedAfter (count : Nat) : List Atom → Option Nat
  | .char '"' :: _ => some (count + 1)
  | .char '\n' :: _ => none
  | .char '\\' :: .char c :: rest =>
    if c = '\n' then none else quotedAfter (count + 2) rest
  | .char '\\' :: _ => none
  | .char _ :: rest => quotedAfter (count + 1) rest
  | .stray _ :: _ => none
  | [] => none

/-- The length of the rest of a complete string literal whose opening quote has
been read. -/
def quoted? (atoms : List Atom) : Option Nat := quotedAfter 0 atoms

/-- The length of a number. The prefix of a hexadecimal number counts only if a
hexadecimal digit follows it. -/
def numberLength : List Atom → Nat
  | .char '0' :: .char x :: rest =>
    if (x == 'x' || x == 'X') && headIs isHexDigit rest then 2 + run isHexDigit rest
    else 1 + run Char.isDigit (.char x :: rest)
  | _ :: rest => 1 + run Char.isDigit rest
  | [] => 0

def punctuation? : Char → Option Kind
  | '\n' => some .newline
  | ':' => some .colon
  | ',' => some .comma
  | '+' => some .plus
  | '-' => some .minus
  | '[' => some .leftBracket
  | ']' => some .rightBracket
  | '\x7b' => some .leftBrace
  | '\x7d' => some .rightBrace
  | '\x00' => some .corrupt
  | _ => none

/-- The kind and length of the longest token that starts with the character `c`
and goes on in the atoms that follow. -/
def longest? (c : Char) (rest : List Atom) : Option (Kind × Nat) :=
  match punctuation? c with
  | some kind => some (kind, 1)
  | none =>
    if isNameStart c then some (.identifier, 1 + run isIdentifierChar rest)
    else if c.isDigit then some (.number, numberLength (.char c :: rest))
    else if c == '.' && headIs isNameStart rest then
      some (.directive, 1 + run isNameChar rest)
    else if c == '%' && headIs Char.isAlpha rest then
      some (.register, 1 + run Char.isAlphanum rest)
    else if c == '"' then (quoted? rest).map fun n => (.stringLiteral, 1 + n)
    else none

theorem numberLength_pos (a : Atom) (rest : List Atom) : 0 < numberLength (a :: rest) := by
  unfold numberLength
  split
  · split <;> omega
  · omega
  · simp_all

/-- Every token takes at least one atom. -/
theorem longest?_pos {c : Char} {rest : List Atom} {kind : Kind} {n : Nat}
    (h : longest? c rest = some (kind, n)) : 0 < n := by
  unfold longest? at h
  split at h
  · cases h; omega
  · split at h
    · cases h; omega
    split at h
    · cases h; exact numberLength_pos _ _
    split at h
    · cases h; omega
    split at h
    · cases h; omega
    split at h
    · obtain ⟨m, _, same⟩ := Option.map_eq_some_iff.1 h
      cases same
      omega
    · cases h

end Lexeme

/-- What stands open at a place: nothing, a comment, or a string literal. Only
stray bytes leave something open, and it stays open across them. -/
inductive Construct where
  | code
  | comment
  | string
deriving DecidableEq, Repr, Inhabited

namespace Construct

/-- Counts the atoms of an open string up to and with its closing quote, or up
to the end of the line. There is no count if a stray byte or the end of the text
comes first. -/
def closeStringAfter (count : Nat) : List Atom → Option Nat
  | .char '"' :: _ => some (count + 1)
  | .char '\n' :: _ => some count
  | .char '\\' :: .char c :: rest =>
    if c = '\n' then some (count + 1) else closeStringAfter (count + 2) rest
  | .char _ :: rest => closeStringAfter (count + 1) rest
  | .stray _ :: _ => none
  | [] => none

/-- The number of atoms that still belong to the construct. There is none if the
construct is open where the valid text ends. -/
def close? : Construct → List Atom → Option Nat
  | .code, _ => some 0
  | .comment, atoms =>
    let n := Lexeme.run Lexeme.isCommentChar atoms
    match atoms.drop n with
    | .char _ :: _ => some n
    | _ => none
  | .string, atoms => closeStringAfter 0 atoms

end Construct

end LabelGraph
