import LabelGraph.Text.Digits

/-!
JSON values and how they are written out. Members of an object keep the order in
which they were put there.
-/

namespace LabelGraph

/-- A JSON value. A number that is not an integer is `mantissa / 10 ^ places`. -/
inductive Json where
  | null
  | bool (b : Bool)
  | int (n : Int)
  | fraction (mantissa : Int) (places : Nat)
  | string (s : String)
  | array (items : List Json)
  | object (members : List (String × Json))
deriving Repr, Inhabited

namespace Json

def nat (n : Nat) : Json := .int n

def string? : Json → Option String
  | .string s => some s
  | _ => none

/-- The number in a value that is an integer from 0 to 2^64 - 1. -/
def word? : Json → Option Nat
  | .int n => if 0 ≤ n ∧ n < 18446744073709551616 then some n.toNat else none
  | _ => none

/-- A member that may be missing or null. -/
def optional? (read : Json → Option α) : Option Json → Option (Option α)
  | none => some none
  | some .null => some none
  | some json => (read json).map some

/-- The fields of a record in the order of `names`. An object gives them by name,
and its other members do not matter. An array gives them by position; it may leave
out fields behind the first `least`, and may hold no more than all of them. -/
def record? (least : Nat) (names : List String) : Json → Option (List (Option Json))
  | .object members => some (names.map fun name => members.lookup name)
  | .array items =>
    if least ≤ items.length ∧ items.length ≤ names.length then
      some (names.zipIdx.map fun (_, i) => items[i]?)
    else none
  | _ => none

/-- The case of an enumeration: its name, or an object whose only member has that
name and is null. -/
def case? : Json → Option String
  | .string name => some name
  | .object [(name, .null)] => some name
  | _ => none

/-- A character within quotes. Only quotes, backslashes and control characters
below a space are written as escapes. -/
def escape (c : Char) : String :=
  match c with
  | '"' => "\\\""
  | '\\' => "\\\\"
  | '\x08' => "\\b"
  | '\x0c' => "\\f"
  | '\n' => "\\n"
  | '\r' => "\\r"
  | '\t' => "\\t"
  | c =>
    if c.toNat < 0x20 then
      String.ofList ['\\', 'u', '0', '0', Digits.lowerHex (c.toNat / 16),
        Digits.lowerHex (c.toNat % 16)]
    else String.singleton c

def quote (s : String) : String :=
  s.foldl (fun text c => text ++ escape c) "\"" ++ "\""

/-- A line feed and the indentation of the next line. -/
def newline (depth : Nat) : String := "\n".pushn ' ' (2 * depth)

mutual

/-- Appends a value that starts at nesting depth `depth`. Every item and member
has a line of its own, two spaces deeper than the bracket. -/
def write (depth : Nat) (text : String) : Json → String
  | .null => text ++ "null"
  | .bool b => text ++ (if b then "true" else "false")
  | .int n => text ++ toString n
  | .fraction mantissa places => text ++ s!"{mantissa}e-{places}"
  | .string s => text ++ quote s
  | .array [] => text ++ "[]"
  | .array (item :: items) =>
    let text := write (depth + 1) (text ++ "[" ++ newline (depth + 1)) item
    writeItems (depth + 1) text items ++ newline depth ++ "]"
  | .object [] => text ++ "\x7b\x7d"
  | .object ((name, value) :: members) =>
    let text := text ++ "\x7b" ++ newline (depth + 1) ++ quote name ++ ": "
    let text := write (depth + 1) text value
    writeMembers (depth + 1) text members ++ newline depth ++ "\x7d"

def writeItems (depth : Nat) (text : String) : List Json → String
  | [] => text
  | item :: items => writeItems depth (write depth (text ++ "," ++ newline depth) item) items

def writeMembers (depth : Nat) (text : String) : List (String × Json) → String
  | [] => text
  | (name, value) :: members =>
    let text := text ++ "," ++ newline depth ++ quote name ++ ": "
    writeMembers depth (write depth text value) members

end

def pretty (json : Json) : String := write 0 "" json

end Json

end LabelGraph
