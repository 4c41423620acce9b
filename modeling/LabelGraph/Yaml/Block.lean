import LabelGraph.Yaml.Character

/-!
The block scalars of a YAML document, which go on as long as their lines are indented.
-/

namespace LabelGraph.Yaml

/-- What becomes of the line ends behind a block scalar. -/
inductive Chomping where
  | strip
  | clip
  | keep
deriving DecidableEq, Repr

/-- What stands behind the bar or the angle of a block scalar. -/
structure BlockHeader where
  chomping : Chomping := .clip
  /-- How much the lines are indented, if that is given. -/
  indent : Option Nat := none

namespace BlockHeader

def chomping? (text : List Char) : Option Chomping :=
  match text.head? with
  | some '+' => some .keep
  | some '-' => some .strip
  | _ => none

def indent? (text : List Char) : Option Nat :=
  (text.head?.filter Char.isDigit).map fun c => c.toNat - 0x30

/-- Reads the indicators, each of which may be given once, in any order, and counts
them. Lines cannot be indented by nothing. -/
def read? (text : List Char) : Option (BlockHeader × Nat) :=
  let found : BlockHeader × Nat :=
    match chomping? text, indent? text with
    | some chomping, _ =>
      match indent? (text.drop 1) with
      | some n => ({ chomping, indent := some n }, 2)
      | none => ({ chomping }, 1)
    | none, some n =>
      match chomping? (text.drop 1) with
      | some chomping => ({ chomping, indent := some n }, 2)
      | none => ({ indent := some n }, 1)
    | none, none => ({}, 0)
  if found.1.indent = some 0 then none else some found

end BlockHeader

/-- A line of a block scalar. -/
structure BlockLine where
  /-- The number of spaces in front. -/
  spaces : Nat
  /-- All characters but the line end. -/
  text : List Char
  /-- The line end. Only the last line of the document has none. -/
  lineEnd : Option Char

namespace BlockLine

def ofChars (text : List Char) (lineEnd : Option Char) : BlockLine :=
  { spaces := (text.takeWhile (· == ' ')).length, text, lineEnd }

def length (line : BlockLine) : Nat :=
  line.text.length + (if line.lineEnd.isSome then 1 else 0)

/-- What follows the spaces, of which no more than `indent` count. -/
def content (indent : Nat) (line : BlockLine) : List Char :=
  line.text.drop (min indent line.spaces)

/-- Whether a tab stands where the indentation would go on. -/
def isTabbed (line : BlockLine) : Bool := line.text[line.spaces]? == some '\t'

def isEmpty (line : BlockLine) : Bool := line.spaces == line.text.length

/-- The lines of a text, up to the first that holds more than spaces and has less than
`least` of them. -/
def split (least : Nat) (text : List Char) : List BlockLine :=
  go [] [] text
where
  go (read : List BlockLine) (chars : List Char) : List Char → List BlockLine
    | [] => (ofChars chars.reverse none :: read).reverse
    | c :: rest =>
      if isBreak c then
        let line := ofChars chars.reverse (some c)
        if line.spaces < least && !line.isEmpty then (line :: read).reverse
        else go (line :: read) [] rest
      else go read (c :: chars) rest

end BlockLine

/-- The indentation of a block scalar that does not give it: that of its first line
which holds more than spaces, or more if a line in front of it holds more spaces. No
tab may stand behind these spaces. -/
def detectIndent? (least : Nat) : List BlockLine → Option Nat
  | [] => some least
  | line :: lines =>
    if line.isTabbed then none
    else if line.isEmpty ∧ line.lineEnd.isSome then
      detectIndent? (max least line.spaces) lines
    else some (max least line.spaces)

/-- A block scalar that is being read. -/
structure BlockText where
  /-- The text so far, in reverse. -/
  text : List Char := []
  /-- The end of the last line, which is kept apart. -/
  lineEnd : Option Char := none
  /-- The ends of the empty lines behind it, in reverse. -/
  breaks : List Char := []
  /-- Whether the last line started with a blank. Such lines are not joined. -/
  blank : Bool := false

namespace BlockText

/-- Adds a line that is not empty. A single line feed in front of it becomes a space,
and more of them lose one, if lines are to be joined. -/
def addLine (b : BlockText) (literal : Bool) (line : List Char) (lineEnd : Option Char) :
    BlockText :=
  let blank := line.head?.any isBlank
  let join :=
    if !literal && b.lineEnd == some '\n' && !b.blank && !blank then
      if b.breaks.isEmpty then [' '] else []
    else b.lineEnd.toList
  { text := line.reverse ++ (b.breaks ++ (join ++ b.text)), lineEnd, blank }

def finish (b : BlockText) (chomping : Chomping) : String :=
  let last := if chomping = .strip then [] else b.lineEnd.toList
  let breaks := if chomping = .keep then b.breaks else []
  String.ofList (breaks ++ (last ++ b.text)).reverse

/-- Reads the lines of a block scalar, and counts the characters they take. -/
def read? (literal : Bool) (indent : Nat) (b : BlockText) (length : Nat) :
    List BlockLine → Option (BlockText × Nat)
  | [] => some (b, length)
  | line :: lines =>
    let content := line.content indent
    if content.isEmpty then
      read? literal indent { b with breaks := line.lineEnd.toList ++ b.breaks }
        (length + line.length) lines
    else if line.spaces < indent then if line.isTabbed then none else some (b, length)
    else read? literal indent (b.addLine literal content line.lineEnd) (length + line.length) lines

end BlockText

/-- The block scalar behind its bar or angle, with the number of characters it takes.
The collection around it stands in column `outer`, if there is one. -/
def block? (literal : Bool) (outer : Option Nat) (text : List Char) :
    Option (String × Nat) := do
  let (header, indicators) ← BlockHeader.read? text
  let blanks := (text.drop indicators).takeWhile isBlank
  let start := indicators + blanks.length
  let comment :=
    if (text.drop start).head? = some '#' then (text.drop start).takeWhile (!isBreak ·) else []
  let start := start + comment.length
  match text.drop start with
  | [] => return ("", start)
  | c :: rest =>
    if !isBreak c then none
    else
      let least := (header.indent.map (outer.getD 0 + ·)).getD (max 1 (outer.elim 0 (· + 1)))
      let lines := BlockLine.split least rest
      let indent ← if header.indent.isSome then some least else detectIndent? least lines
      let (b, length) ← BlockText.read? literal indent {} (start + 1) lines
      return (b.finish header.chomping, length)

end LabelGraph.Yaml
