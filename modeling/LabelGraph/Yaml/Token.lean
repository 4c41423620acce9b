import LabelGraph.Yaml.Basic
import LabelGraph.Yaml.Block
import LabelGraph.Yaml.Scalar

/-!
The tokens of a YAML document. Outside brackets and braces the column decides to which
collection a node belongs, and tokens are put in where such a collection starts and
ends, so that what follows does not depend on columns.

A key is known by the colon behind it. Until that is met, or cannot be met any more,
the node that may turn out to be a key is remembered as a candidate. A candidate must
stand on one line and be at most 1024 bytes long.
-/

namespace LabelGraph.Yaml

inductive Token where
  | version (major minor : Nat)
  /-- Says what a handle in a tag stands for. -/
  | handle (name : String) (stem : List UInt8)
  | documentStart
  | documentEnd
  | blockSequence
  | blockMapping
  | blockEnd
  | flowSequence
  | flowSequenceEnd
  | flowMapping
  | flowMappingEnd
  | comma
  | entry
  | key
  | value
  /-- The name of a node. -/
  | anchor (name : String)
  /-- Stands for the node with a name. -/
  | reference (name : String)
  /-- A tag, which may start with a handle. -/
  | tag (handle : Option String) (suffix : List UInt8)
  | scalar (style : Style) (text : String)
deriving BEq, DecidableEq, Repr, Inhabited

/-- A node that is a key if a colon comes behind it. -/
structure Candidate where
  /-- Whether nothing but a key may stand in its place. -/
  required : Bool
  /-- The number of tokens in front of it. -/
  count : Nat
  index : Nat
  line : Nat
  column : Nat

/-- A place in a document, and what is known there. -/
structure Layout where
  text : List Char
  /-- The number of bytes in front of the text. -/
  index : Nat := 0
  line : Nat := 0
  column : Nat := 0
  /-- The columns of the open collections that have no brackets or braces, the
  innermost first. -/
  columns : List Nat := []
  /-- The candidate within the innermost brackets or braces. -/
  candidate : Option Candidate := none
  /-- The candidates around these. -/
  outer : List (Option Candidate) := []
  /-- Whether a key may start here. -/
  keyAllowed : Bool := true
  /-- The tokens so far, in reverse. -/
  tokens : List Token := []
  /-- The number of these tokens. -/
  count : Nat := 0

namespace Layout

def inFlow (s : Layout) : Bool := !s.outer.isEmpty

/-- The least column of what belongs to the innermost collection. -/
def least (s : Layout) : Nat := s.columns.head?.elim 0 (· + 1)

def next? (s : Layout) : Option Char := s.text.head?

def move (s : Layout) : (count : Nat) → Layout
  | 0 => s
  | count + 1 =>
    match s.text with
    | [] => s
    | c :: rest =>
      let index := s.index + c.utf8Size
      if isBreak c then
        move { s with text := rest, index, line := s.line + 1, column := 0 } count
      else move { s with text := rest, index, column := s.column + 1 } count

/-- Moves over white space and comments, and over the byte order mark at the start of
a line. A tab may not stand in front of a key outside brackets and braces. -/
def skipSpace (s : Layout) : Layout :=
  go s.index s.line s.column s.keyAllowed false s.text
where
  go (index line column : Nat) (keyAllowed inComment : Bool) : List Char → Layout
    | [] => { s with text := [], index, line, column, keyAllowed }
    | c :: rest =>
      let next := index + c.utf8Size
      if isBreak c then go next (line + 1) 0 (keyAllowed || !s.inFlow) false rest
      else if inComment || c == ' ' || (c == '\t' && (s.inFlow || !keyAllowed)) ||
          (c == '\uFEFF' && column == 0) then
        go next line (column + 1) keyAllowed inComment rest
      else if c = '#' then go next line (column + 1) keyAllowed true rest
      else { s with text := c :: rest, index, line, column, keyAllowed }

/-- Whether a candidate cannot be a key any more, because its line ended or it is too
long. -/
def isStale (s : Layout) (c : Candidate) : Bool := c.line < s.line || c.index + 1024 < s.index

end Layout

abbrev Tokenizer := StateT Layout Option

namespace Tokenizer

def move (count : Nat) : Tokenizer Unit := modify (·.move count)

def allowKey (keyAllowed : Bool) : Tokenizer Unit := modify fun s => { s with keyAllowed }

def emit (token : Token) : Tokenizer Unit :=
  modify fun s => { s with tokens := token :: s.tokens, count := s.count + 1 }

/-- Puts a token behind the first `count` tokens. -/
def insert (count : Nat) (token : Token) : Tokenizer Unit :=
  modify fun s =>
    let later := s.count - count
    { s with
      tokens := s.tokens.take later ++ token :: s.tokens.drop later
      count := s.count + 1 }

/-! Candidates. -/

def dropCandidate : Tokenizer Unit := do
  if (← get).candidate.any (·.required) then failure
  else modify fun s => { s with candidate := none }

/-- Remembers the node that starts here, if it may be a key. Where the members of a
block mapping start, it must be one. -/
def saveCandidate : Tokenizer Unit := do
  if (← get).keyAllowed then
    dropCandidate
    modify fun s =>
      let required := !s.inFlow && s.columns.head? == some s.column
      let here : Candidate :=
        { required, count := s.count, index := s.index, line := s.line, column := s.column }
      { s with candidate := some here }

/-- Gives up the candidate if it is stale. Those outside the innermost brackets or
braces can wait until these are closed, since what is stale stays so. -/
def dropStale : Tokenizer Unit := do
  let s ← get
  if s.candidate.any s.isStale then dropCandidate

/-! Collections. -/

/-- Starts a block collection behind the first `count` tokens, unless a collection
is open in its column. -/
def openBlock (token : Token) (column count : Nat) : Tokenizer Unit := do
  let s ← get
  if !s.inFlow && s.least ≤ column then
    set { s with columns := column :: s.columns }
    insert count token

/-- Ends the block collections in whose columns nothing more can stand. -/
def closeBlocks (ends : Nat → Bool) : Tokenizer Unit :=
  modify fun s =>
    if s.inFlow then s
    else
      let closed := (s.columns.takeWhile ends).length
      { s with
        columns := s.columns.drop closed
        tokens := List.replicate closed .blockEnd ++ s.tokens
        count := s.count + closed }

def openFlow (token : Token) : Tokenizer Unit := do
  saveCandidate
  modify fun s => { s with candidate := none, outer := s.candidate :: s.outer, keyAllowed := true }
  move 1
  emit token

def closeFlow (token : Token) : Tokenizer Unit := do
  dropCandidate
  modify fun s =>
    match s.outer with
    | [] => { s with keyAllowed := false }
    | candidate :: outer => { s with candidate, outer, keyAllowed := false }
  move 1
  emit token

/-- A mark that starts an entry or a key. Outside brackets and braces it also starts the
collection. -/
def openEntry (collection : Token) : Tokenizer Unit := do
  let s ← get
  if !s.inFlow then
    if s.keyAllowed then openBlock collection s.column s.count else failure

def entry : Tokenizer Unit := do
  openEntry .blockSequence
  dropCandidate
  allowKey true
  move 1
  emit .entry

def key : Tokenizer Unit := do
  openEntry .blockMapping
  dropCandidate
  allowKey !(← get).inFlow
  move 1
  emit .key

/-- The colon in front of a value. If there is a candidate, this is its key. -/
def value : Tokenizer Unit := do
  match (← get).candidate with
  | some c =>
    insert c.count .key
    openBlock .blockMapping c.column c.count
    modify fun s => { s with candidate := none, keyAllowed := false }
  | none =>
    openEntry .blockMapping
    allowKey !(← get).inFlow
  move 1
  emit .value

def comma : Tokenizer Unit := do
  dropCandidate
  allowKey true
  move 1
  emit .comma

/-! Runs of characters. -/

def takeWhile (p : Char → Bool) : Tokenizer (List Char) := do
  let run := (← get).text.takeWhile p
  move run.length
  return run

def takeSome (p : Char → Bool) : Tokenizer (List Char) := do
  let run ← takeWhile p
  if run.isEmpty then failure else return run

def take (c : Char) : Tokenizer Unit := do
  if (← get).next? = some c then move 1 else failure

def ensureWhite : Tokenizer Unit := do
  if atWhiteOrEnd (← get).text then return else failure

/-- Ends a line that may hold blanks and a comment at most. -/
def endLine : Tokenizer Unit := do
  discard (takeWhile isBlank)
  if (← get).next? = some '#' then discard (takeWhile (!isBreak ·))
  ensureWhite
  move 1

/-! Documents. -/

/-- Ends all collections. Nothing goes on over a marker or a directive. -/
def endDocument : Tokenizer Unit := do
  closeBlocks (fun _ => true)
  dropCandidate
  allowKey false

/-- The start or the end of a document. -/
def marker : Tokenizer Unit := do
  endDocument
  let token := if (← get).next? = some '-' then Token.documentStart else .documentEnd
  move 3
  emit token

/-- A number of at most nine digits. -/
def number : Tokenizer Nat := do
  let digits ← takeSome Char.isDigit
  if digits.length ≤ 9 then return Digits.number 10 digits else failure

/-! Tags. -/

/-- The number of bytes in the UTF-8 form that starts with a byte. -/
def octets? (n : Nat) : Option Nat :=
  if n < 0x80 then some 1
  else if n < 0xC0 then none
  else if n < 0xE0 then some 2
  else if n < 0xF0 then some 3
  else if n < 0xF8 then some 4
  else none

/-- The bytes that a URI spells, of which `more` must go on with the form that the last
one started. Escaped bytes have the lengths of UTF-8 forms. -/
def uriBytes? : (more : Nat) → List Char → Option (List UInt8)
  | 0, [] => some []
  | more, '%' :: high :: low :: rest => do
    let n := (← Digits.value? high) * 16 + (← Digits.value? low)
    let more ←
      match more with
      | 0 => (octets? n).map (· - 1)
      | more + 1 => if 0x80 ≤ n ∧ n < 0xC0 then some more else none
    let bytes ← uriBytes? more rest
    return n.toUInt8 :: bytes
  | 0, c :: rest => do
    if c = '%' then none
    let bytes ← uriBytes? 0 rest
    return c.toNat.toUInt8 :: bytes
  | _ + 1, _ => none

/-- The URI of these characters, as far as it goes without a null byte. -/
def uri (text : List Char) : Tokenizer (List UInt8) :=
  match uriBytes? 0 text with
  | some bytes => return bytes.takeWhile (· != 0)
  | none => failure

/-- What a tag or a directive has in front of a URI, and whether a mark ends it. -/
def handle : Tokenizer (List Char × Bool) := do
  take '!'
  let word ← takeWhile isWordChar
  if (← get).next? = some '!' then
    move 1
    return (word, true)
  else return (word, false)

def handleName (word : List Char) (closed : Bool) : String :=
  String.ofList ('!' :: word ++ (if closed then ['!'] else []))

/-- The text of a tag. A lone mark is a tag by itself. -/
def tagToken : Tokenizer Token := do
  if (← get).text[1]? = some '<' then
    move 2
    let bytes ← uri (← takeSome isEnclosedUriChar)
    take '>'
    return .tag none bytes
  else
    let (word, closed) ← handle
    if closed then
      return .tag (handleName word true) (← uri (← takeSome isUriChar))
    else
      let bytes ← uri (word ++ (← takeWhile isUriChar))
      return if bytes.isEmpty then .tag none [0x21] else .tag "!" bytes

def tag : Tokenizer Unit := do
  saveCandidate
  allowKey false
  let token ← tagToken
  let s ← get
  if s.inFlow ∧ s.next? = some ',' then emit token
  else
    ensureWhite
    emit token

/-! Directives. -/

def versionDirective : Tokenizer Token := do
  let major ← number
  take '.'
  let minor ← number
  return .version major minor

def handleDirective : Tokenizer Token := do
  let (word, closed) ← handle
  if !closed && !word.isEmpty then failure
  discard (takeSome isBlank)
  let stem ← uri (← takeSome isEnclosedUriChar)
  ensureWhite
  return .handle (handleName word closed) stem

def directive : Tokenizer Unit := do
  endDocument
  move 1
  let name ← takeSome isWordChar
  ensureWhite
  discard (takeWhile isBlank)
  let token ←
    if name = ['Y', 'A', 'M', 'L'] then versionDirective
    else if name = ['T', 'A', 'G'] then handleDirective
    else failure
  endLine
  emit token

/-! Nodes. -/

/-- The characters that may follow the name of a node without a blank. -/
def endsName (c : Char) : Bool :=
  isWhite c || c == '?' || c == ':' || c == ',' || c == ']' || c == '\x7d' || c == '%' ||
    c == '@' || c == '\x60'

/-- The name of a node, or what stands for the node with that name. -/
def name (token : String → Token) : Tokenizer Unit := do
  saveCandidate
  allowKey false
  move 1
  let word ← takeSome isWordChar
  if (← get).next?.all endsName then emit (token (String.ofList word)) else failure

def block (style : Style) : Tokenizer Unit := do
  dropCandidate
  allowKey true
  let s ← get
  match block? (style = .literal) s.columns.head? (s.text.drop 1) with
  | some (text, length) =>
    move (length + 1)
    emit (.scalar style text)
  | none => failure

def quoted : Tokenizer Unit := do
  saveCandidate
  allowKey false
  match quoted? (← get).text with
  | some (text, length) =>
    move length
    emit (.scalar .quoted text)
  | none => failure

/-- A plain scalar. A key may start behind the end of its line. -/
def plain : Tokenizer Unit := do
  saveCandidate
  let s ← get
  match plain? s.inFlow s.least s.column s.text with
  | some found =>
    move found.length
    allowKey found.broken
    emit (.scalar .plain found.text)
  | none => failure

/-- The token that starts with a character. -/
def token (c : Char) (rest : List Char) : Tokenizer Unit := do
  let s ← get
  let apart := atWhiteOrEnd rest
  match c with
  | '[' => openFlow .flowSequence
  | '\x7b' => openFlow .flowMapping
  | ']' => closeFlow .flowSequenceEnd
  | '\x7d' => closeFlow .flowMappingEnd
  | ',' => comma
  | '*' => name .reference
  | '&' => name .anchor
  | '!' => tag
  | '"' => quoted
  | '\'' => quoted
  | _ =>
    if c = '-' ∧ apart then entry
    else if c = '?' ∧ (s.inFlow ∨ apart) then key
    else if c = ':' ∧ (s.inFlow ∨ apart) then value
    else if c = '|' ∧ !s.inFlow then block .literal
    else if c = '>' ∧ !s.inFlow then block .folded
    else if startsPlain s.inFlow s.text then plain
    else failure

/-- Reads up to the next token and takes it, unless the document ends. -/
def next : Tokenizer Bool := do
  modify Layout.skipSpace
  dropStale
  let column := (← get).column
  closeBlocks (column < ·)
  let s ← get
  match s.text with
  | [] =>
    endDocument
    return false
  | c :: rest =>
    if s.column = 0 ∧ c = '%' then directive
    else if s.column = 0 ∧ atMarker s.text then marker
    else token c rest
    return true

def all : (steps : Nat) → Tokenizer Unit
  | 0 => failure
  | steps + 1 => do
    if ← next then all steps

end Tokenizer

/-- The tokens of a text, each of which takes a character at least. -/
def Token.ofText? (text : List Char) : Option (List Token) :=
  if text.all isAllowed then
    let text := normalizeLineEnds text
    ((Tokenizer.all (text.length + 1)).run { text }).map fun (_, s) => s.tokens.reverse
  else none

end LabelGraph.Yaml
