import LabelGraph.Toml.Number
import LabelGraph.Toml.Quoted

/-!
Reading a TOML document. Values, keys and statements are read one after another;
each reader gives the text behind what it read.
-/

namespace LabelGraph.Toml

/-- Reads something from the start of a text. -/
abbrev Reader (α : Type) := List Char → Option (α × List Char)

def skipBlanks (text : List Char) : List Char := text.dropWhile isBlank

def isCommentChar (c : Char) : Bool := isPlain c

/-- The text behind the end of the line. In front of it there may be blanks and a
comment. The end of the document ends a line too. -/
def lineEnd? (text : List Char) : Option (List Char) :=
  let text := skipBlanks text
  let text :=
    match text with
    | '#' :: rest => rest.dropWhile isCommentChar
    | text => text
  if text.isEmpty then some []
  else if startsLineEnd text then some (dropLineEnd text)
  else none

/-- The text behind blanks, comments and line ends. A comment runs up to a line end. -/
def skipSpace (text : List Char) : List Char :=
  skip false text
where
  /-- Goes on inside a comment or outside of one. -/
  skip : Bool → List Char → List Char
    | _, [] => []
    | _, '\n' :: rest => skip false rest
    | _, '\r' :: '\n' :: rest => skip false rest
    | true, c :: rest => if isCommentChar c then skip true rest else c :: rest
    | false, c :: rest =>
      if c = '#' then skip true rest
      else if isBlank c then skip false rest
      else c :: rest

/-! Keys. -/

def isBareKeyChar (c : Char) : Bool := c.isAlphanum || c == '_' || c == '-'

/-- One name of a key. Only quotes on one line are allowed. -/
def name? : Reader String := fun text =>
  match Quoting.opened? text with
  | some (q, _) =>
    if q.lines then (Quoting.readAfter ⟨q.escaped, false⟩ [] 0 (text.drop 1)).map
      fun (cs, rest) => (String.ofList cs, rest)
    else readQuoted? text
  | none =>
    let name := text.takeWhile isBareKeyChar
    if name.isEmpty then none else some (String.ofList name, text.drop name.length)

/-- The names of a dotted key. There may be blanks around every name. -/
def key? (steps : Nat) : Reader (List String) := fun text =>
  match steps with
  | 0 => none
  | steps + 1 =>
    match name? (skipBlanks text) with
    | none => none
    | some (name, rest) =>
      match skipBlanks rest with
      | '.' :: rest => (key? steps rest).map fun (names, rest) => (name :: names, rest)
      | rest => some ([name], rest)

/-- How deep values may nest, and how many names a key may have. -/
def depthLimit : Nat := 79

/-! Values. -/

/-- The items of an array behind its bracket, each with white space around it. -/
def items? (value : Reader Toml) (steps : Nat) (read : List Toml) : Reader (List Toml) :=
  fun text =>
    match steps with
    | 0 => none
    | steps + 1 =>
      match skipSpace text with
      | ']' :: rest => some (read.reverse, rest)
      | text =>
        match value text with
        | none => none
        | some (item, rest) =>
          match skipSpace rest with
          | ',' :: rest => items? value steps (item :: read) rest
          | ']' :: rest => some ((item :: read).reverse, rest)
          | _ => none

/-- A key, an equals sign and a value. -/
def member? (value : Reader Toml) : Reader (List String × Toml) := fun text =>
  match key? depthLimit text with
  | some (key, '=' :: rest) =>
    (value (skipBlanks rest)).map fun (v, rest) => ((key, v), skipBlanks rest)
  | _ => none

/-- The members of a table between braces, behind the first of them. -/
def members? (value : Reader Toml) (steps : Nat) (t : Table) : Reader Table := fun text =>
  match steps with
  | 0 => none
  | steps + 1 =>
    match member? value text with
    | none => none
    | some ((key, v), rest) =>
      match t.assign v key with
      | none => none
      | some t =>
        match rest with
        | ',' :: rest => members? value steps t rest
        | '\x7d' :: rest => some (t, rest)
        | _ => none

/-- A table between braces, behind the first of them. -/
def inlineTable? (value : Reader Toml) (steps : Nat) : Reader Table := fun text =>
  match skipBlanks text with
  | '\x7d' :: rest => some (∅, rest)
  | text => members? value steps ∅ text

/-- A value that may hold values down to a number of levels. No collection in it has
more than `steps` parts. -/
def value? (steps : Nat) : (levels : Nat) → Reader Toml
  | levels, text =>
    match text with
    | '[' :: rest =>
      match levels with
      | 0 => none
      | levels + 1 =>
        (items? (value? steps levels) steps [] rest).map fun (items, rest) =>
          (.array items, rest)
    | '\x7b' :: rest =>
      match levels with
      | 0 => none
      | levels + 1 =>
        (inlineTable? (value? steps levels) steps rest).map fun (t, rest) =>
          (.table .inline t, rest)
    | 't' :: 'r' :: 'u' :: 'e' :: rest => some (.boolean true, rest)
    | 'f' :: 'a' :: 'l' :: 's' :: 'e' :: rest => some (.boolean false, rest)
    | text =>
      match readQuoted? text with
      | some (s, rest) => some (.string s, rest)
      | none => dateTimeOrNumber? text

/-! Statements. -/

/-- The path of a header, up to its closing brackets. -/
def header? (close : List Char) : Reader (List String) := fun text =>
  match key? depthLimit text with
  | some (path, rest) =>
    if close.isPrefixOf rest then some (path, rest.drop close.length) else none
  | none => none

/-- One statement, without the end of its line. -/
def statement? (steps : Nat) : Reader Statement := fun text =>
  match text with
  | '[' :: '[' :: rest =>
    (header? [']', ']'] rest).map fun (path, rest) => (.repeated path, rest)
  | '[' :: rest => (header? [']'] rest).map fun (path, rest) => (.header path, rest)
  | text =>
    (member? (value? steps depthLimit) text).map fun ((key, value), rest) =>
      (.assign key value, rest)

/-- The statements of a document, after those already read, which are in reverse. The
text has `steps` characters at most. -/
def statementsAfter (steps : Nat) (read : List Statement) (text : List Char) :
    Option (List Statement) :=
  match steps with
  | 0 => none
  | steps + 1 =>
    match skipBlanks text with
    | [] => some read.reverse
    | text =>
      match lineEnd? text with
      | some rest => statementsAfter steps read rest
      | none =>
        match statement? steps text with
        | none => none
        | some (statement, rest) =>
          match lineEnd? rest with
          | some rest => statementsAfter steps (statement :: read) rest
          | none => none

/-- The statements of a document, behind an optional mark at its start. Every line
takes something away, so the length of the text bounds the number of lines, and that of
the parts of a collection. -/
def statements? (text : List Char) : Option (List Statement) :=
  let text :=
    match text with
    | '\uFEFF' :: rest => rest
    | text => text
  statementsAfter (text.length + 1) [] text

def parse? (text : List Char) : Option Table :=
  (statements? text).bind tableOf

end LabelGraph.Toml
