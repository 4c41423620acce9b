/-!
The characters of a YAML document.
-/

namespace LabelGraph.Yaml

def isAllowed (c : Char) : Bool :=
  let n := c.toNat
  n == 9 || n == 10 || n == 13 || (0x20 ≤ n && n ≤ 0x7E) || n == 0x85 ||
    (0xA0 ≤ n && n ≤ 0xD7FF) || (0xE000 ≤ n && n ≤ 0xFFFD) || 0x10000 ≤ n

/-- Makes every line end a line feed, except for the line and paragraph separators,
which stay what they are. -/
def normalizeLineEnds (text : List Char) : List Char :=
  go [] text
where
  go (read : List Char) : List Char → List Char
    | '\r' :: '\n' :: rest => go ('\n' :: read) rest
    | c :: rest => go ((if c = '\r' ∨ c = '\u0085' then '\n' else c) :: read) rest
    | [] => read.reverse

def isBlank (c : Char) : Bool := c == ' ' || c == '\t'

/-- A line end, once line ends are normalized. -/
def isBreak (c : Char) : Bool := c == '\n' || c == '\u2028' || c == '\u2029'

def isWhite (c : Char) : Bool := isBlank c || isBreak c

/-- Whether white space or the end of the document comes next. -/
def atWhiteOrEnd (text : List Char) : Bool := text.head?.all isWhite

/-- Whether a line that starts here ends or starts a document. -/
def atMarker : List Char → Bool
  | '-' :: '-' :: '-' :: rest => atWhiteOrEnd rest
  | '.' :: '.' :: '.' :: rest => atWhiteOrEnd rest
  | _ => false

/-- A character that ends a plain scalar between brackets or braces. -/
def isFlowIndicator (c : Char) : Bool :=
  c == ',' || c == '[' || c == ']' || c == '\x7b' || c == '\x7d'

/-- A character of the name of a node, a handle or a directive. -/
def isWordChar (c : Char) : Bool := c.isAlphanum || c == '-' || c == '_'

/-- A character of the URI of a tag. -/
def isUriChar (c : Char) : Bool :=
  isWordChar c || c == ';' || c == '/' || c == '?' || c == ':' || c == '@' || c == '&' ||
    c == '=' || c == '+' || c == '$' || c == '.' || c == '%' || c == '!' || c == '~' ||
    c == '*' || c == '\'' || c == '(' || c == ')'

/-- A character of a URI that has marks at both its ends. -/
def isEnclosedUriChar (c : Char) : Bool := isUriChar c || c == ',' || c == '[' || c == ']'

end LabelGraph.Yaml
