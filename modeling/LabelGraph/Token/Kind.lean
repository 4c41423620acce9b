/-!
The lexical classes of the assembler text.
-/

namespace LabelGraph

/-- The class of a token. `error` covers what no other class accepts, `corrupt`
is a NUL character, and `eof` stands once behind the last token. -/
inductive Kind where
  | newline
  | colon
  | comma
  | plus
  | minus
  | leftBracket
  | rightBracket
  | leftBrace
  | rightBrace
  | directive
  | identifier
  | register
  | number
  | stringLiteral
  | corrupt
  | error
  | eof
deriving DecidableEq, Repr, Inhabited

namespace Kind

def all : List Kind :=
  [newline, colon, comma, plus, minus, leftBracket, rightBracket, leftBrace, rightBrace,
    directive, identifier, register, number, stringLiteral, corrupt, error, eof]

theorem mem_all (k : Kind) : k ∈ all := by
  cases k <;> decide

/-- The name under which a kind is written in reports. -/
def name : Kind → String
  | newline => "Newline"
  | colon => "Colon"
  | comma => "Comma"
  | plus => "Plus"
  | minus => "Minus"
  | leftBracket => "LeftBracket"
  | rightBracket => "RightBracket"
  | leftBrace => "LeftBrace"
  | rightBrace => "RightBrace"
  | directive => "Directive"
  | identifier => "Identifier"
  | register => "Register"
  | number => "Number"
  | stringLiteral => "StringLiteral"
  | corrupt => "Corrupt"
  | error => "Error"
  | eof => "Eof"

def ofName? (s : String) : Option Kind :=
  all.find? (·.name == s)

/-- The wording of diagnostics. -/
def describe : Kind → String
  | newline => "end of line"
  | colon => "`:`"
  | comma => "`,`"
  | plus => "`+`"
  | minus => "`-`"
  | leftBracket => "`[`"
  | rightBracket => "`]`"
  | leftBrace => "`\x7b`"
  | rightBrace => "`\x7d`"
  | directive => "directive"
  | identifier => "identifier"
  | register => "register"
  | number => "number"
  | stringLiteral => "string"
  | corrupt => "NUL byte"
  | error => "malformed input"
  | eof => "end of input"

/-- Whether the token ends a line or delimits a block. Reading goes on at such
a token after an error. -/
def isBoundary : Kind → Bool
  | newline | leftBrace | rightBrace | eof => true
  | _ => false

end Kind

end LabelGraph
