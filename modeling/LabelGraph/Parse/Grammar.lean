import LabelGraph.Graph.Basic
import LabelGraph.Token.Scanner

/-!
The grammar of one line. A line is read token by token, and at each place of the
line the next token alone decides what is done and where the line goes on. So the
grammar is a table of moves. A move carries the actions to be done before and
after the token is consumed; what the actions do to the graph never decides the
next move.

    line      = (label | "\{" | "\}")* statement? end-of-line
    label     = identifier ":"
    statement = identifier operands | directive operands | name-directive names
    operands  = (operand ("," operand)*)?
    names     = (identifier | directive) ("," (identifier | directive))*
    operand   = identifier | register | number | string | "-" number | memory
    memory    = "[" (identifier | register | number) (("+" | "-") (number | register))* "]"

A brace also ends a statement, but is left for the next line to read. After an
error the rest of the line, or what stands before the next brace, is passed over.
-/

namespace LabelGraph

/-- What should have stood where an unexpected token stands. -/
inductive Wanted where
  | item
  | name
  | operand
  | number
  | base
  | offset
  | closingBracket
  | lineEnd
deriving DecidableEq, Repr

def Wanted.describe : Wanted → String
  | item => "label, instruction or directive"
  | name => "name"
  | operand => "operand"
  | number => "number"
  | base => "label, register or number"
  | offset => "number or register"
  | closingBracket => "`]`"
  | lineEnd => "end of line"

/-- What the tokens of a line ask for. -/
inductive Action where
  | intern (word : Token)
  | declareLabel (name colon : Token)
  | declareExternal (name : Token)
  | refer (name : Token) (direction : Direction)
  | openBlock (brace : Token)
  | closeBlock (brace : Token)
  | reject (token : Token) (wanted : Wanted)
deriving DecidableEq, Repr

/-- The places of a line, named for what may come next. -/
inductive Place where
  /-- A label, an instruction, a directive or a brace. -/
  | item
  /-- A colon that makes the word a label, or the operands of the instruction. -/
  | afterName (word : Token)
  /-- The first operand, or the end of the line. -/
  | operands
  | operand
  /-- The number behind a minus sign. -/
  | number
  /-- The base of a memory operand. -/
  | base
  /-- A sign or the bracket that closes a memory operand. -/
  | bracketTail
  /-- The number or register behind a sign. -/
  | offset
  /-- A comma, or the end of the line. -/
  | operandEnd
  /-- A name in the list of a directive that declares its names or only mentions
  them. -/
  | name (declares : Bool)
  | nameEnd (declares : Bool)
  /-- Anything, after an error. -/
  | recovery
deriving DecidableEq, Repr

/-- What a token does at a place of the line. -/
inductive Move where
  /-- Consumes the token and goes on. -/
  | take (before after : List Action) (next : Place)
  /-- Ends the line, with or without consuming the token. -/
  | endLine (before : List Action) (taken : Bool)
  /-- Ends the text. -/
  | endText
deriving DecidableEq, Repr

namespace Move

/-- Does something else first. -/
def afterAction (a : Action) : Move → Move
  | take before after next => take (a :: before) after next
  | endLine before taken => endLine (a :: before) taken
  | endText => endText

/-- Passes over a token after an error. A line feed is consumed with it; a brace
and the end of the text are left. -/
def passOver (t : Token) : Move :=
  match t.kind with
  | .newline => endLine [] true
  | .leftBrace | .rightBrace | .eof => endLine [] false
  | _ => take [] [] .recovery

def reject (t : Token) (wanted : Wanted) : Move :=
  (passOver t).afterAction (.reject t wanted)

/-- Ends a statement, which only a boundary does. -/
def finish (t : Token) : Move :=
  if t.kind.isBoundary then passOver t else reject t .lineEnd

def operand (t : Token) : Move :=
  match t.kind with
  | .identifier => take [] [.refer t .outgoing] .operandEnd
  | .register | .number | .stringLiteral => take [] [] .operandEnd
  | .minus => take [] [] .number
  | .leftBracket => take [] [] .base
  | _ => reject t .operand

def operands (t : Token) : Move :=
  if t.kind.isBoundary then passOver t else operand t

end Move

/-- Where the line goes on behind a directive. -/
def Place.afterDirective (directive : String) : Place :=
  if directive = ".extern" then .name true
  else if directive = ".global" ∨ directive = ".section" then .name false
  else .operands

/-- The table of the grammar. -/
def Place.move (place : Place) (t : Token) : Move :=
  match place with
  | .item =>
    match t.kind with
    | .eof => .endText
    | .newline => .endLine [] true
    | .leftBrace => .take [] [.openBlock t] .item
    | .rightBrace => .take [] [.closeBlock t] .item
    | .identifier => .take [] [] (.afterName t)
    | .directive => .take [] [.intern t] (.afterDirective t.text)
    | _ => .reject t .item
  | .afterName word =>
    match t.kind with
    | .colon => .take [] [.declareLabel word t] .item
    | _ => (Move.operands t).afterAction (.intern word)
  | .operands => .operands t
  | .operand => .operand t
  | .number =>
    match t.kind with
    | .number => .take [] [] .operandEnd
    | _ => .reject t .number
  | .base =>
    match t.kind with
    | .identifier => .take [] [.refer t .incoming] .bracketTail
    | .register | .number => .take [] [] .bracketTail
    | _ => .reject t .base
  | .bracketTail =>
    match t.kind with
    | .plus | .minus => .take [] [] .offset
    | .rightBracket => .take [] [] .operandEnd
    | _ => .reject t .closingBracket
  | .offset =>
    match t.kind with
    | .number | .register => .take [] [] .bracketTail
    | _ => .reject t .offset
  | .operandEnd =>
    match t.kind with
    | .comma => .take [] [] .operand
    | _ => .finish t
  | .name declares =>
    match t.kind with
    | .identifier | .directive =>
      .take [] [if declares then .declareExternal t else .intern t] (.nameEnd declares)
    | _ => .reject t .name
  | .nameEnd declares =>
    match t.kind with
    | .comma => .take [] [] (.name declares)
    | _ => .finish t
  | .recovery => .passOver t

/-- No line ends before its first token. -/
theorem Place.item_takes (t : Token) (before : List Action) :
    Place.item.move t ≠ .endLine before false := by
  unfold Place.move
  cases h : t.kind <;> simp [h, Move.reject, Move.passOver, Move.afterAction]

end LabelGraph
