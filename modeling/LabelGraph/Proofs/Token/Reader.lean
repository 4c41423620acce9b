import LabelGraph.Proofs.Text.Chunk
import LabelGraph.Proofs.Token.Closing
import LabelGraph.Proofs.Token.Lexer
import Mathlib.Data.Nat.PSub

/-!
Reading the tokens chunk by chunk, by byte offsets. Offsets count in three frames: from the
start of the source, from the start of the text that the lexer runs over, and from the start
of the chunk, in front of what closes an open construct. Here every subtraction, every piece
of text, every move of the lexer and every span is tested, and there is no answer if one of
them fails.
-/

namespace LabelGraph

open Atom Lexeme Utf8

def Span.new? (start stop : Position) : Option Span :=
  if start.offset ≤ stop.offset then some { start, stop } else none

@[simp] theorem Span.new?_advance (p : Position) (atoms : List Atom) :
    Span.new? p (p.advance atoms) = some { start := p, stop := p.advance atoms } := by
  rw [Span.new?, if_pos]
  rw [Position.offset_advance]
  exact Nat.le_add_right ..

/-- A place in a source text: the lexer of the current chunk, its broken sequence as long as
that is not reported, what stands open, the offset of the text of the lexer and the position. -/
structure ChunkReader where
  lexer : Option Lexer := none
  invalid : List UInt8 := []
  carry : Construct := .code
  base : Nat := 0
  cursor : Position := .start

namespace ChunkReader

/-- A token of a piece of the text, given by offsets. What stands in front of it is stepped
over. -/
def lexed? (r : ChunkReader) (kind : Kind) (text : List Char) (start stop : Nat) :
    Option (Token × ChunkReader) := do
  let consumed ← r.cursor.offset.psub r.base
  let trivia ← slice? text consumed start
  let first := r.cursor.advance (trivia.map .char)
  let lexeme ← slice? text start stop
  let last := first.advance (lexeme.map .char)
  let span ← Span.new? first last
  return ({ kind, text := String.ofList lexeme, span }, { r with cursor := last })

/-- Where the error at a quote ends, and what it leaves open: the string that starts there goes
on to where it closes, or else to the end of the text. -/
def unclosed (r : ChunkReader) (text body : List Char) (start : Nat) : Nat × Construct :=
  match Construct.string.closeOffset? body with
  | some n => (start + 1 + n, r.carry)
  | none => (width text, if r.invalid.isEmpty then r.carry else .string)

/-- The error that the lexer found. At a quote it may have to be made longer, and then the lexer
is moved on. -/
def error? (r : ChunkReader) (l : Lexer) (m : Lexer.Match) : Option (Token × ChunkReader) := do
  let tail ← suffix? l.text m.start
  if tail.head? = some '"' then
    let body ← suffix? l.text (m.start + 1)
    let (stop, carry) := r.unclosed l.text body m.start
    if m.stop < stop then
      let more ← stop.psub m.stop
      let l ← l.bump? more
      lexed? { r with lexer := some l, carry } .error l.text m.start stop
    else lexed? { r with lexer := some l, carry } .error l.text m.start m.stop
  else lexed? { r with lexer := some l } .error l.text m.start m.stop

/-- Steps over the blanks and the comment at the end of a text. A comment that broken bytes
interrupt is left open. -/
def finish? (r : ChunkReader) (text : List Char) : Option ChunkReader := do
  let consumed ← r.cursor.offset.psub r.base
  let tail ← suffix? text consumed
  let carry := if !r.invalid.isEmpty && tail.any startsComment then .comment else r.carry
  let cursor := r.cursor.advance (tail.map .char)
  return { r with lexer := none, carry, base := cursor.offset, cursor }

/-- Asks the lexer, if there is one. When it has come to its end, the chunk is finished. -/
def lex? (reach : List Char → Nat) (r : ChunkReader) : Option (Option Token × ChunkReader) :=
  match r.lexer with
  | none => some (none, r)
  | some l =>
    match l.next reach with
    | none => (r.finish? l.text).map (none, ·)
    | some (m, l) =>
      let found? :=
        match m.kind with
        | some kind => lexed? { r with lexer := some l } kind l.text m.start m.stop
        | none => r.error? l m
      found?.map fun (token, r) => (some token, r)

/-- The error over a broken sequence and over those of the chunks that hold nothing else. -/
def strays? (r : ChunkReader) (chunks : List Chunk) :
    Option (Token × ChunkReader × List Chunk) := do
  let bytes := r.invalid ++ Chunk.strays chunks
  let cursor := r.cursor.advanceBytes bytes.length
  let span ← Span.new? r.cursor cursor
  return ({ kind := .error, text := "", span, bytes },
    { r with invalid := [], base := cursor.offset, cursor }, chunks.dropWhile (·.valid.isEmpty))

/-- How much of a text still belongs to what stands open, and what stands open behind. -/
def closing (carry : Construct) (text : List Char) : Nat × Construct :=
  match carry.closeOffset? text with
  | some n => (n, .code)
  | none => (width text, carry)

def resume? (r : ChunkReader) (chunk : Chunk) : Option ChunkReader := do
  let (n, carry) := closing r.carry chunk.valid
  let (opened, rest) ← splitAt? n chunk.valid
  let cursor := r.cursor.advance (opened.map .char)
  return { lexer := some (.ofText rest), invalid := chunk.invalid, carry, base := cursor.offset,
           cursor }

def next? (reach : List Char → Nat) (r : ChunkReader) (chunks : List Chunk) :
    Option (Token × ChunkReader × List Chunk) :=
  match r.lex? reach with
  | none => none
  | some (some token, r) => some (token, r, chunks)
  | some (none, r) =>
    if r.invalid.isEmpty then
      match chunks with
      | [] =>
        (Span.new? r.cursor r.cursor).map fun span => ({ kind := .eof, text := "", span }, r, [])
      | chunk :: chunks => (r.resume? chunk).bind fun r => next? reach r chunks
    else r.strays? chunks

def answers? (reach : List Char → Nat) (r : ChunkReader) (chunks : List Chunk) :
    Nat → Option (List Token)
  | 0 => some []
  | n + 1 => do
    let (token, r, chunks) ← r.next? reach chunks
    let tokens ← r.answers? reach chunks n
    return token :: tokens

/-! What the tests come to where the offsets are right. -/

@[simp] theorem psub_add (m n : Nat) : (m + n).psub m = some n :=
  Nat.psub_eq_some.2 (Nat.add_comm n m)

theorem lexed?_eq {r : ChunkReader} {front : List Char}
    (hoffset : r.cursor.offset = r.base + width front) (kind : Kind)
    (skipped lexeme back : List Char) :
    r.lexed? kind (front ++ (skipped ++ (lexeme ++ back))) (width front + width skipped)
        (width front + width skipped + width lexeme) =
      some
        ({ kind, text := String.ofList lexeme,
           span :=
            { start := r.cursor.advance (skipped.map .char),
              stop := (r.cursor.advance (skipped.map .char)).advance (lexeme.map .char) } },
          { r with
            cursor := (r.cursor.advance (skipped.map .char)).advance (lexeme.map .char) }) := by
  have hlexeme := slice?_width (front ++ skipped) lexeme back
  rw [width_append, List.append_assoc] at hlexeme
  simp [lexed?, hoffset, hlexeme]

end ChunkReader

end LabelGraph
