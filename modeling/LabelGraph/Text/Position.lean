import LabelGraph.Text.Atom

/-!
Places in a source text. Lines and columns count from one, offsets count bytes
from zero. A column is one character or one stray byte wide, so a position is
moved by the atoms that are read and never recomputed from the text.
-/

namespace LabelGraph

structure Position where
  line : Nat
  column : Nat
  offset : Nat
deriving DecidableEq, Repr

namespace Position

def start : Position := { line := 1, column := 1, offset := 0 }

instance : Inhabited Position := ⟨start⟩

/-- The place after one more atom. Only a line feed starts a new line. -/
def after (p : Position) (a : Atom) : Position :=
  if a = .char '\n' then { line := p.line + 1, column := 1, offset := p.offset + 1 }
  else { p with column := p.column + 1, offset := p.offset + a.size }

def advance (p : Position) (atoms : List Atom) : Position :=
  atoms.foldl after p

def advanceText (p : Position) (text : String) : Position :=
  p.advance (text.toList.map Atom.char)

/-- The place after bytes that could not be decoded. -/
def advanceBytes (p : Position) (count : Nat) : Position :=
  { p with column := p.column + count, offset := p.offset + count }

/-- Positions are ordered by line, then column, then offset. -/
protected def compare (p q : Position) : Ordering :=
  ((compare p.line q.line).then (compare p.column q.column)).then (compare p.offset q.offset)

instance : Ord Position := ⟨Position.compare⟩

protected def min (p q : Position) : Position :=
  if (p.compare q).isLE then p else q

protected def max (p q : Position) : Position :=
  if (p.compare q).isLE then q else p

instance : ToString Position where
  toString p := s!"{p.line}:{p.column}"

@[simp] theorem advance_append (p : Position) (first second : List Atom) :
    p.advance (first ++ second) = (p.advance first).advance second := by
  simp [advance, List.foldl_append]

end Position

/-- A stretch of text from `start` up to, and not including, `stop`. -/
structure Span where
  start : Position
  stop : Position
deriving DecidableEq, Repr

namespace Span

def point (p : Position) : Span := { start := p, stop := p }

/-- The span of objects that stand nowhere in the text. -/
def zero : Span := point .start

instance : Inhabited Span := ⟨zero⟩

/-- The span from the earlier start to the later end. -/
def join (a b : Span) : Span :=
  { start := a.start.min b.start, stop := a.stop.max b.stop }

def length (s : Span) : Nat := s.stop.offset - s.start.offset

def isEmpty (s : Span) : Bool := s.length == 0

instance : ToString Span where
  toString s := s!"{s.start}-{s.stop}"

end Span

end LabelGraph
