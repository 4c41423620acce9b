import LabelGraph.Text.Position
import LabelGraph.Token.Lexeme

/-!
Reading the tokens of a source text one after another. A run of stray bytes is
one error token, in code, in a comment and in a string alike. Blanks and comments
are skipped, but the position moves over them, so every span is exact.

What a run of stray bytes interrupts stays open across it: the rest of a comment
is still skipped, and the rest of a string is skipped with it up to the closing
quote or the end of the line. No token and no open construct crosses a line feed.
-/

namespace LabelGraph

/-- A token and where it stands. An error token over bytes outside UTF-8 has no
text and holds these bytes instead. -/
structure Token where
  kind : Kind
  text : String
  span : Span
  bytes : List UInt8 := []
deriving DecidableEq, Repr, Inhabited

/-- A place in a source text: the atoms ahead, what stands open where the last
valid text ended, and the position. -/
structure Scanner where
  rest : List Atom
  construct : Construct := .code
  cursor : Position := .start

namespace Scanner

def ofBytes (source : List UInt8) : Scanner := { rest := Utf8.decode source }

def advance (s : Scanner) (n : Nat) : Scanner :=
  { s with rest := s.rest.drop n, cursor := s.cursor.advance (s.rest.take n) }

/-- The number of characters before the next stray byte or the end. -/
def validRun (atoms : List Atom) : Nat := Lexeme.run (fun _ => true) atoms

/-- Moves to where the open construct closes, or over the whole valid text if it
does not close there. -/
def closeConstruct (s : Scanner) : Scanner :=
  match s.construct.close? s.rest with
  | some n => { s.advance n with construct := .code }
  | none => s.advance (validRun s.rest)

/-- Moves over blanks and a comment. A comment that runs into stray bytes is left
open. -/
def skipTrivia (s : Scanner) : Scanner :=
  let s := s.advance (Lexeme.run Lexeme.isBlank s.rest)
  if Lexeme.headIs Lexeme.startsComment s.rest then
    let s := s.advance (Lexeme.run Lexeme.isCommentChar s.rest)
    match s.rest with
    | .stray _ :: _ => { s with construct := .comment }
    | _ => s
  else s

/-- Moves to the start of the next token. -/
def skip (s : Scanner) : Scanner :=
  let s := s.closeConstruct
  match s.construct with
  | .code => s.skipTrivia
  | _ => s

def cut (s : Scanner) (kind : Kind) (n : Nat) : Token × Scanner :=
  let atoms := s.rest.take n
  let s' := s.advance n
  ({ kind, text := textOf atoms, span := { start := s.cursor, stop := s'.cursor },
     bytes := atoms.filterMap Atom.byte? }, s')

/-- The error at an opening quote without a closing one. It takes the rest of the
line, or of the valid text, and then the string is left open. -/
def cutOpenString (s : Scanner) (body : List Atom) : Token × Scanner :=
  match Construct.string.close? body with
  | some n => s.cut .error (1 + n)
  | none =>
    let (token, s) := s.cut .error (1 + validRun body)
    match s.rest with
    | .stray _ :: _ => (token, { s with construct := .string })
    | _ => (token, s)

def cutToken (s : Scanner) : Token × Scanner :=
  match s.rest with
  | [] => s.cut .eof 0
  | .stray _ :: rest => s.cut .error (1 + (rest.takeWhile Atom.isStray).length)
  | .char c :: rest =>
    match Lexeme.longest? c rest with
    | some (kind, n) => s.cut kind n
    | none => if c = '"' then s.cutOpenString rest else s.cut .error 1

/-- The next token. At the end of the text this is an empty one of kind `eof`,
however often it is asked for. -/
def next (s : Scanner) : Token × Scanner :=
  s.skip.cutToken

@[simp] theorem rest_advance (s : Scanner) (n : Nat) : (s.advance n).rest = s.rest.drop n := rfl

theorem length_advance (s : Scanner) (n : Nat) :
    (s.advance n).rest.length = s.rest.length - n := by
  simp

theorem length_closeConstruct (s : Scanner) :
    s.closeConstruct.rest.length ≤ s.rest.length := by
  unfold closeConstruct
  split <;> simp

theorem length_skipTrivia (s : Scanner) : s.skipTrivia.rest.length ≤ s.rest.length := by
  unfold skipTrivia
  simp only
  split
  · split <;> simp <;> omega
  · simp

theorem length_skip (s : Scanner) : s.skip.rest.length ≤ s.rest.length := by
  unfold skip
  have close := length_closeConstruct s
  simp only
  split
  · exact Nat.le_trans (length_skipTrivia _) close
  · exact close

@[simp] theorem length_cut (s : Scanner) (kind : Kind) (n : Nat) :
    (s.cut kind n).2.rest.length = s.rest.length - n :=
  length_advance s n

theorem length_cutOpenString (s : Scanner) (body : List Atom) (h : s.rest ≠ []) :
    (s.cutOpenString body).2.rest.length < s.rest.length := by
  have pos := List.length_pos_iff.2 h
  unfold cutOpenString
  split
  · rw [length_cut]; omega
  · simp only
    split <;> simp only [length_cut] <;> omega

/-- A token that is not the end of the text takes something away. -/
theorem length_cutToken (s : Scanner) (h : s.cutToken.1.kind ≠ .eof) :
    s.cutToken.2.rest.length < s.rest.length := by
  cases hrest : s.rest with
  | nil => simp [cutToken, hrest, cut] at h
  | cons a rest =>
    have pos : 0 < s.rest.length := by simp [hrest]
    rw [← hrest]
    cases a with
    | stray b =>
      simp only [cutToken, hrest, length_cut]
      simp only [List.length_cons]
      omega
    | char c =>
      simp only [cutToken, hrest]
      split
      · next kind n found =>
        have := Lexeme.longest?_pos found
        simp only [length_cut, hrest, List.length_cons] at *
        omega
      · split
        · have := length_cutOpenString s rest (by simp [hrest])
          simpa [hrest] using this
        · simp only [length_cut, hrest, List.length_cons]
          omega

theorem length_next (s : Scanner) (h : s.next.1.kind ≠ .eof) :
    s.next.2.rest.length < s.rest.length :=
  Nat.lt_of_lt_of_le (length_cutToken s.skip h) (length_skip s)

/-- The tokens from here to the end of the text, after those already read, which
are in reverse. -/
def tokensAfter (read : List Token) (s : Scanner) : List Token :=
  if _more : s.next.1.kind = .eof then (s.next.1 :: read).reverse
  else tokensAfter (s.next.1 :: read) s.next.2
termination_by s.rest.length
decreasing_by exact length_next s _more

/-- The tokens from here to the end of the text. The last one, and no other, is
of kind `eof`. -/
def tokens (s : Scanner) : List Token := tokensAfter [] s

end Scanner

def tokenize (source : List UInt8) : List Token :=
  (Scanner.ofBytes source).tokens

end LabelGraph
