import LabelGraph.Parse.State

/-!
Running a parse. Each step reads one line; the step that meets the end of the
text resolves the waiting references and ends the parse. Every step that does not
end the parse consumes a token, so a parse ends.
-/

namespace LabelGraph

namespace Parse

/-- A parse that goes on from the words of a table. -/
def ofTable (source : List UInt8) (settings : Settings) (symbols : SymbolTable) : Parse :=
  { settings, rest := tokenize source, symbols }

/-- A parse whose table starts with the reserved words. If these do not fit, the
first step fails. -/
def ofSource (source : List UInt8) (settings : Settings) : Parse :=
  match SymbolTable.seeded settings.reserved with
  | .ok symbols => ofTable source settings symbols
  | .error e => { ofTable source settings .empty with seedError := some e }

/-- How the reading of a line ended: before the tokens of the next line, or at
the end of the text. -/
inductive LineEnd where
  | line (rest : List Token)
  | text
deriving DecidableEq, Repr

/-- Moves the position over a token. -/
def consume (t : Token) : ParseM Unit :=
  modify fun p => { p with previous := t.span }

/-- Reads the line from a place on. A NUL ends the parse wherever it stands. -/
def readLine (place : Place) : List Token → ParseM LineEnd
  | [] => return .text
  | t :: rest =>
    if t.kind = .corrupt then throw (.corrupt t.span)
    else
      match place.move t with
      | .take before after next => do
        before.forM act
        consume t
        after.forM act
        readLine next rest
      | .endLine before true => do
        before.forM act
        consume t
        return .line rest
      | .endLine before false => do
        before.forM act
        return .line (t :: rest)
      | .endText => return .text

/-- Ends the parse at the end of the text. -/
def finish : ParseM Unit := do
  resolvePending
  match (← get).blocks.back? with
  | some block => throw (.unclosed block.span)
  | none => modify fun p => { p with phase := .succeeded }

/-- Reads the next line, or ends the parse behind the last one. -/
def readStep : ParseM Unit := do
  modify fun p => { p with phase := .parsing }
  match (← get).seedError with
  | some e => throw (.storage e .zero)
  | none =>
    match ← readLine .item (← get).rest with
    | .line rest => modify fun p => { p with rest }
    | .text => finish

/-- Ends the parse with a last diagnostic. -/
def fail (p : Parse) (cause : Fatal) : Parse :=
  { p with
    diagnostics := p.diagnostics.push (cause.diagnostic p.settings.maxDiagnostics)
    phase := .failed }

/-- One step of the parse. A parse that has ended stays as it is. -/
def step (p : Parse) : Parse :=
  if p.phase.isTerminal then p
  else
    match readStep p with
    | .ok _ p => p
    | .error cause p => p.fail cause

/-- A line takes nothing from behind its end, and at least one token from where a
line starts. -/
theorem readLine_length {place : Place} {tokens rest : List Token} {p q : Parse}
    (h : readLine place tokens p = .ok (.line rest) q) :
    rest.length ≤ tokens.length ∧ (place = .item → rest.length < tokens.length) := by
  induction tokens generalizing place p with
  | nil => cases h
  | cons t tokens ih =>
    rw [readLine] at h
    split at h
    · cases h
    · cases moved : place.move t with
      | take before after next =>
        rw [moved] at h
        obtain ⟨_, _, _, h⟩ := bind_ok_iff.1 h
        obtain ⟨_, _, _, h⟩ := bind_ok_iff.1 h
        obtain ⟨_, _, _, h⟩ := bind_ok_iff.1 h
        have := (ih h).1
        simp only [List.length_cons]
        omega
      | endLine before taken =>
        rw [moved] at h
        cases taken with
        | true =>
          obtain ⟨_, _, _, h⟩ := bind_ok_iff.1 h
          obtain ⟨_, _, _, h⟩ := bind_ok_iff.1 h
          cases h
          simp
        | false =>
          obtain ⟨_, _, _, h⟩ := bind_ok_iff.1 h
          cases h
          refine ⟨Nat.le_refl _, ?_⟩
          rintro rfl
          exact absurd moved (Place.item_takes t _)
      | endText =>
        rw [moved] at h
        cases h

/-- A finished parse has ended. -/
theorem finish_phase {p q : Parse} (h : finish p = .ok () q) : q.phase = .succeeded := by
  obtain ⟨_, _, _, h⟩ := bind_ok_iff.1 h
  obtain ⟨p, _, _, h⟩ := bind_ok_iff.1 h
  cases last : p.blocks.back? with
  | some block =>
    rw [last] at h
    cases h
  | none =>
    rw [last] at h
    cases h
    rfl

/-- A bound on the steps still to come. -/
def remaining (p : Parse) : Nat :=
  if p.phase.isTerminal then 0 else p.rest.length + 1

/-- Every step of a parse that has not ended brings its end nearer. -/
theorem remaining_step (p : Parse) (h : p.phase.isTerminal = false) :
    p.step.remaining < p.remaining := by
  have positive : p.remaining = p.rest.length + 1 := by simp [remaining, h]
  rw [positive]
  unfold step
  simp only [h, Bool.false_eq_true, if_false]
  split
  · next q hq =>
    obtain ⟨_, a, ha, hq⟩ := bind_ok_iff.1 hq
    cases ha
    obtain ⟨r, b, hb, hq⟩ := bind_ok_iff.1 hq
    cases hb
    cases seed : p.seedError with
    | some e =>
      simp only [seed] at hq
      cases hq
    | none =>
      simp only [seed] at hq
      obtain ⟨_, c, hc, hq⟩ := bind_ok_iff.1 hq
      cases hc
      obtain ⟨ending, c, hc, hq⟩ := bind_ok_iff.1 hq
      cases ending with
      | line rest =>
        cases hq
        have := (readLine_length hc).2 rfl
        simp only [remaining]
        split <;> simp only at this ⊢ <;> omega
      | text =>
        simp [remaining, finish_phase hq, Phase.isTerminal]
  · simp [remaining, fail, Phase.isTerminal]

def run (p : Parse) : Parse :=
  if _ended : p.phase.isTerminal then p else run p.step
termination_by p.remaining
decreasing_by exact remaining_step p (by simpa using _ended)

theorem run_isTerminal (p : Parse) : p.run.phase.isTerminal := by
  fun_induction run p with
  | case1 p ended => exact ended
  | case2 p ongoing ih => exact ih

/-! What a parse reports. -/

def hasErrors (p : Parse) : Bool := p.diagnostics.any Diagnostic.isError

def errorCount (p : Parse) : Nat := p.diagnostics.countP Diagnostic.isError

/-- Whether the end of the text was reached without an error. -/
def isSuccess (p : Parse) : Bool := p.phase = .succeeded && !p.hasErrors

end Parse

def parse (source : List UInt8) (settings : Settings) : Parse :=
  (Parse.ofSource source settings).run

end LabelGraph
