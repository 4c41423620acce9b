import LabelGraph.Diagnostic.Basic
import LabelGraph.Graph.Edit
import LabelGraph.Parse.Grammar
import LabelGraph.Settings.Basic
import LabelGraph.Text.Digits

/-!
The state of a parse and what the actions of a line do to it. An edge belongs to
the label in whose scope its reference stands. A reference to a label that is not
declared yet waits until the end of the text.

An action can end the whole parse. Everything done before stays in the state.
-/

namespace LabelGraph

inductive Phase where
  | fresh
  | parsing
  | succeeded
  | failed
deriving DecidableEq, Repr, Inhabited

namespace Phase

def name : Phase → String
  | fresh => "fresh"
  | parsing => "parsing"
  | succeeded => "succeeded"
  | failed => "failed"

def isTerminal : Phase → Bool
  | succeeded | failed => true
  | _ => false

end Phase

/-- Why a parse cannot go on. -/
inductive Fatal where
  | corrupt (span : Span)
  | storage (cause : StoreError) (span : Span)
  /-- The text ends inside the block that was opened at `span`. -/
  | unclosed (span : Span)
  /-- The diagnostic at `span` reached the limit. -/
  | tooMany (span : Span)
deriving DecidableEq, Repr

/-- The diagnostic of a fatal cause, under a limit on diagnostics. -/
def Fatal.diagnostic (limit : Option UInt32) : Fatal → Diagnostic
  | corrupt span =>
    { severity := .error, code := Code.corrupt, span
      message := "NUL byte in input; scanning cannot resume" }
  | storage cause span =>
    if cause.isCapacity then
      { severity := .error, code := Code.capacity, span, message := cause.message }
    else
      { severity := .error, code := Code.storage, span
        message := s!"internal graph error: {cause.message}" }
  | unclosed span =>
    { severity := .error, code := Code.unclosed, span
      message := "end of input inside a block"
      details := { expected := some "`\x7d`" } }
  | tooMany span =>
    { severity := .error, code := Code.tooMany, span
      message := s!"too many diagnostics (limit {limit.getD 0})" }

/-- An open block: the scope in force where it opened, and its brace. -/
structure Block where
  owner : Option NodeId
  span : Span
deriving DecidableEq, Repr

/-- A reference to a label that was not declared when it was read. -/
structure Reference where
  scope : NodeId
  name : Symbol
  direction : Direction
  span : Span
deriving DecidableEq, Repr

structure Parse where
  settings : Settings
  phase : Phase := .fresh
  /-- The tokens of the lines still to be read. -/
  rest : List Token
  /-- The span of the token consumed last. -/
  previous : Span := .zero
  graph : Graph := {}
  symbols : SymbolTable
  /-- Why the reserved words do not fit into a table, if they do not. -/
  seedError : Option StoreError := none
  diagnostics : Array Diagnostic := #[]
  /-- The label that owns the references read next. -/
  scope : Option NodeId := none
  /-- The open blocks, innermost last. -/
  blocks : Array Block := #[]
  labels : Std.HashMap Symbol NodeId := ∅
  pending : Array Reference := #[]

abbrev ParseM := EStateM Fatal Parse

namespace Parse

/-- Adds a diagnostic. The one that reaches the limit ends the parse. -/
def report (d : Diagnostic) : ParseM Unit := fun p =>
  let p := { p with diagnostics := p.diagnostics.push d }
  match p.settings.maxDiagnostics with
  | some limit =>
    if limit.toNat ≤ p.diagnostics.size then .error (.tooMany d.span) p else .ok () p
  | none => .ok () p

/-- Runs an operation on the graph. The state gives its graph away meanwhile, so
that the operation can change it in place. -/
def onGraph (span : Span) (op : StoreM Graph α) : ParseM α := fun p =>
  let g := p.graph
  let p := { p with graph := {} }
  match op g with
  | .ok a g => .ok a { p with graph := g }
  | .error e g => .error (.storage e span) { p with graph := g }

/-- Runs an operation on the symbol table, in the same way. -/
def onSymbols (span : Span) (op : StoreM SymbolTable α) : ParseM α := fun p =>
  let t := p.symbols
  let p := { p with symbols := {} }
  match op t with
  | .ok a t => .ok a { p with symbols := t }
  | .error e t => .error (.storage e span) { p with symbols := t }

def intern (word : String) (span : Span) : ParseM Symbol :=
  onSymbols span (SymbolTable.intern word)

def link (source target : NodeId) (label : Symbol) (d : Direction) (span : Span) : ParseM Unit :=
  onGraph span do discard (Graph.addEdge source target label d span)

def declare (name : Symbol) (kind : NodeKind) (span : Span) : ParseM NodeId := do
  let node ← onGraph span (Graph.createNode name kind span)
  modify fun p => { p with labels := p.labels.insert name node }
  return node

def reportDuplicate (name : String) (first : NodeId) (span : Span) : ParseM Unit := do
  let place := ((← get).graph.nodeSpan first).toOption.getD .zero
  report
    { severity := .error, code := Code.duplicate, span
      message := s!"`{name}` is already declared"
      details := { found := some name, info := some s!"first declared at {place.start}" } }

/-- Declares a label, which becomes the scope. Inside a block that has an owner,
an edge leads from the owner to the label. A label that is declared again becomes
the scope once more, but an external name does not. -/
def declareLabel (name colon : Token) : ParseM Unit := do
  let span := name.span.join colon.span
  let symbol ← intern name.text name.span
  match (← get).labels[symbol]? with
  | some first =>
    reportDuplicate name.text first span
    match (← get).graph.node first with
    | .ok node => if node.kind = .label then modify fun p => { p with scope := some first }
    | .error _ => pure ()
  | none =>
    let node ← declare symbol .label span
    if let some owner := (← get).blocks.back?.bind Block.owner then
      let contains ← intern Keywords.containsLabel span
      link owner node contains .outgoing span
    modify fun p => { p with scope := some node }

def declareExternal (name : Token) : ParseM Unit := do
  let symbol ← intern name.text name.span
  match (← get).labels[symbol]? with
  | some first => reportDuplicate name.text first name.span
  | none => discard (declare symbol .external name.span)

/-- Links the scope to the label, or lets the reference wait for it. -/
def refer (name : Token) (d : Direction) : ParseM Unit := do
  let symbol ← intern name.text name.span
  match (← get).scope with
  | none =>
    report
      { severity := .error, code := Code.unexpected, span := name.span
        message := s!"reference to `{name.text}` outside any label"
        details := { found := some name.text, expected := some "a label declaration first" } }
  | some scope =>
    match (← get).labels[symbol]? with
    | some target => link scope target symbol d name.span
    | none =>
      let reference : Reference := { scope, name := symbol, direction := d, span := name.span }
      modify fun p => { p with pending := p.pending.push reference }

/-- Opens a block. One that is too deep is reported, but still opened, so that its
closing brace finds it. -/
def openBlock (brace : Token) : ParseM Unit := do
  let limit := (← get).settings.maxBlockDepth
  if limit.toNat ≤ (← get).blocks.size then
    report
      { severity := .error, code := Code.unbalanced, span := brace.span
        message := s!"blocks nested deeper than {limit}"
        details := { found := some "\x7b" } }
  modify fun p => { p with blocks := p.blocks.push { owner := p.scope, span := brace.span } }

/-- Closes the innermost block. The scope is again what it was before the block. -/
def closeBlock (brace : Token) : ParseM Unit := do
  match (← get).blocks.back? with
  | some block => modify fun p => { p with blocks := p.blocks.pop, scope := block.owner }
  | none =>
    report
      { severity := .error, code := Code.unbalanced, span := brace.span
        message := "`\x7d` without matching `\x7b`"
        details := { found := some "\x7d" } }

/-- A byte as it is shown in a diagnostic. -/
def spellByte (b : UInt8) : List Char :=
  ['\\', 'x', Digits.upperHex (b.toNat / 16), Digits.upperHex (b.toNat % 16)]

/-- The diagnostic of a token that cannot stand where it does. -/
def unexpected (t : Token) (wanted : Wanted) : Diagnostic :=
  if t.kind = .error then
    let found := if t.text.isEmpty then String.ofList (t.bytes.flatMap spellByte) else t.text
    { severity := .error, code := Code.lexical, span := t.span, message := "malformed input"
      details := { found := some found } }
  else
    let found := if t.text.isEmpty ∨ t.kind = .newline then none else some t.text
    { severity := .error, code := Code.unexpected, span := t.span
      message := s!"unexpected {t.kind.describe}"
      details := { found, expected := some wanted.describe } }

def act : Action → ParseM Unit
  | .intern word => discard (intern word.text word.span)
  | .declareLabel name colon => declareLabel name colon
  | .declareExternal name => declareExternal name
  | .refer name d => refer name d
  | .openBlock brace => openBlock brace
  | .closeBlock brace => closeBlock brace
  | .reject t wanted => report (unexpected t wanted)

/-- Links a waiting reference, or reports that its label is declared nowhere. -/
def resolve (r : Reference) : ParseM Unit := do
  match (← get).labels[r.name]? with
  | some target => link r.scope target r.name r.direction r.span
  | none =>
    let name := (← get).symbols.spell r.name
    report
      { severity := (← get).settings.unresolvedSeverity, code := Code.unresolved, span := r.span
        message := s!"undefined label `{name}`"
        details := { found := some name } }

/-- Resolves the waiting references in the order in which they were read. -/
def resolvePending : ParseM Unit := do
  let pending := (← get).pending
  modify fun p => { p with pending := #[] }
  pending.forM resolve

end Parse

end LabelGraph
