import LabelGraph.Yaml.Token
import Std.Data.HashMap

/-!
Reading the nodes of a YAML document from its tokens. A name may be given to more than
one node, and a reference means a number that the name has where the reference stands.

Every function that calls itself takes a bound on its calls, which the number of the
tokens gives.
-/

namespace LabelGraph.Yaml

/-! Names. -/

/-- The nodes that have names. -/
structure Anchors where
  numbers : Std.HashMap String Nat := ∅
  /-- The node of each number, with the count of definitions before its own. -/
  nodes : Array (Nat × Yaml) := #[]
  /-- How many names have been given. -/
  definitions : Nat := 0

/-- A name that was given to a node whose end is not reached yet. -/
structure Definition where
  number : Nat
  order : Nat

namespace Anchors

/-- Gives a name to the node that starts here. The number of a name is the count of the
different names before it. -/
def define (anchors : Anchors) (name : String) : Definition × Anchors :=
  let number := anchors.numbers.size
  let slot := (anchors.definitions, empty)
  let nodes :=
    if number < anchors.nodes.size then anchors.nodes.setIfInBounds number slot
    else anchors.nodes.push slot
  ({ number, order := anchors.definitions },
    { numbers := anchors.numbers.insert name number
      nodes
      definitions := anchors.definitions + 1 })

/-- Sets the node of a definition, unless its number was given away since. -/
def finish (anchors : Anchors) (d : Definition) (node : Yaml) : Anchors :=
  match anchors.nodes[d.number]? with
  | some (order, _) =>
    if order = d.order then
      { anchors with nodes := anchors.nodes.setIfInBounds d.number (order, node) }
    else anchors
  | none => anchors

end Anchors

structure Document where
  root : Yaml
  /-- The nodes that references stand for, by their numbers. -/
  targets : Array Yaml

/-- The node that a node stands for, which is never a reference itself. -/
def Document.resolve (d : Document) : Yaml → Yaml
  | reference number => d.targets[number]?.getD empty
  | node => node

/-! Reading. -/

/-- What the handles of tags stand for. -/
abbrev Stems := Std.HashMap String (List UInt8)

structure Reading where
  tokens : List Token
  stems : Stems := ∅
  anchors : Anchors := {}

abbrev Reader := StateT Reading Option

namespace Reader

def peek : Reader (Option Token) := return (← get).tokens.head?

def skip : Reader Unit := modify fun s => { s with tokens := s.tokens.tail }

def nextIn (tokens : List Token) : Reader Bool := return (← peek).any tokens.contains

/-- The tag that is meant by a handle and a suffix. -/
def tagOf (handle : Option String) (suffix : List UInt8) : Reader Tag := do
  match handle with
  | none => return suffix
  | some handle =>
    match (← get).stems[handle]? with
    | some stem => return stem ++ suffix
    | none => failure

/-- The name and the tag in front of a node, in any order. -/
def properties : Reader (Option String × Option Tag) := do
  match ← peek with
  | some (.anchor name) =>
    skip
    match ← peek with
    | some (.tag handle suffix) =>
      skip
      return (some name, some (← tagOf handle suffix))
    | _ => return (some name, none)
  | some (.tag handle suffix) =>
    skip
    let tag ← tagOf handle suffix
    match ← peek with
    | some (.anchor name) =>
      skip
      return (some name, some tag)
    | _ => return (none, some tag)
  | _ => return (none, none)

def define (name : String) : Reader Definition :=
  modifyGet fun s =>
    let (definition, anchors) := s.anchors.define name
    (definition, { s with anchors })

def finish (definition : Definition) (node : Yaml) : Reader Unit :=
  modify fun s => { s with anchors := s.anchors.finish definition node }

def referenceTo (name : String) : Reader Yaml := do
  match (← get).anchors.numbers[name]? with
  | some number => return reference number
  | none => failure

end Reader

/-- Where a node stands. -/
inductive Context where
  /-- Between brackets or braces. -/
  | flow
  | block
  /-- In a block mapping, where the entries of a sequence may stand in the column of
  the mapping, and so no token tells where the sequence starts. -/
  | member
deriving DecidableEq, Repr

open Reader

mutual

/-- A node that is not empty, or has a name or a tag. -/
def node (context : Context) : (steps : Nat) → Reader Yaml
  | 0 => failure
  | steps + 1 => do
    match ← peek with
    | some (.reference name) =>
      skip
      referenceTo name
    | _ =>
      let (name, tag) ← properties
      match name with
      | some name =>
        let definition ← define name
        let node ← content context tag true steps
        finish definition node
        return node
      | none => content context tag tag.isSome steps
termination_by structural steps => steps

/-- What stands behind the name and the tag of a node. It may be empty if there are any. -/
def content (context : Context) (tag : Option Tag) (mayBeEmpty : Bool) :
    (steps : Nat) → Reader Yaml
  | 0 => failure
  | steps + 1 => do
    let missing : Reader Yaml := if mayBeEmpty then return scalar tag .plain "" else failure
    match ← peek with
    | some (.scalar style text) =>
      skip
      return scalar tag style text
    | some .flowSequence =>
      skip
      return sequence (← flowItems [] steps)
    | some .flowMapping =>
      skip
      return mapping (← flowMembers [] steps)
    | some .blockSequence =>
      if context = .flow then missing
      else
        skip
        return sequence (← blockItems [] steps)
    | some .blockMapping =>
      if context = .flow then missing
      else
        skip
        return mapping (← blockMembers [] steps)
    | some .entry =>
      if context = .member then return sequence (← memberItems [] steps) else missing
    | _ => missing
termination_by structural steps => steps

/-- A node that is empty if one of some tokens comes next. -/
def nodeOrEmpty (context : Context) (ends : List Token) : (steps : Nat) → Reader Yaml
  | 0 => failure
  | steps + 1 => do
    if ← nextIn ends then return empty else node context steps
termination_by structural steps => steps

/-- The value behind a key, which is empty without a colon. -/
def valueOrEmpty (context : Context) (ends : List Token) : (steps : Nat) → Reader Yaml
  | 0 => failure
  | steps + 1 => do
    if ← nextIn [.value] then
      skip
      nodeOrEmpty context ends steps
    else return empty
termination_by structural steps => steps

/-- The items of a sequence in brackets, after those already read, which are in reverse.
An item that is marked as a key is a mapping of one member. -/
def flowItems (read : List Yaml) : (steps : Nat) → Reader (List Yaml)
  | 0 => failure
  | steps + 1 => do
    match ← peek with
    | some .flowSequenceEnd =>
      skip
      return read.reverse
    | some .key =>
      skip
      let key ← markedKey steps
      let value ← valueOrEmpty .flow [.comma, .flowSequenceEnd] steps
      flowItemsEnd (mapping [(key, value)] :: read) steps
    | _ =>
      let item ← node .flow steps
      flowItemsEnd (item :: read) steps
termination_by structural steps => steps

/-- The key behind the mark of a key in brackets. If it is empty, the token behind the
mark is lost. -/
def markedKey : (steps : Nat) → Reader Yaml
  | 0 => failure
  | steps + 1 => do
    if ← nextIn [.value, .comma, .flowSequenceEnd] then
      skip
      return empty
    else node .flow steps
termination_by structural steps => steps

/-- What stands behind an item. -/
def flowItemsEnd (read : List Yaml) : (steps : Nat) → Reader (List Yaml)
  | 0 => failure
  | steps + 1 => do
    match ← peek with
    | some .comma =>
      skip
      flowItems read steps
    | some .flowSequenceEnd =>
      skip
      return read.reverse
    | _ => failure
termination_by structural steps => steps

/-- The members of a mapping in braces, after those already read, which are in reverse.
Only a key that is known to be one has a value. -/
def flowMembers (read : List (Yaml × Yaml)) : (steps : Nat) → Reader (List (Yaml × Yaml))
  | 0 => failure
  | steps + 1 => do
    match ← peek with
    | some .flowMappingEnd =>
      skip
      return read.reverse
    | some .key =>
      skip
      let key ← nodeOrEmpty .flow [.value, .comma, .flowMappingEnd] steps
      let value ← valueOrEmpty .flow [.comma, .flowMappingEnd] steps
      flowMembersEnd ((key, value) :: read) steps
    | _ =>
      let key ← node .flow steps
      flowMembersEnd ((key, empty) :: read) steps
termination_by structural steps => steps

/-- What stands behind a member. -/
def flowMembersEnd (read : List (Yaml × Yaml)) : (steps : Nat) → Reader (List (Yaml × Yaml))
  | 0 => failure
  | steps + 1 => do
    match ← peek with
    | some .comma =>
      skip
      flowMembers read steps
    | some .flowMappingEnd =>
      skip
      return read.reverse
    | _ => failure
termination_by structural steps => steps

/-- The items of a block sequence, after those already read, which are in reverse. -/
def blockItems (read : List Yaml) : (steps : Nat) → Reader (List Yaml)
  | 0 => failure
  | steps + 1 => do
    match ← peek with
    | some .entry =>
      skip
      let item ← nodeOrEmpty .block [.entry, .blockEnd] steps
      blockItems (item :: read) steps
    | some .blockEnd =>
      skip
      return read.reverse
    | _ => failure
termination_by structural steps => steps

/-- The items of a sequence in the column of a mapping, after those already read, which
are in reverse. It ends where no entry follows. -/
def memberItems (read : List Yaml) : (steps : Nat) → Reader (List Yaml)
  | 0 => failure
  | steps + 1 => do
    if ← nextIn [.entry] then
      skip
      let item ← nodeOrEmpty .block [.entry, .key, .value, .blockEnd] steps
      memberItems (item :: read) steps
    else return read.reverse
termination_by structural steps => steps

/-- The members of a block mapping, after those already read, which are in reverse. -/
def blockMembers (read : List (Yaml × Yaml)) : (steps : Nat) → Reader (List (Yaml × Yaml))
  | 0 => failure
  | steps + 1 => do
    match ← peek with
    | some .key =>
      skip
      let key ← nodeOrEmpty .member [.key, .value, .blockEnd] steps
      let value ← valueOrEmpty .member [.key, .value, .blockEnd] steps
      blockMembers ((key, value) :: read) steps
    | some .blockEnd =>
      skip
      return read.reverse
    | _ => failure
termination_by structural steps => steps

end

/-! Documents. -/

def Token.isDirective : Token → Bool
  | .version _ _ => true
  | .handle _ _ => true
  | _ => false

/-- Whether a token ends the place where a root may stand. -/
def Token.isOutside (token : Token) : Bool :=
  token.isDirective || token == .documentStart || token == .documentEnd

/-- What the handles of tags stand for behind directives. The version may be given once
and must be one that is known, and each handle may be given once. -/
def stems? (directives : List Token) : Option Stems := do
  let versions := directives.filterMap fun
    | .version major minor => some (major, minor)
    | _ => none
  if 1 < versions.length ∨ versions.any (fun v => v != (1, 1) && v != (1, 2)) then none
  let given ← directives.foldlM (fun (stems : Stems) directive =>
    match directive with
    | .handle name stem => if stems.contains name then none else some (stems.insert name stem)
    | _ => some stems) ∅
  return (given.insertIfNew "!" [0x21]).insertIfNew "!!" "tag:yaml.org,2002:".toUTF8.toList

/-- The only document of a text. There is none in a text of white space and comments,
and more than one is refused. Directives need a mark in front of the document. -/
def document (steps : Nat) : Reader (Option Yaml) := do
  let directives := (← get).tokens.takeWhile Token.isDirective
  modify fun s => { s with tokens := s.tokens.drop directives.length }
  if directives.isEmpty ∧ (← peek).isNone then return none
  else
    match stems? directives with
    | none => failure
    | some stems =>
      modify fun s => { s with stems }
      let marked ← nextIn [.documentStart]
      if marked then skip
      else if !directives.isEmpty then failure
      let root ←
        if marked && (← peek).all Token.isOutside then pure empty else node .block steps
      if (← get).tokens.all (· == .documentEnd) then return some root else failure

/-- Reads a text that holds at most one document. -/
def parse? (text : List Char) : Option (Option Document) := do
  let tokens ← Token.ofText? text
  let (root, s) ← (document (8 * tokens.length + 16)).run { tokens }
  return root.map fun root => { root, targets := s.anchors.nodes.map Prod.snd }

end LabelGraph.Yaml
