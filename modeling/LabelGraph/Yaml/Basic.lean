/-!
The nodes of a YAML document.
-/

namespace LabelGraph

namespace Yaml

/-- How a scalar is written. -/
inductive Style where
  | plain
  | quoted
  /-- A block whose line ends are kept. -/
  | literal
  /-- A block whose lines are joined. -/
  | folded
deriving DecidableEq, Repr, Inhabited

/-- A tag is a URI. Escapes in it can spell any bytes. -/
abbrev Tag := List UInt8

end Yaml

/-- A node. What a plain scalar means depends on what is expected in its place, and
its tag can have a say in that. -/
inductive Yaml where
  | scalar (tag : Option Yaml.Tag) (style : Yaml.Style) (text : String)
  | sequence (items : List Yaml)
  | mapping (members : List (Yaml × Yaml))
  /-- Stands for the node that was given a number. -/
  | reference (number : Nat)
deriving Repr, Inhabited

namespace Yaml

/-- The node that stands where nothing is written. -/
def empty : Yaml := scalar none .plain ""

def text? : Yaml → Option String
  | scalar _ _ text => some text
  | _ => none

end Yaml

end LabelGraph
