import LabelGraph.Diagnostic.Basic
import LabelGraph.Store.Symbols
import LabelGraph.Text.WhiteSpace

/-!
The settings of a parse. All of them have defaults.
-/

namespace LabelGraph

structure Settings where
  /-- Words reserved after the built-in ones. -/
  keywords : List String := []
  /-- The number of diagnostics at which a parse is given up. Without it there is
  no limit. -/
  maxDiagnostics : Option UInt32 := some 100
  /-- How deep blocks may nest. -/
  maxBlockDepth : UInt32 := 64
  /-- The severity of a reference to a label that is declared nowhere. -/
  unresolvedSeverity : Severity := .error
deriving DecidableEq, Repr, Inhabited

namespace Settings

def reserved (s : Settings) : Keywords := Keywords.standard.insertAll s.keywords

/-- What is allowed but hardly meant. -/
def warnings (s : Settings) : List String :=
  let limit :=
    if s.maxDiagnostics = some 0 then ["max_diagnostics = 0 aborts on the first diagnostic"]
    else []
  let depth :=
    if s.maxBlockDepth = 0 then ["max_block_depth = 0 rejects every `\x7b` block"] else []
  let blank := s.keywords.filter fun word => word.toList.all isWhiteSpace
  limit ++ depth ++ blank.map fun _ => "empty keyword in `keywords`"

end Settings

end LabelGraph
