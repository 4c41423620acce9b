import LabelGraph.Parse.Run
import LabelGraph.Text.Files

/-!
Parsing a file.
-/

namespace LabelGraph

/-- A source file that cannot be read. -/
structure UnreadableSource where
  path : String
deriving DecidableEq, Repr

def UnreadableSource.message (e : UnreadableSource) : String :=
  s!"Failed to read file: {e.path}"

/-- Parses a file, without the mark that may stand in front of its text. -/
def parseFile (files : Files) (path : String) (settings : Settings) :
    Except UnreadableSource Parse :=
  match files path with
  | some bytes => .ok (parse (Files.dropMark bytes) settings)
  | none => .error { path }

end LabelGraph
