import LabelGraph.Text.Atom

/-!
Files as they are seen by everything but the outermost layer: a function from paths to
contents.
-/

namespace LabelGraph

/-- The contents of the files that can be read. -/
abbrev Files := String → Option (List UInt8)

namespace Files

def write (files : Files) (path : String) (bytes : List UInt8) : Files :=
  fun p => if p = path then some bytes else files p

def text? (files : Files) (path : String) : Option (List Char) :=
  (files path).bind utf8Text?

/-- What follows the last dot in the last part of a path, unless that dot is the first
character of the part. -/
def extension? (path : String) : Option String :=
  let file := path.toList.reverse.takeWhile (· != '/')
  let extension := file.takeWhile (· != '.')
  match file.drop extension.length with
  | '.' :: _ :: _ => some (String.ofList extension.reverse)
  | _ => none

/-- Leaves out the mark that some editors put in front of a UTF-8 text. -/
def dropMark : List UInt8 → List UInt8
  | 0xEF :: 0xBB :: 0xBF :: rest => rest
  | bytes => bytes

end Files

end LabelGraph
