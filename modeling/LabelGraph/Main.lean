import LabelGraph.CommandLine

/-!
The program. It reads the files that its words name, and prints the answer.
-/

namespace LabelGraph

/-- The contents of a file, if it can be read. -/
def contents? (path : String) : IO (Option (List UInt8)) := do
  match ← (IO.FS.readBinFile path).toBaseIO with
  | .ok bytes => return some bytes.toList
  | .error _ => return none

end LabelGraph

open LabelGraph in
/-- Reads the files that the words name, answers, and exits with the code of the reply. -/
def main (words : List String) : IO UInt32 := do
  let paths :=
    match CommandLine.read? words with
    | some (.parse options) => options.file :: options.config.toList
    | _ => []
  let contents ← paths.mapM fun path => return (path, ← contents? path)
  let reply := CommandLine.run (fun path => (contents.lookup path).join) words
  IO.print reply.output
  if let some error := reply.error then IO.eprintln error
  if reply.exit = 2 then IO.eprintln "For more information, try '--help'."
  return reply.exit.toUInt32
