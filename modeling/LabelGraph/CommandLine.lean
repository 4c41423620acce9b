import LabelGraph.Parse.File
import LabelGraph.Parse.Report
import LabelGraph.Settings.File

/-!
The command line. Words are read from left to right, and the first one that does not
fit, or that asks for help, decides. A switch is given once at most. Short switches may
be run together, and a value may follow its switch with or without an equals sign.
-/

namespace LabelGraph

namespace CommandLine

inductive Output where
  | text
  | json
deriving DecidableEq, Repr

def Output.ofName? (s : String) : Option Output :=
  if s = "text" then some .text else if s = "json" then some .json else none

/-- What is asked for. -/
structure Options where
  file : String
  config : Option String
  output : Output
  dump : Bool
  verbose : Bool
deriving DecidableEq, Repr

inductive Request where
  | parse (options : Options)
  | help
  | version
deriving DecidableEq, Repr

inductive Switch where
  | config
  | format
  | dump
  | verbose
  | help
  | version
deriving DecidableEq, Repr

namespace Switch

def ofLong? (name : String) : Option Switch :=
  match name with
  | "config" => some config
  | "format" => some format
  | "dump" => some dump
  | "verbose" => some verbose
  | "help" => some help
  | "version" => some version
  | _ => none

def ofShort? (c : Char) : Option Switch :=
  match c with
  | 'c' => some config
  | 'f' => some format
  | 'v' => some verbose
  | 'h' => some help
  | 'V' => some version
  | _ => none

def takesValue : Switch → Bool
  | config | format => true
  | _ => false

end Switch

/-- What the words so far have given. -/
structure Given where
  file : Option String := none
  config : Option String := none
  output : Option Output := none
  dump : Bool := false
  verbose : Bool := false
deriving DecidableEq, Repr

namespace Given

def request? (g : Given) : Option Request :=
  g.file.map fun file =>
    .parse
      { file, config := g.config, output := g.output.getD .text, dump := g.dump,
        verbose := g.verbose }

/-- Takes a word that is no switch. There is one file only. -/
def addFile (g : Given) (path : String) : Option Given :=
  if g.file.isSome ∨ path.isEmpty then none else some { g with file := some path }

def addValue (g : Given) (s : Switch) (value : String) : Option Given :=
  match s with
  | .config =>
    if g.config.isSome ∨ value.isEmpty then none else some { g with config := some value }
  | .format =>
    if g.output.isSome then none
    else (Output.ofName? value).map fun output => { g with output := some output }
  | _ => none

def addFlag (g : Given) (s : Switch) : Option Given :=
  match s with
  | .dump => if g.dump then none else some { g with dump := true }
  | .verbose => if g.verbose then none else some { g with verbose := true }
  | _ => none

end Given

inductive Outcome where
  | next (g : Given)
  /-- The next word is the value of a switch. -/
  | wants (g : Given) (s : Switch)
  | request (r : Request)
  | refused
deriving DecidableEq, Repr

def Outcome.ofGiven? : Option Given → Outcome
  | some g => next g
  | none => refused

def flag (g : Given) (s : Switch) : Outcome :=
  match s with
  | .help => .request .help
  | .version => .request .version
  | s => .ofGiven? (g.addFlag s)

/-- A long switch, perhaps with a value behind an equals sign. -/
def longWord (g : Given) (word : List Char) : Outcome :=
  let name := word.takeWhile (· != '=')
  match Switch.ofLong? (String.ofList name), word.drop name.length with
  | none, _ => .refused
  | some s, '=' :: value =>
    if s.takesValue then .ofGiven? (g.addValue s (String.ofList value)) else .refused
  | some s, _ => if s.takesValue then .wants g s else flag g s

/-- Short switches that are run together. The first one with a value takes the rest of
the word. -/
def shortWord (g : Given) : List Char → Outcome
  | [] => .next g
  | c :: rest =>
    match Switch.ofShort? c with
    | none => .refused
    | some s =>
      if s.takesValue then
        match rest with
        | [] => .wants g s
        | '=' :: value => .ofGiven? (g.addValue s (String.ofList value))
        | value => .ofGiven? (g.addValue s (String.ofList value))
      else
        match flag g s with
        | .next g => shortWord g rest
        | outcome => outcome

/-- Whether a word is a switch, and therefore no value. -/
def isSwitch (word : String) : Bool :=
  match word.toList with
  | '-' :: _ :: _ => true
  | _ => false

/-- The words behind two dashes, which are no switches. -/
def readFiles (g : Given) : List String → Option Request
  | [] => g.request?
  | word :: words =>
    match g.addFile word with
    | some g => readFiles g words
    | none => none

def word (g : Given) (word : String) : Outcome :=
  match word.toList with
  | '-' :: '-' :: name => longWord g name
  | '-' :: c :: cs => shortWord g (c :: cs)
  | _ => .ofGiven? (g.addFile word)

def readAfter (g : Given) : List String → Option Request
  | [] => g.request?
  | "--" :: words => readFiles g words
  | first :: words =>
    match word g first with
    | .next g => readAfter g words
    | .request r => some r
    | .refused => none
    | .wants g s =>
      match words with
      | [] => none
      | value :: words =>
        if isSwitch value then none
        else
          match g.addValue s value with
          | some g => readAfter g words
          | none => none

def read? (words : List String) : Option Request := readAfter {} words

def programName : String := "awasm-parse"

def versionText : String := s!"{programName} 0.1.0\n"

def helpText : String :=
  "Parse an awasm source file into a source graph\n\n" ++
  s!"Usage: {programName} [OPTIONS] <FILE>\n\n" ++
  "Arguments:\n" ++
  "  <FILE>  Source file to parse\n\n" ++
  "Options:\n" ++
  "  -c, --config <CONFIG>  Parse configuration (TOML, or YAML by extension)\n" ++
  "  -f, --format <FORMAT>  Output format [default: text] [possible values: text, json]\n" ++
  "      --dump             Print every node with its edges\n" ++
  "  -v, --verbose          Enable verbose logging\n" ++
  "  -h, --help             Print help\n" ++
  "  -V, --version          Print version\n"

/-- What the program answers: its exit code, its output, and why it failed. -/
structure Reply where
  exit : Nat
  output : String := ""
  error : Option String := none
deriving DecidableEq, Repr

/-- The answer about a parse. -/
def Reply.ofParse (options : Options) (p : Parse) : Reply :=
  { exit := if p.isSuccess then 0 else 1
    output :=
      match options.output with
      | .text => p.textReport options.file options.dump
      | .json => p.jsonReport options.file }

def failure (message : String) : Reply := { exit := 1, error := some s!"Error: {message}" }

/-- The settings are loaded before the source is read. -/
def settingsFor (files : Files) (options : Options) : Except Settings.Failure Settings :=
  match options.config with
  | some path => Settings.load files path
  | none => .ok {}

def answer (files : Files) : Request → Reply
  | .help => { exit := 0, output := helpText }
  | .version => { exit := 0, output := versionText }
  | .parse options =>
    match settingsFor files options with
    | .error e => failure e.message
    | .ok settings =>
      match parseFile files options.file settings with
      | .error e => failure e.message
      | .ok p => .ofParse options p

def run (files : Files) (words : List String) : Reply :=
  match read? words with
  | some request => answer files request
  | none => { exit := 2 }

end CommandLine

end LabelGraph
