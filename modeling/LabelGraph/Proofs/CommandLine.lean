import LabelGraph.CommandLine
import LabelGraph.Proofs.Graph.Dump
import LabelGraph.Proofs.Parse.Stage
import LabelGraph.Proofs.Store.Keywords

/-!
What the command line answers about a file. It is what the parse of the file has come to: the
exit code tells whether a diagnostic is an error, and the lines are those of the diagnostics,
of the graph and of the counts.
-/

namespace LabelGraph

namespace Parse

theorem unlines_eq (lines : List String) : unlines lines = textOfLines lines := by
  have hfold (text : String) : lines.foldl (fun text line => text ++ line ++ "\n") text =
      text ++ textOfLines lines := by
    induction lines generalizing text with
    | nil => exact String.append_empty.symm
    | cons line lines ih =>
      rw [List.foldl_cons, ih, textOfLines_cons]
      simp only [String.append_assoc]
  rw [unlines, hfold, String.empty_append]

end Parse

/-- A diagnostic is shown with the name of the file in front of its text. -/
theorem Diagnostic.lines_eq (file : String) (d : Diagnostic) :
    textOfLines (d.lines file) = s!"{file}:{d.text}\n" := by
  have hstring (s : String) : toString s = s := rfl
  have hnote (s : String) : "\n" ++ ("  note: " ++ s) = "\n  note: " ++ s := by
    rw [← String.append_assoc]
    rfl
  obtain ⟨severity, code, message, span, found, expected, info⟩ := d
  cases expected <;> cases info <;>
    simp only [lines, text, headline, textOfLines_cons, textOfLines_nil, hstring, hnote,
      String.append_assoc, String.append_empty]

namespace Parse

variable {p : Parse}

/-- The lines of the diagnostics are their texts behind the name of the file. -/
theorem diagnosticLines_eq (file : String) (diagnostics : List Diagnostic) :
    textOfLines (diagnostics.flatMap (·.lines file)) =
      textOfLines (diagnostics.map fun d => s!"{file}:{d.text}") := by
  induction diagnostics with
  | nil => rfl
  | cons d diagnostics ih =>
    rw [List.flatMap_cons, textOfLines_append, d.lines_eq, ih, List.map_cons, textOfLines_cons]
    rfl

theorem hasErrors_eq_false_iff : p.hasErrors = false ↔ p.errorCount = 0 := by
  rw [hasErrors, errorCount, Array.any_eq_false', Array.countP_eq_zero]

theorem isSuccess_iff (source : List UInt8) (settings : Settings) :
    (parse source settings).isSuccess ↔ (parse source settings).errorCount = 0 := by
  obtain ⟨n, hrun⟩ := run_eq_steps (.opened source settings none)
  have hverdict := ((opened_accounted source settings none).steps n).verdict
  rw [← hrun] at hverdict
  exact (hverdict.success (run_isTerminal _)).trans hasErrors_eq_false_iff

theorem dump_ok (source : List UInt8) (settings : Settings) :
    ∃ graph, (parse source settings).graph.dump (parse source settings).symbols = .ok graph := by
  obtain ⟨n, hrun⟩ := run_eq_steps (.opened source settings none)
  obtain ⟨m, hformed⟩ : ∃ m, (Parse.step^[n] (opened source settings none)).Formed m :=
    steps_formed (fun t ht => absurd ht (Option.not_mem_none t)) n
  rw [← hrun] at hformed
  exact ⟨_, hformed.dense.shape.dump_eq _⟩

end Parse

namespace CommandLine

variable {g g' : Given} {first : String}

theorem readAfter_cons (hdashes : first ≠ "--") (hnext : word g first = .next g')
    (words : List String) : readAfter g (first :: words) = readAfter g' words := by
  rw [readAfter, hnext]
  exact hdashes

def Output.switch : Output → String
  | .text => "--format=text"
  | .json => "--format=json"

/-- Words that ask for what the options say. -/
def Options.words (o : Options) : List String :=
  o.config.toList.map ("--config=" ++ ·) ++ o.output.switch ::
    ((if o.dump then ["--dump"] else []) ++
      ((if o.verbose then ["--verbose"] else []) ++ ["--", o.file]))

theorem word_config {path : String} (hpath : path ≠ "") :
    word {} ("--config=" ++ path) = .next { config := some path } := by
  have hchars : ("--config=" ++ path).toList = '-' :: '-' :: ("config=".toList ++ path.toList) :=
    String.toList_append
  rw [word, hchars]
  show Outcome.ofGiven? (Given.addValue {} .config (String.ofList path.toList)) = _
  rw [String.ofList_toList, Given.addValue, if_neg]
  · rfl
  · simpa using hpath

/-- Whatever is asked for, there are words for it. -/
theorem read?_words {o : Options} (hfile : o.file ≠ "") (hconfig : o.config ≠ some "") :
    read? o.words = some (.parse o) := by
  obtain ⟨file, config, output, dump, verbose⟩ := o
  have hlast (g : Given) (hnone : g.file = none) :
      readAfter g ["--", file] = Given.request? { g with file := some file } := by
    have hadd : g.addFile file = some { g with file := some file } := by
      rw [Given.addFile, if_neg]
      simpa [hnone] using hfile
    rw [readAfter, readFiles, hadd]
    rfl
  have hconfigured (words : List String) :
      readAfter {} (config.toList.map ("--config=" ++ ·) ++ words) =
        readAfter { config } words := by
    cases config with
    | none => rfl
    | some path =>
      have hpath : path ≠ "" := fun heq => hconfig (congrArg some heq)
      refine readAfter_cons (fun heq => ?_) (word_config hpath) words
      have hlength := congrArg String.length heq
      rw [String.length_append] at hlength
      exact absurd hlength (by
        show 9 + _ ≠ 2
        omega)
  have hformat (words : List String) :
      readAfter { config } (output.switch :: words) =
        readAfter { config, output := some output } words := by
    cases output <;> exact readAfter_cons (by decide) rfl words
  rw [read?, Options.words, hconfigured, hformat]
  cases dump <;> cases verbose
  · exact hlast _ rfl
  · exact (readAfter_cons (by decide) rfl _).trans (hlast _ rfl)
  · exact (readAfter_cons (by decide) rfl _).trans (hlast _ rfl)
  · exact (readAfter_cons (by decide) rfl _).trans
      ((readAfter_cons (by decide) rfl _).trans (hlast _ rfl))

/-- A report in words: a line for each diagnostic, the graph if it is asked for, and a line that
counts. -/
theorem textReport_eq {p : Parse} {graph : String} (hgraph : p.graph.dump p.symbols = .ok graph)
    (hsuccess : p.isSuccess ↔ p.errorCount = 0) (file : String) (withGraph : Bool) :
    let status := if p.errorCount = 0 then "ok" else "failed"
    p.textReport file withGraph =
      textOfLines (p.diagnostics.toList.map fun d => s!"{file}:{d.text}") ++
        (if withGraph then graph else "") ++
        (s!"{file}: {status} ({p.graph.stats.nodes} nodes, " ++
          s!"{p.graph.stats.liveEdges} edges, {p.errorCount} errors, " ++
          s!"{p.diagnostics.size} diagnostics)\n") := by
  intro status
  have hdump : p.dump = graph := by
    rw [Parse.dump, hgraph]
    rfl
  have hstatus : (if p.isSuccess then "ok" else "failed") = status := if_congr hsuccess rfl rfl
  have hsummary : textOfLines [p.summary file] =
      s!"{file}: {status} ({p.graph.stats.nodes} nodes, " ++
        s!"{p.graph.stats.liveEdges} edges, {p.errorCount} errors, " ++
        s!"{p.diagnostics.size} diagnostics)\n" := by
    rw [textOfLines_singleton, Parse.summary, hstatus]
    simp only [Graph.stats, toString, String.append_assoc]
    rfl
  rw [Parse.textReport, Parse.unlines_eq, Parse.unlines_eq, Parse.diagnosticLines_eq, hdump,
    hsummary]

/-- The program tells what the parse of the file has come to, and its exit code tells whether
there is an error. -/
theorem run_reports (files : Files) (words : List String) (options : Options)
    (settings : Settings) (bytes : List UInt8) (hwords : read? words = some (.parse options))
    (hsettings : settingsFor files options = .ok settings)
    (hfile : files options.file = some bytes) :
    let p := parse (Files.dropMark bytes) settings
    let reply := run files words
    let status := if p.errorCount = 0 then "ok" else "failed"
    reply.error = none ∧ (reply.exit = 0 ∨ reply.exit = 1) ∧
      (reply.exit = 0 ↔ ∀ d ∈ p.diagnostics, d.severity ≠ .error) ∧
      (options.output = .text → ∃ graph, p.graph.dump p.symbols = .ok graph ∧
        reply.output =
          textOfLines (p.diagnostics.toList.map fun d => s!"{options.file}:{d.text}") ++
          (if options.dump then graph else "") ++
          (s!"{options.file}: {status} ({p.graph.stats.nodes} nodes, " ++
            s!"{p.graph.stats.liveEdges} edges, {p.errorCount} errors, " ++
            s!"{p.diagnostics.size} diagnostics)\n")) := by
  intro p reply status
  have hreply : reply = .ofParse options p := by
    show run files words = _
    rw [run, hwords]
    simp only [answer, hsettings, parseFile, hfile]
    rfl
  have hsuccess : p.isSuccess ↔ p.errorCount = 0 := Parse.isSuccess_iff _ settings
  have herrors : p.errorCount = 0 ↔ ∀ d ∈ p.diagnostics, d.severity ≠ .error := by
    rw [Parse.errorCount, Array.countP_eq_zero]
    simp only [Diagnostic.isError, decide_eq_true_eq, ne_eq]
  obtain ⟨graph, hgraph⟩ := Parse.dump_ok (Files.dropMark bytes) settings
  rw [hreply]
  refine ⟨rfl, ?_, ?_, fun htext => ⟨graph, hgraph, ?_⟩⟩
  · show (if p.isSuccess then 0 else 1) = 0 ∨ (if p.isSuccess then 0 else 1) = 1
    split
    · exact .inl rfl
    · exact .inr rfl
  · rw [← herrors, ← hsuccess]
    show (if p.isSuccess then 0 else 1) = 0 ↔ _
    split
    · exact iff_of_true rfl ‹_›
    · exact iff_of_false Nat.one_ne_zero ‹_›
  · rw [Reply.ofParse, htext]
    exact textReport_eq hgraph hsuccess options.file options.dump

/-- A file with an error in it. -/
theorem run_reports_failed :
    let files : Files := fun path => if path = "a.s" then some ":".toUTF8.toList else none
    let options : Options :=
      { file := "a.s", config := none, output := .text, dump := true, verbose := false }
    (run files options.words).error = none ∧ (run files options.words).exit = 1 := by
  intro files options
  have hwords : read? options.words = some (.parse options) := read?_words (by decide) (by decide)
  obtain ⟨herror, hexit, hzero, -⟩ :=
    run_reports files options.words options {} ":".toUTF8.toList hwords rfl rfl
  let colon : Token := ⟨.colon, ":", ⟨⟨1, 1, 0⟩, ⟨1, 2, 1⟩⟩, []⟩
  have htokens : tokenize (Files.dropMark ":".toUTF8.toList) =
      [colon, ⟨.eof, "", .point ⟨1, 2, 1⟩, []⟩] := by
    decide +kernel
  -- The reserved words are not looked at, so the table is left as it is.
  obtain ⟨symbols, hseed⟩ := SymbolTable.seeded_default
  have hstart := Parse.ofSource_of_seeded hseed (Files.dropMark ":".toUTF8.toList)
  rw [Parse.ofTable, htokens] at hstart
  have hreports : (parse (Files.dropMark ":".toUTF8.toList) {}).diagnostics =
      #[Parse.unexpected colon .item] := by
    rw [parse, hstart, ← Parse.run_of_steps (k := 2) rfl]
    rfl
  refine ⟨herror, hexit.resolve_left fun hexit => ?_⟩
  exact hzero.1 hexit _ (hreports ▸ Array.mem_singleton.2 rfl) rfl

end CommandLine

end LabelGraph
