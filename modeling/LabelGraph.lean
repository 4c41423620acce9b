import LabelGraph.Graph.Check
import LabelGraph.Main
import LabelGraph.Proofs.CommandLine
import LabelGraph.Proofs.Diagnostic.Json
import LabelGraph.Proofs.Graph.Chain
import LabelGraph.Proofs.Graph.Consistency
import LabelGraph.Proofs.Graph.Dump
import LabelGraph.Proofs.Graph.Generation
import LabelGraph.Proofs.Graph.Growth
import LabelGraph.Proofs.Graph.Integrity
import LabelGraph.Proofs.Graph.Ledger
import LabelGraph.Proofs.Graph.Refinement
import LabelGraph.Proofs.Graph.Refusal
import LabelGraph.Proofs.Graph.Rename
import LabelGraph.Proofs.Graph.Reuse
import LabelGraph.Proofs.Graph.Shape
import LabelGraph.Proofs.Parse.Acceptance
import LabelGraph.Proofs.Parse.Assertion
import LabelGraph.Proofs.Parse.Braces
import LabelGraph.Proofs.Parse.Change
import LabelGraph.Proofs.Parse.Chronicle
import LabelGraph.Proofs.Parse.Comparison
import LabelGraph.Proofs.Parse.Corrupt
import LabelGraph.Proofs.Parse.Course
import LabelGraph.Proofs.Parse.Effect
import LabelGraph.Proofs.Parse.Forest
import LabelGraph.Proofs.Parse.Formed
import LabelGraph.Proofs.Parse.Grammar
import LabelGraph.Proofs.Parse.Leniency
import LabelGraph.Proofs.Parse.Limit
import LabelGraph.Proofs.Parse.Location
import LabelGraph.Proofs.Parse.Lockstep
import LabelGraph.Proofs.Parse.Order
import LabelGraph.Proofs.Parse.Outcome
import LabelGraph.Proofs.Parse.Pace
import LabelGraph.Proofs.Parse.Placement
import LabelGraph.Proofs.Parse.Play
import LabelGraph.Proofs.Parse.Recovery
import LabelGraph.Proofs.Parse.Renaming
import LabelGraph.Proofs.Parse.Repair
import LabelGraph.Proofs.Parse.Reserved
import LabelGraph.Proofs.Parse.Resolution
import LabelGraph.Proofs.Parse.Routine
import LabelGraph.Proofs.Parse.Safety
import LabelGraph.Proofs.Parse.Scope
import LabelGraph.Proofs.Parse.Script
import LabelGraph.Proofs.Parse.Segment
import LabelGraph.Proofs.Parse.Sequence
import LabelGraph.Proofs.Parse.Stage
import LabelGraph.Proofs.Parse.Streaming
import LabelGraph.Proofs.Parse.Verdict
import LabelGraph.Proofs.Settings.File
import LabelGraph.Proofs.Settings.Toml
import LabelGraph.Proofs.Store.Interning
import LabelGraph.Proofs.Store.Keywords
import LabelGraph.Proofs.Store.Symbols
import LabelGraph.Proofs.Text.Chunk
import LabelGraph.Proofs.Text.Lines
import LabelGraph.Proofs.Text.Place
import LabelGraph.Proofs.Text.Slice
import LabelGraph.Proofs.Text.Stray
import LabelGraph.Proofs.Text.Utf8
import LabelGraph.Proofs.Token.Closing
import LabelGraph.Proofs.Token.Comment
import LabelGraph.Proofs.Token.Corrupt
import LabelGraph.Proofs.Token.Cover
import LabelGraph.Proofs.Token.Fence
import LabelGraph.Proofs.Token.Followed
import LabelGraph.Proofs.Token.Joining
import LabelGraph.Proofs.Token.Lexer
import LabelGraph.Proofs.Token.Lines
import LabelGraph.Proofs.Token.Literal
import LabelGraph.Proofs.Token.Place
import LabelGraph.Proofs.Token.Printing
import LabelGraph.Proofs.Token.Quote
import LabelGraph.Proofs.Token.Reader
import LabelGraph.Proofs.Token.Reading
import LabelGraph.Proofs.Token.Repair
import LabelGraph.Proofs.Token.Tiling
import LabelGraph.Proofs.Token.Transparency
import LabelGraph.Proofs.Toml.Number
import LabelGraph.Proofs.Toml.Quoted
