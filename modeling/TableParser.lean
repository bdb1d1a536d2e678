import TableParser.Text.Printable
import TableParser.Text.Quoted
import TableParser.Text.Utf8
import TableParser.Json.Lexeme
import TableParser.Json.Record
import TableParser.Json.Value
import TableParser.Grammar.Asset
import TableParser.Grammar.Asset.Bytes
import TableParser.Grammar.Asset.Compact
import TableParser.Grammar.Asset.Json
import TableParser.Grammar.Automaton
import TableParser.Grammar.Error
import TableParser.Grammar.Grid
import TableParser.Grammar.ParseTable
import TableParser.Grammar.Script
import TableParser.Grammar.Symbol
import TableParser.Grammar.Tables
import TableParser.Token.Basic
import TableParser.Token.Scanner
import TableParser.Token.Stream
import TableParser.Engine.Basic
import TableParser.Engine.Event
import TableParser.Engine.Predictive
import TableParser.Engine.ShiftReduce
import TableParser.Tree.Builder
import TableParser.Tree.Display
import TableParser.Tree.Json
import TableParser.Tree.Node
import TableParser.Literal.Basic
import TableParser.Literal.Binary64
import TableParser.Sample.ChaCha
import TableParser.Sample.Draw
import TableParser.Sample.Source
import TableParser.Program.Basic
import TableParser.Program.Command
import TableParser.Program.Contrast
import TableParser.Program.Convert
import TableParser.Program.FileStore
import TableParser.Program.Inputs
import TableParser.Program.Inspect
import TableParser.Program.Path
import TableParser.Program.Settings
import TableParser.Program.Stress
import TableParser.Main
import TableParser.Proofs.Text.Bytes
import TableParser.Proofs.Json.Lexeme
import TableParser.Proofs.Json.Record
import TableParser.Proofs.Json.Text
import TableParser.Proofs.Json.Value
import TableParser.Proofs.Grammar.Cell
import TableParser.Proofs.Grammar.Compact
import TableParser.Proofs.Grammar.Consistency
import TableParser.Proofs.Grammar.Derivation
import TableParser.Proofs.Grammar.Entries
import TableParser.Proofs.Grammar.Forms
import TableParser.Proofs.Grammar.Loading
import TableParser.Proofs.Grammar.Lookahead
import TableParser.Proofs.Grammar.Lookup
import TableParser.Proofs.Grammar.RoundTrip
import TableParser.Proofs.Token.Coverage
import TableParser.Proofs.Token.Language
import TableParser.Proofs.Token.Passing
import TableParser.Proofs.Token.Source
import TableParser.Proofs.Token.Terminator
import TableParser.Proofs.Engine.CommonBeginning
import TableParser.Proofs.Engine.Completeness
import TableParser.Proofs.Engine.Fault
import TableParser.Proofs.Engine.Hidden
import TableParser.Proofs.Engine.Moves
import TableParser.Proofs.Engine.Passage
import TableParser.Proofs.Engine.Progress
import TableParser.Proofs.Engine.Reading
import TableParser.Proofs.Engine.Recovery
import TableParser.Proofs.Engine.Soundness
import TableParser.Proofs.Engine.Spacing
import TableParser.Proofs.Engine.StackPath
import TableParser.Proofs.Engine.ViablePrefix
import TableParser.Proofs.Tree.Agreement
import TableParser.Proofs.Tree.Collapse
import TableParser.Proofs.Tree.EventLeaves
import TableParser.Proofs.Tree.HiddenLeaves
import TableParser.Proofs.Tree.Layout
import TableParser.Proofs.Tree.Leaves
import TableParser.Proofs.Tree.Lookalike
import TableParser.Proofs.Tree.Moved
import TableParser.Proofs.Tree.Nesting
import TableParser.Proofs.Tree.NodeStack
import TableParser.Proofs.Tree.OpenRules
import TableParser.Proofs.Tree.Order
import TableParser.Proofs.Tree.Places
import TableParser.Proofs.Tree.Predicted
import TableParser.Proofs.Tree.Root
import TableParser.Proofs.Tree.Settled
import TableParser.Proofs.Tree.SourceText
import TableParser.Proofs.Tree.Spacing
import TableParser.Proofs.Tree.Spelling
import TableParser.Proofs.Tree.Splice
import TableParser.Proofs.Tree.StackHeight
import TableParser.Proofs.Tree.View
import TableParser.Proofs.Tree.Walk
import TableParser.Proofs.Tree.Written
import TableParser.Proofs.Script.Agreement
import TableParser.Proofs.Script.Automaton
import TableParser.Proofs.Script.Concatenation
import TableParser.Proofs.Script.Containment
import TableParser.Proofs.Script.Document
import TableParser.Proofs.Script.Extension
import TableParser.Proofs.Script.FirstError
import TableParser.Proofs.Script.LeafLiteral
import TableParser.Proofs.Script.Lexeme
import TableParser.Proofs.Script.Literal
import TableParser.Proofs.Script.Phrase
import TableParser.Proofs.Script.Schema
import TableParser.Proofs.Script.Spans
import TableParser.Proofs.Script.Stacked
import TableParser.Proofs.Script.StateTexts
import TableParser.Proofs.Script.Structure
import TableParser.Proofs.Script.Termination
import TableParser.Proofs.Sample.Piece
import TableParser.Proofs.Sample.Valid
