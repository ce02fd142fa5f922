import CodecDocs.CommandLine.Arguments
import CodecDocs.CommandLine.Command
import CodecDocs.CommandLine.Run
import CodecDocs.Config.Basic
import CodecDocs.Config.Reader
import CodecDocs.DocComment
import CodecDocs.Document
import CodecDocs.Evaluation.Expansion
import CodecDocs.Evaluation.Expression
import CodecDocs.Evaluation.Referent
import CodecDocs.Evaluation.Session
import CodecDocs.Fault
import CodecDocs.Files.Access
import CodecDocs.Files.Pattern
import CodecDocs.Files.Search
import CodecDocs.Files.Tree
import CodecDocs.Filter.Basic
import CodecDocs.Filter.Parser
import CodecDocs.Filter.Value
import CodecDocs.Json.Basic
import CodecDocs.Json.Printer
import CodecDocs.Json.Reader
import CodecDocs.Main
import CodecDocs.ModulePath
import CodecDocs.Number.Binary64
import CodecDocs.Number.Layout
import CodecDocs.Number.Power
import CodecDocs.Number.Reading
import CodecDocs.Number.Shortest
import CodecDocs.Operation
import CodecDocs.Project.Basic
import CodecDocs.Project.Loader
import CodecDocs.Project.Resolve
import CodecDocs.Proofs.Config.Order
import CodecDocs.Proofs.Config.Reading
import CodecDocs.Proofs.DocComment
import CodecDocs.Proofs.Document.Closure
import CodecDocs.Proofs.Document.Drain
import CodecDocs.Proofs.Document.References
import CodecDocs.Proofs.Document.Routes
import CodecDocs.Proofs.Evaluation.Agreement
import CodecDocs.Proofs.Evaluation.Approximation
import CodecDocs.Proofs.Evaluation.Chain
import CodecDocs.Proofs.Evaluation.Depth
import CodecDocs.Proofs.Evaluation.History
import CodecDocs.Proofs.Evaluation.ObjectLiteral
import CodecDocs.Proofs.Evaluation.OtherNames
import CodecDocs.Proofs.Evaluation.Referent
import CodecDocs.Proofs.Evaluation.Requests
import CodecDocs.Proofs.Evaluation.Termination
import CodecDocs.Proofs.Evaluation.WellFormed
import CodecDocs.Proofs.ModulePath
import CodecDocs.Proofs.ModulePath.Joining
import CodecDocs.Proofs.Project.Bound
import CodecDocs.Proofs.Project.Definitions
import CodecDocs.Proofs.Project.Derivation
import CodecDocs.Proofs.Project.ExportSearch
import CodecDocs.Proofs.Project.IndexFiles
import CodecDocs.Proofs.Project.Loading
import CodecDocs.Proofs.Project.Step
import CodecDocs.Proofs.Registry
import CodecDocs.Proofs.Schema.Acceptance
import CodecDocs.Proofs.Schema.CanonicalForm
import CodecDocs.Proofs.Schema.Equality
import CodecDocs.Proofs.Schema.Idempotence
import CodecDocs.Proofs.Schema.Keyed
import CodecDocs.Proofs.Schema.Meaning
import CodecDocs.Proofs.Schema.Nodes
import CodecDocs.Proofs.Schema.NormalForm
import CodecDocs.Proofs.Schema.Notes
import CodecDocs.Proofs.Schema.Passes
import CodecDocs.Proofs.Schema.Properties
import CodecDocs.Proofs.Schema.References
import CodecDocs.Proofs.Schema.Sound
import CodecDocs.Proofs.Script.Brackets
import CodecDocs.Proofs.Script.Documented
import CodecDocs.Proofs.Script.Erasure
import CodecDocs.Proofs.Script.Expressions
import CodecDocs.Proofs.Script.Lookahead
import CodecDocs.Proofs.Script.Moves
import CodecDocs.Proofs.Script.Outcome
import CodecDocs.Proofs.Script.Places
import CodecDocs.Proofs.Script.Precedence
import CodecDocs.Proofs.Script.Productions
import CodecDocs.Proofs.Script.Progress
import CodecDocs.Proofs.Script.RoundTrip
import CodecDocs.Proofs.Script.Skipping
import CodecDocs.Proofs.Script.Spans
import CodecDocs.Proofs.Script.Statements
import CodecDocs.Proofs.Script.TypeArguments
import CodecDocs.Proofs.Script.Types
import CodecDocs.Proofs.Script.Writing
import CodecDocs.Proofs.Table
import CodecDocs.Proofs.Text.Blank
import CodecDocs.Proofs.Token.Gap
import CodecDocs.Proofs.Token.Lexeme
import CodecDocs.Proofs.Token.Lossless
import CodecDocs.Proofs.Token.Place
import CodecDocs.Proofs.Token.Rendering
import CodecDocs.Proofs.Wire
import CodecDocs.Proofs.Wire.Positions
import CodecDocs.Proofs.Worklist
import CodecDocs.Proofs.Worklist.Runs
import CodecDocs.Registry.Basic
import CodecDocs.Registry.Builtin
import CodecDocs.Route
import CodecDocs.Schema.Basic
import CodecDocs.Schema.Canonical
import CodecDocs.Schema.Equality
import CodecDocs.Script.Basic
import CodecDocs.Script.Cursor
import CodecDocs.Script.ExprParser
import CodecDocs.Script.ItemParser
import CodecDocs.Script.Lookahead
import CodecDocs.Script.Skipping
import CodecDocs.Table
import CodecDocs.Text.Alphabetic
import CodecDocs.Text.Blank
import CodecDocs.Text.Hidden
import CodecDocs.Text.Lines
import CodecDocs.Text.Numeric
import CodecDocs.Text.Quoted
import CodecDocs.Text.Ranges
import CodecDocs.Text.WordMark
import CodecDocs.Token.Basic
import CodecDocs.Token.Gap
import CodecDocs.Token.Lexeme
import CodecDocs.Token.Lexer
import CodecDocs.Token.Punct
import CodecDocs.Wire
import CodecDocs.Worklist
