import AnnotationAudit.Audit
import AnnotationAudit.Check
import AnnotationAudit.CommandLine
import AnnotationAudit.CommandLine.Error
import AnnotationAudit.CommandLine.Switch
import AnnotationAudit.Comments
import AnnotationAudit.Config
import AnnotationAudit.Definition
import AnnotationAudit.Execution
import AnnotationAudit.Files.Access
import AnnotationAudit.Files.Edit
import AnnotationAudit.Files.Node
import AnnotationAudit.Ignore
import AnnotationAudit.Ignore.Glob
import AnnotationAudit.Ignore.Matching
import AnnotationAudit.Ignore.Rule
import AnnotationAudit.Json.Decode
import AnnotationAudit.Json.Record
import AnnotationAudit.Json.Value
import AnnotationAudit.Log
import AnnotationAudit.Main
import AnnotationAudit.Mismatch
import AnnotationAudit.Outcome
import AnnotationAudit.Outcome.Json
import AnnotationAudit.Outline
import AnnotationAudit.Path
import AnnotationAudit.Proofs.Acceptance
import AnnotationAudit.Proofs.Accounting
import AnnotationAudit.Proofs.Automaton
import AnnotationAudit.Proofs.Bystanders
import AnnotationAudit.Proofs.Candidates
import AnnotationAudit.Proofs.CommentWalk
import AnnotationAudit.Proofs.Confinement
import AnnotationAudit.Proofs.Contents
import AnnotationAudit.Proofs.Coverage
import AnnotationAudit.Proofs.Cursors
import AnnotationAudit.Proofs.Decorators
import AnnotationAudit.Proofs.Defaults
import AnnotationAudit.Proofs.Disclosure
import AnnotationAudit.Proofs.DocumentOrder
import AnnotationAudit.Proofs.DottedNames
import AnnotationAudit.Proofs.EffectiveSettings
import AnnotationAudit.Proofs.Exclusion
import AnnotationAudit.Proofs.ExitStatus
import AnnotationAudit.Proofs.Failures
import AnnotationAudit.Proofs.FileCount
import AnnotationAudit.Proofs.FirstFault
import AnnotationAudit.Proofs.ForeignKeys
import AnnotationAudit.Proofs.Forms
import AnnotationAudit.Proofs.Gaps
import AnnotationAudit.Proofs.InputOrder
import AnnotationAudit.Proofs.InvalidParameters
import AnnotationAudit.Proofs.JsonReading
import AnnotationAudit.Proofs.JsonTexts
import AnnotationAudit.Proofs.JsonTokens
import AnnotationAudit.Proofs.JsonValues
import AnnotationAudit.Proofs.LinkFaults
import AnnotationAudit.Proofs.Locality
import AnnotationAudit.Proofs.Locations
import AnnotationAudit.Proofs.Lossless
import AnnotationAudit.Proofs.LoweredParameters
import AnnotationAudit.Proofs.Machine
import AnnotationAudit.Proofs.MachineOrder
import AnnotationAudit.Proofs.Naming
import AnnotationAudit.Proofs.Narrowing
import AnnotationAudit.Proofs.Nesting
import AnnotationAudit.Proofs.Parameters
import AnnotationAudit.Proofs.Parsing
import AnnotationAudit.Proofs.ParsingOrder
import AnnotationAudit.Proofs.Pieces
import AnnotationAudit.Proofs.Placement
import AnnotationAudit.Proofs.Presence
import AnnotationAudit.Proofs.Printing
import AnnotationAudit.Proofs.Productions
import AnnotationAudit.Proofs.RealFiles
import AnnotationAudit.Proofs.RecoveryOrder
import AnnotationAudit.Proofs.ReportsAgree
import AnnotationAudit.Proofs.RoundTrip
import AnnotationAudit.Proofs.Scopes
import AnnotationAudit.Proofs.Selecting
import AnnotationAudit.Proofs.ShownBack
import AnnotationAudit.Proofs.ShownPaths
import AnnotationAudit.Proofs.Skeletons
import AnnotationAudit.Proofs.Spelling
import AnnotationAudit.Proofs.Stack
import AnnotationAudit.Proofs.StackOrder
import AnnotationAudit.Proofs.Statements
import AnnotationAudit.Proofs.StubPreference
import AnnotationAudit.Proofs.Stubs
import AnnotationAudit.Proofs.Suppression
import AnnotationAudit.Proofs.Tables
import AnnotationAudit.Proofs.Tokens
import AnnotationAudit.Proofs.TomlTables
import AnnotationAudit.Proofs.Trees
import AnnotationAudit.Proofs.UnresolvedInputs
import AnnotationAudit.Proofs.ViolatingFiles
import AnnotationAudit.Proofs.Walking
import AnnotationAudit.Python.Automaton
import AnnotationAudit.Python.Grammar
import AnnotationAudit.Python.Kind
import AnnotationAudit.Python.Layout
import AnnotationAudit.Python.Machine
import AnnotationAudit.Python.Node
import AnnotationAudit.Python.Nonterminal
import AnnotationAudit.Python.Parse
import AnnotationAudit.Python.Production
import AnnotationAudit.Python.Recovery
import AnnotationAudit.Python.Rule
import AnnotationAudit.Python.Stack
import AnnotationAudit.Python.Table
import AnnotationAudit.Python.Terminal
import AnnotationAudit.Python.Token
import AnnotationAudit.Python.Tree
import AnnotationAudit.Python.Walk
import AnnotationAudit.Refusal
import AnnotationAudit.Report
import AnnotationAudit.Report.Document
import AnnotationAudit.Report.Lines
import AnnotationAudit.Report.Sarif
import AnnotationAudit.Report.Style
import AnnotationAudit.Selection
import AnnotationAudit.Settings
import AnnotationAudit.Text.Blank
import AnnotationAudit.Text.Bytes
import AnnotationAudit.Text.Cursor
import AnnotationAudit.Text.Decimal
import AnnotationAudit.Text.Identifier
import AnnotationAudit.Text.Line
import AnnotationAudit.Text.Pattern
import AnnotationAudit.Text.Printable
import AnnotationAudit.Text.Quoted
import AnnotationAudit.Text.Ranges
import AnnotationAudit.Text.Search
import AnnotationAudit.Text.Similarity
import AnnotationAudit.Text.Split
import AnnotationAudit.Toml.Datetime
import AnnotationAudit.Toml.Document
import AnnotationAudit.Toml.Fault
import AnnotationAudit.Toml.Scalar
import AnnotationAudit.Toml.Token
import AnnotationAudit.Toml.Value
import AnnotationAudit.Violation
