import WireSchema.Clock
import WireSchema.Codec.Decode
import WireSchema.Codec.Encode
import WireSchema.Codec.Value
import WireSchema.Codec.Yaml
import WireSchema.CommandLine.Arguments
import WireSchema.CommandLine.Flag
import WireSchema.CommandLine.Plan
import WireSchema.CommandLine.Result
import WireSchema.CommandLine.Run
import WireSchema.CommandLine.Watch
import WireSchema.Compile
import WireSchema.Dict
import WireSchema.Failure
import WireSchema.Generation
import WireSchema.Http
import WireSchema.Json.Escape
import WireSchema.Json.Lenient
import WireSchema.Json.Nesting
import WireSchema.Json.Strict
import WireSchema.Json.Writer
import WireSchema.LineDiff.Edit
import WireSchema.LineDiff.Meeting
import WireSchema.LineDiff.Report
import WireSchema.LineDiff.Script
import WireSchema.Log
import WireSchema.Log.Logger
import WireSchema.Main
import WireSchema.Model.Basic
import WireSchema.Model.Class
import WireSchema.Model.Names
import WireSchema.Model.Resolve
import WireSchema.Number.Binary
import WireSchema.Number.BinaryText
import WireSchema.Number.Decimal
import WireSchema.Number.Integer
import WireSchema.Number.Shortest
import WireSchema.Path
import WireSchema.Proofs.Checked.Compilation
import WireSchema.Proofs.Checked.Emission
import WireSchema.Proofs.Checked.Reading
import WireSchema.Proofs.Checked.Resolution
import WireSchema.Proofs.Codec.Depth
import WireSchema.Proofs.Codec.Document
import WireSchema.Proofs.Codec.Meaning
import WireSchema.Proofs.Codec.RoundTrip
import WireSchema.Proofs.Json.Grammar
import WireSchema.Proofs.Json.LenientReading
import WireSchema.Proofs.Json.Tree
import WireSchema.Proofs.Json.Writing
import WireSchema.Proofs.Model.Legality
import WireSchema.Proofs.Model.Resolution
import WireSchema.Proofs.Model.Slots
import WireSchema.Proofs.Model.WellFormed
import WireSchema.Proofs.Model.ArrayCodecs
import WireSchema.Proofs.Model.Inheritance
import WireSchema.Proofs.Number.BinaryText
import WireSchema.Proofs.Number.DecimalText
import WireSchema.Proofs.Number.Digits
import WireSchema.Proofs.Number.Rounding
import WireSchema.Proofs.Number.ShortestDigits
import WireSchema.Proofs.Lists
import WireSchema.Proofs.Source.Declarations
import WireSchema.Proofs.Source.References
import WireSchema.Proofs.Text.Utf8
import WireSchema.Proofs.Token.Emission
import WireSchema.Proofs.Token.Enforcement
import WireSchema.Proofs.Token.Progress
import WireSchema.Schema.Basic
import WireSchema.Schema.Parser
import WireSchema.Settings.Basic
import WireSchema.Settings.Decode
import WireSchema.Settings.Environment
import WireSchema.Settings.Load
import WireSchema.Source.Calls
import WireSchema.Source.Code
import WireSchema.Source.DocComment
import WireSchema.Source.Emit
import WireSchema.Source.Format
import WireSchema.Source.Generate
import WireSchema.Source.Identifier
import WireSchema.Source.Layout
import WireSchema.Text.Basic
import WireSchema.Text.Case
import WireSchema.Text.Digit
import WireSchema.Text.Letter
import WireSchema.Text.Printable
import WireSchema.Text.Quoted
import WireSchema.Text.Range
import WireSchema.Text.Style
import WireSchema.Text.Utf8
import WireSchema.Token.Basic
import WireSchema.Token.Enforce
import WireSchema.Token.Pointer
import WireSchema.Token.Reader
import WireSchema.Token.Source
import WireSchema.Workspace
import WireSchema.Write
import WireSchema.Yaml.Cursor
import WireSchema.Yaml.Indicator
import WireSchema.Yaml.Lexeme
import WireSchema.Yaml.Lexer
import WireSchema.Yaml.Meaning
import WireSchema.Yaml.Node
import WireSchema.Yaml.Page
import WireSchema.Yaml.ScalarText
import WireSchema.Yaml.Style
import WireSchema.Yaml.Timestamp
import WireSchema.Yaml.Tokens
import WireSchema.Yaml.Tree
import WireSchema.Proofs.Json.StrictReading
import WireSchema.Proofs.Token.Adaptation
import WireSchema.Proofs.Codec.Agreement
import WireSchema.Proofs.Codec.Dialects
import WireSchema.Proofs.Source.Implementors
import WireSchema.Proofs.Yaml.Numbering
import WireSchema.Proofs.Yaml.Walking
import WireSchema.Proofs.Yaml.Expansion
import WireSchema.Proofs.Model.Names
import WireSchema.Proofs.Source.Lines
import WireSchema.Proofs.Source.Packages
import WireSchema.Proofs.Source.Imports
import WireSchema.Proofs.Token.Stopping
import WireSchema.Proofs.Codec.Interruption
import WireSchema.Proofs.Json.LenientTruncation
import WireSchema.Proofs.Json.StrictTruncation
import WireSchema.Proofs.Codec.Truncation
import WireSchema.Proofs.Text.Cutting
import WireSchema.Proofs.Schema.Composition
import WireSchema.Proofs.Schema.RoundTrip
import WireSchema.Proofs.LineDiff.Scripts
import WireSchema.Proofs.Source.Depth
import WireSchema.Proofs.Source.Calls
import WireSchema.Proofs.Workspace.Places
import WireSchema.Proofs.Generation.Staleness
import WireSchema.Proofs.Token.Skipping
import WireSchema.Proofs.Token.Paths
import WireSchema.Proofs.Write.Grammar
import WireSchema.Proofs.Yaml.Building
import WireSchema.Proofs.Json.Acceptance
import WireSchema.Proofs.Json.Containers
import WireSchema.Proofs.Write.Refusals
import WireSchema.Proofs.Number.Overflow
import WireSchema.Proofs.Yaml.Numerals
import WireSchema.Proofs.Yaml.PlainScalars
import WireSchema.Proofs.Yaml.Documents
import WireSchema.Proofs.Codec.Decimals
import WireSchema.Proofs.Source.Members
import WireSchema.Proofs.Settings.Outputs
import WireSchema.Proofs.Schema.QuotedKeys
import WireSchema.Proofs.Source.Capture
import WireSchema.Proofs.Text.Literals
import WireSchema.Proofs.Source.Keys
import WireSchema.Proofs.Text.Letters
import WireSchema.Proofs.Model.CodecIdentifiers
import WireSchema.Proofs.Source.MemberNames
import WireSchema.Proofs.Codec.Failures
import WireSchema.Proofs.Dict.InsertionOrder
import WireSchema.Proofs.Http.Answers
