import Abacus.Console.Dump
import Abacus.Console.Request
import Abacus.Console.Run
import Abacus.Decimal.Basic
import Abacus.Decimal.Layout
import Abacus.Decimal.Shortest
import Abacus.Evaluation
import Abacus.Failure
import Abacus.Json.Basic
import Abacus.Json.Library
import Abacus.Json.Numeral
import Abacus.Json.Reader
import Abacus.Json.Writer
import Abacus.Keyword
import Abacus.Main
import Abacus.Node.Basic
import Abacus.Node.Cursor
import Abacus.Node.Expression
import Abacus.Node.Parser
import Abacus.Node.Statement
import Abacus.Number
import Abacus.Operator
import Abacus.Report
import Abacus.Scope.Environment
import Abacus.Scope.Frame
import Abacus.Session
import Abacus.Settings.Basic
import Abacus.Settings.Json
import Abacus.Span
import Abacus.Text.Blank
import Abacus.Text.Lines
import Abacus.Token.Basic
import Abacus.Token.Rule
import Abacus.Token.Scan
import Abacus.Proofs.Grammar
import Abacus.Proofs.Reading
import Abacus.Proofs.SideBySide
import Abacus.Proofs.Levels
import Abacus.Proofs.Expressions
import Abacus.Proofs.Brackets
import Abacus.Proofs.Braces
import Abacus.Proofs.Programs
import Abacus.Proofs.Balance
import Abacus.Proofs.Contents
import Abacus.Proofs.Termination
import Abacus.Proofs.FrameUnion
import Abacus.Proofs.Moments
import Abacus.Proofs.ScopingAgreement
import Abacus.Proofs.RaisedLimits
import Abacus.Proofs.Scanning
import Abacus.Proofs.Layout
import Abacus.Proofs.Separators
import Abacus.Proofs.Kinds
import Abacus.Proofs.Sessions
import Abacus.Proofs.Concatenation
import Abacus.Proofs.Shape
import Abacus.Proofs.Numerals
import Abacus.Proofs.Writing
import Abacus.Proofs.RoundTrip
import Abacus.Proofs.Occurrences
import Abacus.Proofs.Mentions
import Abacus.Proofs.CallFrames
import Abacus.Proofs.Declarations
import Abacus.Proofs.Ranks
import Abacus.Proofs.Activations
import Abacus.Proofs.Layers
import Abacus.Proofs.Operations
import Abacus.Proofs.Undeclared
import Abacus.Proofs.NestingLimit
import Abacus.Proofs.Iteration
import Abacus.Proofs.Splitting
import Abacus.Proofs.Unreadable
import Abacus.Proofs.ErrorPlaces
import Abacus.Proofs.Predictive
import Abacus.Proofs.Snags
import Abacus.Proofs.Faults
import Abacus.Proofs.TooDeep
import Abacus.Proofs.FirstFault
import Abacus.Proofs.Excerpts
import Abacus.Proofs.Carets
import Abacus.Proofs.Causes
import Abacus.Proofs.Progress
import Abacus.Proofs.Loops
import Abacus.Proofs.JsonScalars
import Abacus.Proofs.JsonTexts
import Abacus.Proofs.JsonWriting
import Abacus.Proofs.SettingsTexts
