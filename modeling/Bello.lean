import Bello.Channel
import Bello.Command
import Bello.Decimal.Arithmetic
import Bello.Decimal.Basic
import Bello.Decimal.Text
import Bello.Error
import Bello.Machine.Basic
import Bello.Machine.Event
import Bello.Machine.Execution
import Bello.Main
import Bello.Operation
import Bello.Parse.Basic
import Bello.Parse.Expression
import Bello.Parse.Program
import Bello.Proofs.Blame.Expression
import Bello.Proofs.Blame.Program
import Bello.Proofs.Blame.Statement
import Bello.Proofs.Blame.Steps
import Bello.Proofs.Channel.Console
import Bello.Proofs.Decimal.Exact
import Bello.Proofs.Decimal.Fitting
import Bello.Proofs.Decimal.Format
import Bello.Proofs.Decimal.Plain
import Bello.Proofs.Decimal.Power
import Bello.Proofs.Decimal.Reciprocal
import Bello.Proofs.Decimal.Successor
import Bello.Proofs.Grammar.Bare
import Bello.Proofs.Grammar.Begins
import Bello.Proofs.Grammar.Fronts
import Bello.Proofs.Grammar.Height
import Bello.Proofs.Grammar.Numeral
import Bello.Proofs.Grammar.Render
import Bello.Proofs.Grammar.Rules
import Bello.Proofs.Layout.Basic
import Bello.Proofs.Layout.Parse
import Bello.Proofs.Layout.Run
import Bello.Proofs.Machine.Abreast
import Bello.Proofs.Machine.Balance
import Bello.Proofs.Machine.Bound
import Bello.Proofs.Machine.Confinement
import Bello.Proofs.Machine.Counting
import Bello.Proofs.Machine.Course
import Bello.Proofs.Machine.CutShort
import Bello.Proofs.Machine.Declarations
import Bello.Proofs.Machine.EveryPath
import Bello.Proofs.Machine.Isolation
import Bello.Proofs.Machine.Mirror
import Bello.Proofs.Machine.Returning
import Bello.Proofs.Machine.Session
import Bello.Proofs.Machine.Steps
import Bello.Proofs.Machine.Unrolling
import Bello.Proofs.Nesting.Agreement
import Bello.Proofs.Nesting.Counted
import Bello.Proofs.Nesting.Reuse
import Bello.Proofs.Parse.Expression
import Bello.Proofs.Parse.Laws
import Bello.Proofs.Parse.Program
import Bello.Proofs.Parse.Statement
import Bello.Proofs.Parse.Steps
import Bello.Proofs.Place.Basic
import Bello.Proofs.Place.Lines
import Bello.Proofs.Place.Nodes
import Bello.Proofs.Place.Parse
import Bello.Proofs.Place.Run
import Bello.Proofs.Place.Spans
import Bello.Proofs.Scope.Effects
import Bello.Proofs.Scope.Frames
import Bello.Proofs.Scope.Operations
import Bello.Proofs.Token.Context
import Bello.Proofs.Token.Extents
import Bello.Proofs.Token.Lossless
import Bello.Proofs.Token.Respacing
import Bello.Proofs.Token.Scanning
import Bello.Proofs.Token.Spelling
import Bello.Proofs.Token.Stream
import Bello.Proofs.Upholds
import Bello.Report
import Bello.Scope
import Bello.Span
import Bello.Syntax.Basic
import Bello.Text
import Bello.Token.Basic
import Bello.Token.Cursor
import Bello.Token.Lexer
