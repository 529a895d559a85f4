import Offside.Builtin
import Offside.Builtin.Failure
import Offside.Command
import Offside.Command.Arguments
import Offside.Command.Entry
import Offside.Csv
import Offside.Disk
import Offside.Disk.Operation
import Offside.Disk.Path
import Offside.Error
import Offside.Evaluator
import Offside.Evaluator.State
import Offside.Fault
import Offside.Heap
import Offside.Heap.Display
import Offside.Heap.Equality
import Offside.Interpreter
import Offside.Json
import Offside.Json.Reader
import Offside.Library
import Offside.Library.Arithmetic
import Offside.Library.Core
import Offside.Library.Csv
import Offside.Library.File
import Offside.Library.Json
import Offside.Library.Method
import Offside.Library.System
import Offside.Main
import Offside.Mapping
import Offside.Node
import Offside.Node.Document
import Offside.Number.Binary64
import Offside.Number.FloatText
import Offside.Number.Hypotenuse
import Offside.Number.Numeral
import Offside.Number.Shortest
import Offside.Operation
import Offside.Operation.Item
import Offside.Parser
import Offside.Parser.Cursor
import Offside.Parser.Error
import Offside.Parser.Expression
import Offside.Parser.Statement
import Offside.Position
import Offside.Proofs.Action
import Offside.Proofs.Adding
import Offside.Proofs.Bare
import Offside.Proofs.Bisimulation
import Offside.Proofs.Check
import Offside.Proofs.Csv
import Offside.Proofs.Digit
import Offside.Proofs.Disk
import Offside.Proofs.Document
import Offside.Proofs.Entry
import Offside.Proofs.Equality
import Offside.Proofs.Evaluator.Allowance
import Offside.Proofs.Evaluator.Blame
import Offside.Proofs.Evaluator.Call
import Offside.Proofs.Evaluator.Completion
import Offside.Proofs.Evaluator.Conduct
import Offside.Proofs.Evaluator.Frame
import Offside.Proofs.Evaluator.Invariant
import Offside.Proofs.Evaluator.Literal
import Offside.Proofs.Evaluator.OnHeap
import Offside.Proofs.Evaluator.Orderly
import Offside.Proofs.Evaluator.Parallel
import Offside.Proofs.Evaluator.Reach
import Offside.Proofs.Evaluator.Regular
import Offside.Proofs.Evaluator.Reporting
import Offside.Proofs.Evaluator.Retaining
import Offside.Proofs.Evaluator.Script
import Offside.Proofs.Evaluator.Shifted
import Offside.Proofs.Evaluator.Signal
import Offside.Proofs.Evaluator.Tandem
import Offside.Proofs.Evaluator.Tidy
import Offside.Proofs.Evaluator.Twin
import Offside.Proofs.Fallible
import Offside.Proofs.Grammar
import Offside.Proofs.Heap.Depiction
import Offside.Proofs.Heap.Display
import Offside.Proofs.Heap.Mirror
import Offside.Proofs.Heap.Picture
import Offside.Proofs.Heap.Walk
import Offside.Proofs.Interpreter
import Offside.Proofs.Interpreter.Accepted
import Offside.Proofs.Interpreter.Composition
import Offside.Proofs.Interpreter.DepthLimit
import Offside.Proofs.Interpreter.Located
import Offside.Proofs.Interpreter.Receivers
import Offside.Proofs.Interpreter.Reporting
import Offside.Proofs.Interpreter.Session
import Offside.Proofs.Interpreter.Termination
import Offside.Proofs.Interpreter.Tracing
import Offside.Proofs.Json
import Offside.Proofs.Key
import Offside.Proofs.Lexer.Blank
import Offside.Proofs.Lexer.Coverage
import Offside.Proofs.Lexer.FormFeed
import Offside.Proofs.Lexer.Indentation
import Offside.Proofs.Lexer.Layout
import Offside.Proofs.Lexer.Move
import Offside.Proofs.Lexer.Reindent
import Offside.Proofs.Lexer.Seam
import Offside.Proofs.Lexer.Slices
import Offside.Proofs.Lexer.Spelling
import Offside.Proofs.Lexer.Step
import Offside.Proofs.Lexer.Turn
import Offside.Proofs.Lexer.Within
import Offside.Proofs.Library.Confinement
import Offside.Proofs.Library.Csv
import Offside.Proofs.Library.Editing
import Offside.Proofs.Library.Indexing
import Offside.Proofs.Library.Json
import Offside.Proofs.Library.Reporting
import Offside.Proofs.Library.Retaining
import Offside.Proofs.Library.Sorting
import Offside.Proofs.Library.Standard
import Offside.Proofs.Lowered
import Offside.Proofs.Mapping
import Offside.Proofs.Mapping.History
import Offside.Proofs.Numeral
import Offside.Proofs.Operation
import Offside.Proofs.Parser.Accepted
import Offside.Proofs.Parser.Appending
import Offside.Proofs.Parser.Binding
import Offside.Proofs.Parser.Clause
import Offside.Proofs.Parser.Completeness
import Offside.Proofs.Parser.Composition
import Offside.Proofs.Parser.Counted
import Offside.Proofs.Parser.Ending
import Offside.Proofs.Parser.Executable
import Offside.Proofs.Parser.Forward
import Offside.Proofs.Parser.Fuel
import Offside.Proofs.Parser.Hollow
import Offside.Proofs.Parser.Level
import Offside.Proofs.Parser.Line
import Offside.Proofs.Parser.Lines
import Offside.Proofs.Parser.Locality
import Offside.Proofs.Parser.Longer
import Offside.Proofs.Parser.Lowering
import Offside.Proofs.Parser.Nesting
import Offside.Proofs.Parser.Order
import Offside.Proofs.Parser.Placing
import Offside.Proofs.Parser.Progress
import Offside.Proofs.Parser.Reading
import Offside.Proofs.Parser.Recovery
import Offside.Proofs.Parser.Rule
import Offside.Proofs.Parser.Soundness
import Offside.Proofs.Parser.StatementFuel
import Offside.Proofs.Parser.StatementRule
import Offside.Proofs.Printer.Canonical
import Offside.Proofs.Printer.Expression
import Offside.Proofs.Printer.Literal
import Offside.Proofs.Printer.RoundTrip
import Offside.Proofs.Printer.Statement
import Offside.Proofs.Printer.Value
import Offside.Proofs.Reference.Agreement
import Offside.Proofs.Reference.Alike
import Offside.Proofs.Reference.Cover
import Offside.Proofs.Reference.Expression
import Offside.Proofs.Reference.Flaw
import Offside.Proofs.Reference.LineEnd
import Offside.Proofs.Reference.Reach
import Offside.Proofs.Reference.Scan
import Offside.Proofs.Reference.Source
import Offside.Proofs.Reference.Statement
import Offside.Proofs.Reference.Word
import Offside.Proofs.Reporting
import Offside.Proofs.Same
import Offside.Proofs.Scope
import Offside.Proofs.Scope.Forest
import Offside.Proofs.Sorting
import Offside.Proofs.Sorting.Order
import Offside.Proofs.Tree
import Offside.Proofs.Value
import Offside.Reference
import Offside.Reference.Error
import Offside.Reference.Grammar
import Offside.Reference.Scanner
import Offside.Reference.Transformer
import Offside.Scope
import Offside.Sorting
import Offside.Sorting.Merge
import Offside.Sorting.Run
import Offside.Text.Blank
import Offside.Text.Case
import Offside.Text.CodePoint
import Offside.Text.Digit
import Offside.Text.Letter
import Offside.Text.Printable
import Offside.Text.Quoted
import Offside.Text.Search
import Offside.Text.Utf8
import Offside.Token
import Offside.Token.Lexer
import Offside.Value
import Offside.World
