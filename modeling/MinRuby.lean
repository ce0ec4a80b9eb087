import MinRuby.CommandLine.Arguments
import MinRuby.CommandLine.Batch
import MinRuby.CommandLine.Help
import MinRuby.CommandLine.Task
import MinRuby.Data.Basic
import MinRuby.Data.Printer
import MinRuby.Failure
import MinRuby.Files
import MinRuby.Interactive.Completion
import MinRuby.Interactive.Dialogue
import MinRuby.Limit
import MinRuby.Main
import MinRuby.Numeric.Binary64
import MinRuby.Numeric.Decimal
import MinRuby.Numeric.FloatText
import MinRuby.Numeric.Number
import MinRuby.OrderedTable
import MinRuby.ParseError.Basic
import MinRuby.ParseError.Excerpt
import MinRuby.ParseError.Hint
import MinRuby.Run.Builtins
import MinRuby.Run.Evaluate
import MinRuby.Run.Listing
import MinRuby.Run.Machine
import MinRuby.RuntimeError
import MinRuby.Syntax.Desugar
import MinRuby.Syntax.Escape
import MinRuby.Syntax.Grammar
import MinRuby.Syntax.Node
import MinRuby.Syntax.Outline
import MinRuby.Syntax.Parser
import MinRuby.Syntax.Program
import MinRuby.Syntax.Scope
import MinRuby.Syntax.Source
import MinRuby.Syntax.Term
import MinRuby.Syntax.Token
import MinRuby.Text.Blank
import MinRuby.Text.DecimalDigit
import MinRuby.Text.Lines
import MinRuby.Text.Position
import MinRuby.Text.Printable
import MinRuby.Text.Quoted
import MinRuby.Text.Ranges
import MinRuby.Text.Utf8
import MinRuby.Text.Word
import MinRuby.Value.Basic
import MinRuby.Value.Conversion
import MinRuby.Value.Equality
import MinRuby.Value.Indexing
import MinRuby.Value.Inspect
import MinRuby.Value.Key
import MinRuby.Value.Operators
import MinRuby.Value.Store
import MinRuby.Proofs.Syntax.Reading
import MinRuby.Proofs.Syntax.Spelling
import MinRuby.Proofs.Syntax.Vocabulary
import MinRuby.Proofs.Run.Upkeep
import MinRuby.Proofs.Run.WellFormed
import MinRuby.Proofs.Syntax.SourceOrder
import MinRuby.Proofs.Syntax.TreeOrder
import MinRuby.Proofs.Run.Depth
import MinRuby.Proofs.Run.Constructs
import MinRuby.Proofs.Value.Content
import MinRuby.Proofs.Run.Building
import MinRuby.Proofs.Syntax.Literals
import MinRuby.Proofs.Syntax.LiteralProgram
import MinRuby.Proofs.Run.ReadBack
import MinRuby.Proofs.Syntax.Formula
import MinRuby.Proofs.Syntax.Precedence
import MinRuby.Proofs.Syntax.FormulaStatement
import MinRuby.Proofs.Interactive.Session
import MinRuby.Proofs.Interactive.Overflow
import MinRuby.Proofs.Interactive.Unfinished
import MinRuby.Proofs.Syntax.Nesting
import MinRuby.Proofs.Syntax.Hereditary
import MinRuby.Proofs.Syntax.Lead
import MinRuby.Proofs.Syntax.Beyond
import MinRuby.Proofs.Syntax.Following
import MinRuby.Proofs.Syntax.Command
import MinRuby.Proofs.Syntax.Rereading
import MinRuby.Proofs.CommandLine.ExitStatus
import MinRuby.Proofs.Syntax.Preparation
import MinRuby.Proofs.Syntax.Quoting
import MinRuby.Proofs.ParseError.Position
import MinRuby.Proofs.Syntax.Statements
import MinRuby.Proofs.Syntax.Renumbering
import MinRuby.Proofs.Syntax.Parts
import MinRuby.Proofs.Run.Renaming
import MinRuby.Proofs.Run.Pieces
import MinRuby.Proofs.Run.Builtins
import MinRuby.Proofs.Syntax.Definitions
import MinRuby.Proofs.Run.Effects
import MinRuby.Proofs.Syntax.Assignment
import MinRuby.Proofs.Run.Binding
import MinRuby.Proofs.Run.Tracing
import MinRuby.Proofs.Syntax.FunctionNames
import MinRuby.Proofs.Syntax.Variables
import MinRuby.Proofs.Run.Hidden
import MinRuby.Proofs.Run.Allocation
import MinRuby.Proofs.Run.Assignless
import MinRuby.Proofs.Run.Untouched
import MinRuby.Proofs.Run.Acyclic
import MinRuby.Proofs.Syntax.OpenNames
import MinRuby.Proofs.Interactive.Shown
import MinRuby.Proofs.Syntax.MinusSign
import MinRuby.Proofs.Syntax.StringLiteral
import MinRuby.Proofs.OrderedTable
import MinRuby.Proofs.Value.Finite
import MinRuby.Proofs.Value.Equality
import MinRuby.Proofs.Value.Fingerprint
import MinRuby.Proofs.Value.Filling
import MinRuby.Proofs.Run.Tables
import MinRuby.Proofs.Syntax.Comments
import MinRuby.Proofs.Run.Update
import MinRuby.Proofs.Value.Holding
import MinRuby.Proofs.Run.Writing
import MinRuby.Proofs.Syntax.EntryPoints
import MinRuby.Proofs.Value.PlainData
import MinRuby.Proofs.Run.Conversion
import MinRuby.Proofs.Value.Operators
import MinRuby.Proofs.Numeric.Words
import MinRuby.Proofs.Numeric.IntegerRange
import MinRuby.Proofs.Value.LargeIntegers
import MinRuby.Proofs.Text.Quoted
import MinRuby.Proofs.Numeric.Shortest
import MinRuby.Proofs.Numeric.FloatText
import MinRuby.Proofs.Syntax.Numerals
import MinRuby.Proofs.Data.Printed
import MinRuby.Proofs.Syntax.Outline
import MinRuby.Proofs.Text.Lines
import MinRuby.Proofs.ParseError.Excerpt
import MinRuby.Proofs.Run.Course
import MinRuby.Proofs.Run.Loading
