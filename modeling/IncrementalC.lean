import IncrementalC.Analysis.Declaration
import IncrementalC.Analysis.Expression
import IncrementalC.Analysis.Initializer
import IncrementalC.Analysis.Problem
import IncrementalC.Analysis.State
import IncrementalC.Analysis.Typing
import IncrementalC.Analysis.Unit
import IncrementalC.Code.Document
import IncrementalC.Code.Instr
import IncrementalC.Code.Scalar
import IncrementalC.Command.Arguments
import IncrementalC.Command.Line
import IncrementalC.Command.Program
import IncrementalC.Command.Prompt
import IncrementalC.Config.Basic
import IncrementalC.Decimal.Binary
import IncrementalC.Decimal.Reading
import IncrementalC.Decimal.Shortest
import IncrementalC.Deferred.Transform
import IncrementalC.Diagnostic.Basic
import IncrementalC.Double
import IncrementalC.Files.Path
import IncrementalC.Files.Tree
import IncrementalC.Input.Nesting
import IncrementalC.Input.Wrapping
import IncrementalC.Lowering.Basic
import IncrementalC.Lowering.Expression
import IncrementalC.Lowering.Initializer
import IncrementalC.Lowering.Unit
import IncrementalC.Machine.Basic
import IncrementalC.Machine.Display
import IncrementalC.Machine.Fault
import IncrementalC.Machine.Format
import IncrementalC.Machine.Library
import IncrementalC.Machine.Link
import IncrementalC.Machine.Operation
import IncrementalC.Machine.Run
import IncrementalC.Machine.Value
import IncrementalC.Main
import IncrementalC.NameMap
import IncrementalC.Proofs.Analysis.Definite
import IncrementalC.Proofs.Analysis.FrameSlots
import IncrementalC.Proofs.Analysis.Introduced
import IncrementalC.Proofs.Analysis.LocalSlots
import IncrementalC.Proofs.Analysis.NumberedBody
import IncrementalC.Proofs.Analysis.PlacedBody
import IncrementalC.Proofs.Analysis.Reached
import IncrementalC.Proofs.Analysis.WellFoundedTypes
import IncrementalC.Proofs.Decimal.SinglePrecision
import IncrementalC.Proofs.Deferred.Eliminated
import IncrementalC.Proofs.Deferred.Outcome
import IncrementalC.Proofs.Deferred.Parts
import IncrementalC.Proofs.Deferred.Records
import IncrementalC.Proofs.Diagnostic.SimilarNames
import IncrementalC.Proofs.Input.Continued
import IncrementalC.Proofs.Input.Nesting
import IncrementalC.Proofs.Input.Wrapped
import IncrementalC.Proofs.Lowering.Compiled
import IncrementalC.Proofs.Lowering.Composed
import IncrementalC.Proofs.Lowering.ExpressionCode
import IncrementalC.Proofs.Lowering.InitialRoom
import IncrementalC.Proofs.Lowering.ModulesRun
import IncrementalC.Proofs.Lowering.Retained
import IncrementalC.Proofs.Lowering.StackDiscipline
import IncrementalC.Proofs.Lowering.StatementCode
import IncrementalC.Proofs.Machine.Budget
import IncrementalC.Proofs.Machine.Calls
import IncrementalC.Proofs.Machine.Formatted
import IncrementalC.Proofs.Machine.Fuel
import IncrementalC.Proofs.Machine.Modular
import IncrementalC.Proofs.Machine.Placement
import IncrementalC.Proofs.Machine.Places
import IncrementalC.Proofs.Machine.PointerArithmetic
import IncrementalC.Proofs.Machine.Present
import IncrementalC.Proofs.Machine.Preserved
import IncrementalC.Proofs.Machine.Represented
import IncrementalC.Proofs.Machine.Restored
import IncrementalC.Proofs.Semantics.Abbreviated
import IncrementalC.Proofs.Semantics.Computes
import IncrementalC.Proofs.Semantics.ControlPreserved
import IncrementalC.Proofs.Semantics.Delivery
import IncrementalC.Proofs.Semantics.Evaluation
import IncrementalC.Proofs.Semantics.ExpressionPreserved
import IncrementalC.Proofs.Semantics.Filling
import IncrementalC.Proofs.Semantics.FoldingPreserved
import IncrementalC.Proofs.Semantics.ImageAgrees
import IncrementalC.Proofs.Semantics.LayoutAgrees
import IncrementalC.Proofs.Semantics.Meaningful
import IncrementalC.Proofs.Semantics.OperatorMeaning
import IncrementalC.Proofs.Semantics.Suited
import IncrementalC.Proofs.Semantics.Track
import IncrementalC.Proofs.Semantics.ValueRange
import IncrementalC.Proofs.Session.Evaluated
import IncrementalC.Proofs.Session.Initialized
import IncrementalC.Proofs.Session.LoadedFile
import IncrementalC.Proofs.Session.Rejected
import IncrementalC.Proofs.Session.Settled
import IncrementalC.Proofs.Source.CommittedText
import IncrementalC.Proofs.Source.Located
import IncrementalC.Proofs.Storage.LinkNames
import IncrementalC.Proofs.Storage.OwnStorage
import IncrementalC.Proofs.Storage.Translated
import IncrementalC.Proofs.Syntax.Climbing
import IncrementalC.Proofs.Syntax.Depth
import IncrementalC.Proofs.Syntax.Forms
import IncrementalC.Proofs.Syntax.Levels
import IncrementalC.Proofs.Syntax.Progress
import IncrementalC.Proofs.Syntax.TypeNames
import IncrementalC.Proofs.Syntax.UnitWritten
import IncrementalC.Proofs.Token.Lexemes
import IncrementalC.Proofs.Token.Literals
import IncrementalC.Proofs.Token.Phrases
import IncrementalC.Proofs.Token.Positions
import IncrementalC.Proofs.Typed.DeclaredBack
import IncrementalC.Proofs.Typed.Origin
import IncrementalC.Proofs.Typed.ParsedBack
import IncrementalC.Proofs.Typed.Phrases
import IncrementalC.Proofs.Types.Spelling
import IncrementalC.Proofs.Unit.Defined
import IncrementalC.Proofs.Unit.Inclusion
import IncrementalC.Proofs.Unit.Rollback
import IncrementalC.Session.Basic
import IncrementalC.Session.Error
import IncrementalC.Session.Execution
import IncrementalC.Session.History
import IncrementalC.Session.Template
import IncrementalC.Source.SourceMap
import IncrementalC.Source.Span
import IncrementalC.Syntax.Cursor
import IncrementalC.Syntax.Expression
import IncrementalC.Syntax.Shape
import IncrementalC.Syntax.Tree
import IncrementalC.Syntax.Unit
import IncrementalC.Text.CharClass
import IncrementalC.Text.Cluster
import IncrementalC.Text.ClusterClass
import IncrementalC.Text.Document
import IncrementalC.Text.Literal
import IncrementalC.Text.Lossy
import IncrementalC.Token.Basic
import IncrementalC.Token.Lexer
import IncrementalC.Toml.Basic
import IncrementalC.Toml.Reader
import IncrementalC.Toml.Scalar
import IncrementalC.Typed.Constant
import IncrementalC.Typed.Folding
import IncrementalC.Typed.Printer
import IncrementalC.Typed.Tree
import IncrementalC.Types.Basic
import IncrementalC.Types.Table
import IncrementalC.Unit.Basic
import IncrementalC.Unit.Error
import IncrementalC.Unit.Include
