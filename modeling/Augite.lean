import Augite.Analysis.Expression
import Augite.Analysis.Program
import Augite.Analysis.Statement
import Augite.Command.Compiler
import Augite.Command.Directory
import Augite.Command.Flags
import Augite.Command.LogLine
import Augite.Command.Path
import Augite.Command.Snapshots
import Augite.Command.Task
import Augite.Compile
import Augite.Context
import Augite.Datum.Basic
import Augite.Datum.Match
import Augite.Datum.Reader
import Augite.Datum.Token
import Augite.Document.Block
import Augite.Document.Inline
import Augite.Document.TestCase
import Augite.Double.Basic
import Augite.Double.Layout
import Augite.Double.Reading
import Augite.Double.Shortest
import Augite.Error.Compile
import Augite.Error.Internal
import Augite.Error.Semantic
import Augite.Error.Syntax
import Augite.IR.Basic
import Augite.IR.Flaw
import Augite.IR.Flow
import Augite.IR.Number
import Augite.IR.Opcode
import Augite.IR.Text
import Augite.IR.Type
import Augite.IR.Verify
import Augite.Log
import Augite.Lowering.Expression
import Augite.Lowering.Program
import Augite.Lowering.State
import Augite.Lowering.Statement
import Augite.Lowering.Storage
import Augite.Main
import Augite.Member
import Augite.Parse.Declaration
import Augite.Parse.Expression
import Augite.Parse.Feed
import Augite.Parse.Program
import Augite.Parse.Statement
import Augite.Pass
import Augite.Position
import Augite.Proofs.AnalysisExpression
import Augite.Proofs.AnalysisProgram
import Augite.Proofs.AnalysisStatement
import Augite.Proofs.AnalysisStripped
import Augite.Proofs.Bare
import Augite.Proofs.DeadBlocks
import Augite.Proofs.FlowPaths
import Augite.Proofs.IRTyping
import Augite.Proofs.KeptTree
import Augite.Proofs.Layout
import Augite.Proofs.Legible
import Augite.Proofs.LoweredControl
import Augite.Proofs.LoweredExpression
import Augite.Proofs.LoweredFunction
import Augite.Proofs.LoweredModule
import Augite.Proofs.LoweredProgram
import Augite.Proofs.LoweredStatement
import Augite.Proofs.LoweredStorage
import Augite.Proofs.LoweringBlocks
import Augite.Proofs.LoweringEssence
import Augite.Proofs.LoweringInvariant
import Augite.Proofs.LoweringRuns
import Augite.Proofs.LoweringSteps
import Augite.Proofs.LoweringTables
import Augite.Proofs.Members
import Augite.Proofs.Operators
import Augite.Proofs.Orderly
import Augite.Proofs.Outlines
import Augite.Proofs.ParseEquations
import Augite.Proofs.ParsedPositions
import Augite.Proofs.ParsedShape
import Augite.Proofs.Pass
import Augite.Proofs.Recompilation
import Augite.Proofs.Rendering
import Augite.Proofs.RoundTrip
import Augite.Proofs.Scopes
import Augite.Proofs.Sessions
import Augite.Proofs.Shape
import Augite.Proofs.StraightCode
import Augite.Proofs.Stripped
import Augite.Proofs.Tables
import Augite.Proofs.Tracking
import Augite.Proofs.Typing
import Augite.Proofs.Verification
import Augite.Proofs.Widening
import Augite.Proofs.Words
import Augite.Scope.Basic
import Augite.Scope.Slots
import Augite.Scope.Variables
import Augite.Signature
import Augite.Snapshot
import Augite.Text.Basic
import Augite.Text.Blank
import Augite.Text.Printable
import Augite.Text.Punctuation
import Augite.Text.Quoted
import Augite.Text.Utf8
import Augite.Token.Basic
import Augite.Token.Lexer
import Augite.Tree.Basic
import Augite.Tree.Dump
import Augite.Tree.Returns
import Augite.Tree.Rows
import Augite.Ty
import Augite.Proofs.Numerals
import Augite.Proofs.ReadableDumps
import Augite.Proofs.ReadableSummaries
import Augite.Proofs.Annotations
import Augite.Proofs.ErrorTexts
import Augite.Proofs.MergeBlocks
import Augite.Proofs.InnerScopes
import Augite.Proofs.StatedSnapshots
import Augite.Proofs.LexicalRule
import Augite.Proofs.NameResolution
import Augite.Proofs.LexicalAnalysis
import Augite.Proofs.LayeredGrammar
import Augite.Proofs.DataReadBack
import Augite.Proofs.TokenSpans
import Augite.Proofs.AnalysisErrors
import Augite.Proofs.ErrorPositions
import Augite.Proofs.Grammar
import Augite.Proofs.DeadCode
import Augite.Proofs.ModuleNames
import Augite.Proofs.Patterns
import Augite.Proofs.TestSections
import Augite.Proofs.FaithfulDumps
import Augite.Proofs.ReadingProgress
import Augite.Proofs.StackSlots
