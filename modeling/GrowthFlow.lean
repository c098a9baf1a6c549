import GrowthFlow.Text.Blank
import GrowthFlow.Text.Decimal
import GrowthFlow.Text.Split
import GrowthFlow.Text.Visible
import GrowthFlow.Ordered
import GrowthFlow.Assoc
import GrowthFlow.Json.Basic
import GrowthFlow.Json.Node
import GrowthFlow.Json.Decode
import GrowthFlow.Lang.Token
import GrowthFlow.Lang.Lexeme
import GrowthFlow.Lang.Expr
import GrowthFlow.Lang.Stmt
import GrowthFlow.Lang.Rule
import GrowthFlow.Lang.Grammar
import GrowthFlow.Lang.Source
import GrowthFlow.Lang.Layout
import GrowthFlow.Lang.Names
import GrowthFlow.Lang.Coverage
import GrowthFlow.Flow.Scalar
import GrowthFlow.Flow.Delta
import GrowthFlow.Flow.Monomial
import GrowthFlow.Flow.Poly
import GrowthFlow.Flow.Matrix
import GrowthFlow.Flow.Cells
import GrowthFlow.Flow.Relation
import GrowthFlow.Flow.Bound
import GrowthFlow.Flow.Codec
import GrowthFlow.Choice.Witness
import GrowthFlow.Choice.Box
import GrowthFlow.Choice.Choices
import GrowthFlow.Choice.Graph
import GrowthFlow.Analysis.Options
import GrowthFlow.Analysis.Effect
import GrowthFlow.Analysis.Walk
import GrowthFlow.Analysis.Program
import GrowthFlow.Report.Basic
import GrowthFlow.Report.Codec
import GrowthFlow.Command.Path
import GrowthFlow.Command.Storage
import GrowthFlow.Command.FileTree
import GrowthFlow.Command.Arguments
import GrowthFlow.Command.Run
import GrowthFlow.Main
import GrowthFlow.Proofs.Sets
import GrowthFlow.Proofs.Value
import GrowthFlow.Proofs.PolyValue
import GrowthFlow.Proofs.NormalForm
import GrowthFlow.Proofs.PolyAlgebra
import GrowthFlow.Proofs.Witnesses
import GrowthFlow.Proofs.Boxes
import GrowthFlow.Proofs.SafeChoices
import GrowthFlow.Proofs.Entries
import GrowthFlow.Proofs.MatrixPowers
import GrowthFlow.Proofs.Convergence
import GrowthFlow.Proofs.Closure
import GrowthFlow.Proofs.RelationValue
import GrowthFlow.Proofs.RelationAlgebra
import GrowthFlow.Proofs.Neutrality
import GrowthFlow.Proofs.Repetition
import GrowthFlow.Proofs.Plan
import GrowthFlow.Proofs.Effects
import GrowthFlow.Proofs.Contraction
import GrowthFlow.Proofs.GraphRuns
import GrowthFlow.Proofs.Survival
import GrowthFlow.Proofs.ScalarFlow
import GrowthFlow.Proofs.Derivation
import GrowthFlow.Proofs.EarlyExit
import GrowthFlow.Proofs.ReportedBound
import GrowthFlow.Proofs.Spelling
import GrowthFlow.Proofs.PrintedRows
import GrowthFlow.Proofs.Reading
import GrowthFlow.Proofs.PrintedExpr
import GrowthFlow.Proofs.PrintedStmt
import GrowthFlow.Proofs.Agreement
import GrowthFlow.Proofs.ParsedTrees
import GrowthFlow.Proofs.RoundTrip
import GrowthFlow.Proofs.Identifiers
import GrowthFlow.Proofs.RegularRuns
import GrowthFlow.Proofs.EntryShapes
import GrowthFlow.Proofs.VariableOrder
import GrowthFlow.Proofs.Tables
import GrowthFlow.Proofs.SharedChoices
import GrowthFlow.Proofs.RegularResults
import GrowthFlow.Proofs.Completion
import GrowthFlow.Proofs.CoveredWalks
import GrowthFlow.Proofs.Decoding
import GrowthFlow.Proofs.SavedFlows
import GrowthFlow.Proofs.SavedReports
import GrowthFlow.Proofs.Shift
import GrowthFlow.Proofs.Numbering
import GrowthFlow.Proofs.Renaming
import GrowthFlow.Proofs.LoopReports
import GrowthFlow.Proofs.ClearBoxes
import GrowthFlow.Proofs.Corrections
import GrowthFlow.Proofs.PooledWitnesses
import GrowthFlow.Proofs.LeastGrowth
import GrowthFlow.Proofs.LoopGuards
import GrowthFlow.Proofs.ResultVariables
import GrowthFlow.Proofs.Lexing
import GrowthFlow.Proofs.Enclosure
import GrowthFlow.Proofs.SelfContained
import GrowthFlow.Proofs.FaultPlaces
import GrowthFlow.Proofs.OutcomeEntries
import GrowthFlow.Proofs.Simplification
import GrowthFlow.Proofs.MonomialForm
