import LinearPlan.Text.Printable
import LinearPlan.Text.Quoted
import LinearPlan.Text.Fields
import LinearPlan.Text.Grouped
import LinearPlan.Text.Box
import LinearPlan.Number
import LinearPlan.Number.Shortest
import LinearPlan.Number.Text
import LinearPlan.Tally
import LinearPlan.Element
import LinearPlan.Matrix.Basic
import LinearPlan.Value
import LinearPlan.Matrix.Layout
import LinearPlan.Matrix.Approx
import LinearPlan.Chain.Kind
import LinearPlan.Chain.Kernel
import LinearPlan.Chain.Instruction
import LinearPlan.Op
import LinearPlan.Shape
import LinearPlan.Graph.Basic
import LinearPlan.Graph.Sizing
import LinearPlan.Graph.Edges
import LinearPlan.Graph.Build
import LinearPlan.Graph.Validity
import LinearPlan.Graph.Reach
import LinearPlan.Graph.Listing
import LinearPlan.Eval.Basic
import LinearPlan.Eval.Graph
import LinearPlan.Optimizer.Report
import LinearPlan.Optimizer.Pass
import LinearPlan.Optimizer.Factoring
import LinearPlan.Optimizer.Slicing
import LinearPlan.Optimizer.Config
import LinearPlan.Optimizer.Run
import LinearPlan.Proofs.Edits
import LinearPlan.Proofs.Postconditions
import LinearPlan.Proofs.EdgeConsistency
import LinearPlan.Proofs.Sizing
import LinearPlan.Proofs.Truncation
import LinearPlan.Proofs.Lifecycle
import LinearPlan.Proofs.CallSequences
import LinearPlan.Proofs.Rollback
import LinearPlan.Proofs.Redirection
import LinearPlan.Proofs.Profiles
import LinearPlan.Proofs.Plans
import LinearPlan.Proofs.Validity
import LinearPlan.Proofs.StructuralCheck
import LinearPlan.Proofs.CycleSearch
import LinearPlan.Proofs.AtomicEdits
import LinearPlan.Proofs.Soundness
import LinearPlan.Proofs.SettledShapes
import LinearPlan.Proofs.LeafOrder
import LinearPlan.Proofs.Tallies
import LinearPlan.Proofs.Unfoldings
import LinearPlan.Proofs.ProductTrees
import LinearPlan.Proofs.ProductBuild
import LinearPlan.Proofs.FactorStep
import LinearPlan.Proofs.WriteChains
import LinearPlan.Proofs.MergePlan
import LinearPlan.Proofs.MergeStep
import LinearPlan.Proofs.Steps
import LinearPlan.Proofs.Work
import LinearPlan.Proofs.Guards
import LinearPlan.Proofs.Offers
import LinearPlan.Proofs.Traversal
import LinearPlan.Proofs.Roots
import LinearPlan.Proofs.Completion
import LinearPlan.Proofs.Evaluation
import LinearPlan.Proofs.Slices
import LinearPlan.Proofs.ExactArithmetic
import LinearPlan.Proofs.ValueShapes
import LinearPlan.Proofs.Binary64
import LinearPlan.Proofs.ProductValues
import LinearPlan.Proofs.NonzeroBounds
import LinearPlan.Proofs.SliceValues
import LinearPlan.Proofs.ValuedSteps
import LinearPlan.Proofs.MergeValues
import LinearPlan.Proofs.FactorCounts
import LinearPlan.Proofs.Preservation
import LinearPlan.Proofs.RowBlocks
import LinearPlan.Proofs.ChainKernel
import LinearPlan.Proofs.InstructionText
import LinearPlan.Proofs.StaleRules
import LinearPlan.Proofs.Termination
import LinearPlan.Proofs.Coverage
import LinearPlan.Proofs.SettledRules
import LinearPlan.Proofs.QuietPasses
import LinearPlan.Proofs.FactoringFixedPoint
import LinearPlan.Proofs.SlicingFixedPoint
import LinearPlan.Proofs.ProductShapes
import LinearPlan.Proofs.OutdatedSizes
import LinearPlan.Proofs.RuleValues
import LinearPlan.Proofs.FactoredTerms
import LinearPlan.Proofs.ProductSizes
import LinearPlan.Proofs.CanonicalProduct
import LinearPlan.Proofs.DepthFirst
import LinearPlan.Proofs.PlainEvaluation
import LinearPlan.Proofs.Postorder
import LinearPlan.Proofs.SliceLaws
import LinearPlan.Proofs.Preorder
import LinearPlan.Proofs.Refreshing
import LinearPlan.Proofs.Rejections
import LinearPlan.Proofs.Configuration
import LinearPlan.Proofs.Histories
import LinearPlan.Proofs.CountedShapes
import LinearPlan.Proofs.ProductPaths
