import FactorSearch.Backtest
import FactorSearch.CommandLine.Arguments
import FactorSearch.CommandLine.Program
import FactorSearch.CommandLine.Usage
import FactorSearch.Decimal.Notation
import FactorSearch.Decimal.Numeral
import FactorSearch.Decimal.Shortest
import FactorSearch.Decoding.ClosingCost
import FactorSearch.Decoding.Grammar
import FactorSearch.Evaluation.Degeneracy
import FactorSearch.Evaluation.StackMachine
import FactorSearch.Failure
import FactorSearch.Features
import FactorSearch.Formula.Program
import FactorSearch.Formula.Syntax
import FactorSearch.Formula.Tree
import FactorSearch.Kernel.CrossSection
import FactorSearch.Kernel.Elementwise
import FactorSearch.Kernel.Window
import FactorSearch.Main
import FactorSearch.Market.Csv
import FactorSearch.Market.LongTable
import FactorSearch.Market.Synthetic
import FactorSearch.Miner
import FactorSearch.Operator
import FactorSearch.Panel
import FactorSearch.Policy.Adam
import FactorSearch.Policy.Forward
import FactorSearch.Policy.Gradient
import FactorSearch.Policy.Parameters
import FactorSearch.Policy.Shape
import FactorSearch.Policy.Softmax
import FactorSearch.Report
import FactorSearch.Sampling.Choice
import FactorSearch.Sampling.Generator
import FactorSearch.Sampling.WordStream
import FactorSearch.Scalar
import FactorSearch.Scoring
import FactorSearch.Settings.Basic
import FactorSearch.Settings.Codec
import FactorSearch.Settings.Document
import FactorSearch.Settings.Layers
import FactorSearch.Statistics.Correlation
import FactorSearch.Statistics.Moments
import FactorSearch.Statistics.Rank
import FactorSearch.Statistics.Risk
import FactorSearch.Tensor
import FactorSearch.Text.Json
import FactorSearch.Text.Toml
import FactorSearch.Training.Background
import FactorSearch.Training.HallOfFame
import FactorSearch.Training.Initialization
import FactorSearch.Training.Learner
import FactorSearch.Training.Run
import FactorSearch.Vocabulary
import FactorSearch.Proofs.Formula.Postorder
import FactorSearch.Proofs.Formula.Validity
import FactorSearch.Proofs.Formula.Lexing
import FactorSearch.Proofs.Formula.Calls
import FactorSearch.Proofs.Formula.Resolution
import FactorSearch.Proofs.Formula.Rendering
import FactorSearch.Proofs.Formula.Canonical
import FactorSearch.Proofs.Decoding.ClosingCost
import FactorSearch.Proofs.Decoding.MaskExactness
import FactorSearch.Proofs.Policy.Masking
import FactorSearch.Proofs.Sampling.NoRejection
import FactorSearch.Proofs.Evaluation.TreeValue
import FactorSearch.Proofs.Evaluation.Causality
import FactorSearch.Proofs.Evaluation.Agreement
import FactorSearch.Proofs.Exact.Scalar
import FactorSearch.Proofs.Exact.Softmax
import FactorSearch.Proofs.Exact.Tangent
import FactorSearch.Proofs.Policy.Attention
import FactorSearch.Proofs.Policy.Tower
import FactorSearch.Proofs.Policy.Stages
import FactorSearch.Proofs.Policy.Backpropagation
import FactorSearch.Proofs.Policy.StepGradient
import FactorSearch.Proofs.Exact.Choice
import FactorSearch.Proofs.Training.Replay
import FactorSearch.Proofs.Training.LossGradient
import FactorSearch.Proofs.Training.Reproduction
import FactorSearch.Proofs.Policy.Distribution
import FactorSearch.Proofs.Double.Overflow
import FactorSearch.Proofs.Evaluation.HiddenReturns
import FactorSearch.Proofs.Double.Exact
import FactorSearch.Proofs.Double.Null
import FactorSearch.Proofs.Kernel.FlatPeriods
import FactorSearch.Proofs.Double.Order
import FactorSearch.Proofs.Training.TopFactors
import FactorSearch.Proofs.Training.Calls
import FactorSearch.Proofs.Training.LifeCycle
import FactorSearch.Proofs.Training.BestTracking
import FactorSearch.Proofs.Training.BestAgreement
import FactorSearch.Proofs.Training.Following
import FactorSearch.Proofs.Market.Keys
import FactorSearch.Proofs.Exact.Extended
import FactorSearch.Proofs.Statistics.CountingRank
import FactorSearch.Proofs.Statistics.Symmetry
import FactorSearch.Proofs.Evaluation.Periods
import FactorSearch.Proofs.Evaluation.PaidTurnover
import FactorSearch.Proofs.Kernel.Reordering
import FactorSearch.Proofs.Evaluation.Reordering
import FactorSearch.Proofs.Evaluation.Solvency
import FactorSearch.Proofs.Training.Penalties
import FactorSearch.Proofs.Settings.Ranges
import FactorSearch.Proofs.Decimal.Written
import FactorSearch.Proofs.Text.Toml
import FactorSearch.Proofs.Settings.Documents
import FactorSearch.Proofs.Settings.RoundTrip
import FactorSearch.Proofs.Formula.Rejections
import FactorSearch.Proofs.Training.HallInvariant
import FactorSearch.Proofs.Exact.Maximum
import FactorSearch.Proofs.Double.Signs
import FactorSearch.Proofs.Double.Exponential
import FactorSearch.Proofs.Policy.MaskedWeights
import FactorSearch.Proofs.Training.FailedSteps
import FactorSearch.Proofs.Sampling.Recomputation
import FactorSearch.Proofs.Double.Missing
import FactorSearch.Proofs.Kernel.Windows
import FactorSearch.Proofs.Kernel.MissingCells
import FactorSearch.Proofs.Evaluation.MissingCells
import FactorSearch.Proofs.Text.ByteOrder
import FactorSearch.Proofs.Market.Pivot
import FactorSearch.Proofs.Statistics.RankOrder
import FactorSearch.Proofs.Double.UnitQuotients
import FactorSearch.Proofs.Exact.Images
import FactorSearch.Proofs.Kernel.CountedRanks
import FactorSearch.Proofs.Statistics.Comoments
import FactorSearch.Proofs.Statistics.Correlations
import FactorSearch.Proofs.Evaluation.InformationCoefficients
import FactorSearch.Proofs.Evaluation.Rescaling
import FactorSearch.Proofs.Statistics.LossRatio
import FactorSearch.Proofs.Statistics.Drawdown
import FactorSearch.Proofs.Training.ExactSteps
import FactorSearch.Proofs.Training.StepBudget
import FactorSearch.Proofs.Policy.AdamEstimates
import FactorSearch.Proofs.Policy.GradientNorm
import FactorSearch.Proofs.Training.Clipping
import FactorSearch.Proofs.Kernel.Normalization
import FactorSearch.Proofs.Policy.LogitGradient
import FactorSearch.Proofs.Decoding.ShortestClosing
import FactorSearch.Proofs.Decoding.InPlaceRelaxation
