import Mathpad.Binary.Value
import Mathpad.Main
import Mathpad.Proofs.ClosedEvaluation
import Mathpad.Proofs.Idempotence
import Mathpad.Proofs.PolynomialSimplify
import Mathpad.Proofs.Termination
import Mathpad.Proofs.Rearrangement
import Mathpad.Proofs.Grammar
import Mathpad.Proofs.Literals
import Mathpad.Proofs.Reading
import Mathpad.Proofs.Refusals
import Mathpad.Proofs.Upgrading
import Mathpad.Proofs.Leaves
import Mathpad.Proofs.StoredNumbers
import Mathpad.Proofs.Pieces
import Mathpad.Proofs.TypedRows
import Mathpad.Proofs.TypedTerms
import Mathpad.Proofs.Nesting
import Mathpad.Proofs.Spelling
import Mathpad.Proofs.Figures
import Mathpad.Proofs.Printing
import Mathpad.Proofs.Accuracy
import Mathpad.Proofs.ReadBack
import Mathpad.Proofs.NodeValues
import Mathpad.Proofs.RealPowers
import Mathpad.Proofs.Monomials
import Mathpad.Proofs.MonomialReduction
import Mathpad.Proofs.MonomialSimplify
import Mathpad.Proofs.Compilation
import Mathpad.Proofs.Encoding
import Mathpad.Proofs.Writing
import Mathpad.Proofs.TextFaults
import Mathpad.Proofs.TypedExpressions
import Mathpad.Proofs.Strokes
import Mathpad.Proofs.Evaluation
import Mathpad.Proofs.Answers
import Mathpad.Proofs.Everywhere
import Mathpad.Proofs.Decoding
import Mathpad.Proofs.Paths
import Mathpad.Proofs.Actions
import Mathpad.Proofs.Steps
import Mathpad.Proofs.Movements
import Mathpad.Proofs.Editing
import Mathpad.Proofs.KeyScripts
import Mathpad.Proofs.Saving
import Mathpad.Proofs.Extents
import Mathpad.Proofs.Alike
import Mathpad.Proofs.Notations
import Mathpad.Proofs.Cells
import Mathpad.Proofs.Separation
import Mathpad.Proofs.Painting
import Mathpad.Proofs.Visibility
import Mathpad.Proofs.Cropping
import Mathpad.Proofs.Grouping
import Mathpad.Proofs.ExplicitRows
import Mathpad.Proofs.LiteralDrawing
import Mathpad.Proofs.Appearance
import Mathpad.Proofs.LoadedRows
import Mathpad.Proofs.CursorGlyphs
import Mathpad.Proofs.Scrolling
import Mathpad.Proofs.InRange
import Mathpad.Proofs.Arithmetic
import Mathpad.Proofs.Representable
import Mathpad.Proofs.Calculations
import Mathpad.Proofs.PlainNotation
import Mathpad.Proofs.ResultRows
import Mathpad.Proofs.Doubles
import Mathpad.Proofs.Curves
import Mathpad.Proofs.Windows
import Mathpad.Proofs.Conversations
import Mathpad.Proofs.Exactness
import Mathpad.Proofs.Preorder
import Mathpad.Proofs.Ties
import Mathpad.Proofs.ZeroFactors
import Mathpad.Proofs.NormalForm
import Mathpad.Proofs.HalfEven
import Mathpad.Proofs.Subtraction
import Mathpad.Proofs.WholePowers
import Mathpad.Proofs.SeriesBounds
import Mathpad.Proofs.ApproximatePowers
import Mathpad.Proofs.FractionalPowers
import Mathpad.Proofs.SquareRoots
import Mathpad.Proofs.NoiseTwice
import Mathpad.Proofs.NearbyFractions
import Mathpad.Proofs.Contagion
import Mathpad.Proofs.NumberBytes
import Mathpad.Proofs.Deletion
import Mathpad.Proofs.Undoing
import Mathpad.Proofs.Baselines
import Mathpad.Proofs.Landing
import Mathpad.Proofs.ArgumentCounts
import Mathpad.Proofs.MatchedPlaces
import Mathpad.Proofs.Partners
import Mathpad.Proofs.PlainReading
import Mathpad.Proofs.Blame
import Mathpad.Proofs.Failures
