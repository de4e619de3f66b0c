import DensityKernel.C.SourceFile
import DensityKernel.C.Statement
import DensityKernel.C.SymbolMap
import DensityKernel.C.Term
import DensityKernel.C.Text
import DensityKernel.C.ZeroLines
import DensityKernel.Definition.Basic
import DensityKernel.Definition.Parameters
import DensityKernel.Definition.Reader
import DensityKernel.Density.DerivativeTable
import DensityKernel.Density.MultiIndex
import DensityKernel.Density.Variable
import DensityKernel.Density.VariableList
import DensityKernel.Differentiator
import DensityKernel.Elementary
import DensityKernel.Error
import DensityKernel.Expr.Basic
import DensityKernel.Expr.Derivative
import DensityKernel.Expr.Evaluation
import DensityKernel.Expr.Printer
import DensityKernel.Formula.Lexer
import DensityKernel.Formula.Parser
import DensityKernel.Formula.Token
import DensityKernel.Functional.Basic
import DensityKernel.Functional.Code
import DensityKernel.Functional.Values
import DensityKernel.Literal
import DensityKernel.Literal.Double
import DensityKernel.NormalForm.Factors
import DensityKernel.NormalForm.Local
import DensityKernel.NormalForm.Passes
import DensityKernel.NormalForm.Power
import DensityKernel.NormalForm.Terms
import DensityKernel.Number.Binary
import DensityKernel.Number.CubeRoot
import DensityKernel.Number.Decimal
import DensityKernel.Number.Double
import DensityKernel.Number.Notation
import DensityKernel.Number.Reading
import DensityKernel.Number.SpecialFunctions
import DensityKernel.Span
import DensityKernel.Text.Blank
import DensityKernel.Text.Lines
import DensityKernel.Yaml.BlockScalar
import DensityKernel.Yaml.Document
import DensityKernel.Yaml.Placed
import DensityKernel.Yaml.Scalar
import DensityKernel.Proofs.Reals.Functions
import DensityKernel.Proofs.Reals.Literal
import DensityKernel.Proofs.Reals.Meaning
import DensityKernel.Proofs.Derivative.Steps
import DensityKernel.Proofs.Derivative.Regular
import DensityKernel.Proofs.Derivative.Partial
import DensityKernel.Proofs.Derivative.Definedness
import DensityKernel.Proofs.NormalForm.Local
import DensityKernel.Proofs.NormalForm.Power
import DensityKernel.Proofs.NormalForm.Factors
import DensityKernel.Proofs.NormalForm.Terms
import DensityKernel.Proofs.NormalForm.Passes
import DensityKernel.Proofs.Density.MultiIndex
import DensityKernel.Proofs.Density.SortedPath
import DensityKernel.Proofs.Density.DerivativeTable
import DensityKernel.Proofs.Number.Bits
import DensityKernel.Proofs.Number.RealValue
import DensityKernel.Proofs.C.Grammar
import DensityKernel.Proofs.C.Chain
import DensityKernel.Proofs.C.Literal
import DensityKernel.Proofs.C.Text
import DensityKernel.Proofs.C.Product
import DensityKernel.Proofs.C.Grouping
import DensityKernel.Proofs.Number.Numeral
import DensityKernel.Proofs.C.Rendering
import DensityKernel.Proofs.Formula.Grammar
import DensityKernel.Proofs.Formula.Parser
import DensityKernel.Proofs.Formula.Token
import DensityKernel.Proofs.Formula.Literal
import DensityKernel.Proofs.Formula.Text
import DensityKernel.Proofs.Expr.Symbols
import DensityKernel.Proofs.Formula.Names
import DensityKernel.Proofs.C.Characters
import DensityKernel.Proofs.Text.Lines
import DensityKernel.Proofs.C.Routine
import DensityKernel.Proofs.Functional.Slots
import DensityKernel.Proofs.Expr.Registered
import DensityKernel.Proofs.Reals.RootPower
import DensityKernel.Proofs.Smooth.Basic
import DensityKernel.Proofs.Smooth.Derivative
import DensityKernel.Proofs.Definition.Loading
import DensityKernel.Proofs.Density.Registered
import DensityKernel.Proofs.Density.MixedPartials
import DensityKernel.Proofs.Functional.Foreign
import DensityKernel.Proofs.Functional.Parts
import DensityKernel.Proofs.Density.Resumption
import DensityKernel.Proofs.Formula.Completion
import DensityKernel.Proofs.Functional.Spins
import DensityKernel.Proofs.C.Division
import DensityKernel.Proofs.NormalForm.Cancellation
import DensityKernel.Proofs.NormalForm.Rewriting
import DensityKernel.Proofs.NormalForm.Overflow
import DensityKernel.Proofs.C.Checked
import DensityKernel.Proofs.Formula.Numerals
import DensityKernel.Proofs.Formula.Lexing
import DensityKernel.Proofs.Number.Laws
import DensityKernel.Proofs.NormalForm.Nodes
import DensityKernel.Proofs.NormalForm.Commutation
import DensityKernel.Proofs.NormalForm.Settling
import DensityKernel.Proofs.NormalForm.Tidy
import DensityKernel.Proofs.NormalForm.Weight
import DensityKernel.Proofs.NormalForm.Lighter
import DensityKernel.Proofs.NormalForm.Descent
import DensityKernel.Proofs.NormalForm.Idempotence
import DensityKernel.Proofs.NormalForm.Tower
import DensityKernel.Proofs.C.ZeroLines
import DensityKernel.Proofs.Density.Orders
import DensityKernel.Proofs.C.OrderBands
import DensityKernel.Proofs.NormalForm.Quotients
