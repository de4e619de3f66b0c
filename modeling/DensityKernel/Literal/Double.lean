import DensityKernel.Literal
import DensityKernel.Number.CubeRoot
import DensityKernel.Number.Reading
import DensityKernel.Number.SpecialFunctions

/-!
Doubles as number literals: IEEE arithmetic, the elementary functions of the
C mathematics library, and shortest decimal texts.
-/

namespace DensityKernel

namespace Elementary

/-- The value of an elementary function at a double. -/
def onFloat : Elementary → Float → Float
  | exp => Float.exp
  | ln | log => Float.log
  | sqrt => Float.sqrt
  | cbrt => Number.cubeRoot
  | sin => Float.sin
  | cos => Float.cos
  | tan => Float.tan
  | atan => Float.atan
  | sinh => Float.sinh
  | cosh => Float.cosh
  | tanh => Float.tanh
  | asinh => Number.asinh
  | erf => Number.erf
  | abs => Float.abs

end Elementary

/-- At most `1e-12` of the scale is left of the sum. NaN and a comparison with
an infinite scale count as cancelled. -/
def Double.cancels (sum scale : Double) : Bool :=
  !decide (sum.toFloat.abs > 1e-12 * scale.toFloat)

instance : Literal Double where
  ofInt n := .ofFloat (.ofInt n)
  pow x y := .ofFloat (x.toFloat.pow y.toFloat)
  magnitude := Double.magnitude
  max := Double.larger
  eq x y := x.toFloat == y.toFloat
  lt x y := decide (x.toFloat < y.toFloat)
  le x y := decide (x.toFloat ≤ y.toFloat)
  isFinite x := x.toFloat.isFinite
  isWhole := Double.isWhole
  isEven := Double.isEven
  cancels := Double.cancels
  pi := .ofFloat 3.141592653589793
  euler := .ofFloat 2.718281828459045
  erfSlope := .ofFloat 1.1283791670955126
  apply f := Double.map f.onFloat

/-- In a formula whole numbers of magnitude below `1e10` have no point and a
negative zero no sign; infinities and NaN have names. In C the bound is `1e15`
and any other number has a point or an exponent. -/
instance : Spelling Double where
  plain := Number.positional
  inFormula x :=
    match x.value with
    | .nan => "NaN"
    | .infinite negative => if negative then "-Infinity" else "Infinity"
    | .finite _ => Number.wholeBelow (Nat.pow 10 10) Number.positional x
  inC := Number.wholeBelow (Nat.pow 10 15) Number.selfTyped
  read? := Number.read?

end DensityKernel
