import DensityKernel.Elementary

/-!
Number literals. Simplification, differentiation and evaluation are stated
over any type of literals with the arithmetic of `Literal`; reading and
writing formulas need the texts of `Spelling` in addition. Programs run on
doubles (`DensityKernel.Literal.Double`), while statements about exact
arithmetic may choose another type.
-/

namespace DensityKernel

/-- The arithmetic that the library does on number literals. The comparisons
are numerical: `eq` may hold of two literals that are told apart as data. -/
class Literal (K : Type) extends Add K, Sub K, Mul K, Div K, Neg K where
  ofInt : Int → K
  /-- The base raised to the exponent. -/
  pow : K → K → K
  magnitude : K → K
  max : K → K → K
  eq : K → K → Bool
  lt : K → K → Bool
  le : K → K → Bool
  isFinite : K → Bool
  /-- Finite and without fractional part. -/
  isWhole : K → Bool
  /-- Whole and divisible by two. -/
  isEven : K → Bool
  /-- A sum of like coefficients is nothing but rounding noise, given the
  largest magnitude among the coefficients. -/
  cancels : (sum scale : K) → Bool
  pi : K
  euler : K
  /-- `2 / sqrt pi`, the slope of the error function at zero. -/
  erfSlope : K
  apply : Elementary → K → K

namespace Literal

variable {K : Type} [Literal K]

def zero : K := ofInt 0

def one : K := ofInt 1

def two : K := ofInt 2

def minusOne : K := ofInt (-1)

/-- One half. -/
def half : K := (one : K) / two

/-- Minus one half. -/
def minusHalf : K := (minusOne : K) / two

/-- One third. -/
def third : K := (one : K) / ofInt 3

/-- Minus two thirds. -/
def minusTwoThirds : K := (ofInt (-2) : K) / ofInt 3

/-- Equal to zero, of either sign. -/
def isZero (x : K) : Bool := eq x zero

def isOne (x : K) : Bool := eq x one

def isMinusOne (x : K) : Bool := eq x minusOne

def isNegative (x : K) : Bool := lt x zero

/-- At least zero. -/
def isNonNegative (x : K) : Bool := le zero x

end Literal

/-- The texts of number literals. -/
class Spelling (K : Type) where
  /-- Digits and at most a point, never an exponent. -/
  plain : K → String
  /-- The text inside a written expression. -/
  inFormula : K → String
  /-- The text of a finite literal in C code. -/
  inC : K → String
  /-- Reads the text of a number. -/
  read? : List Char → Option K

end DensityKernel
