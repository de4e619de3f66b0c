import DensityKernel.Expr.Basic

/-!
Rules that look at one node and its operands. A rule returns an expression
when it applies to the node and none when it does not.
-/

namespace DensityKernel.NormalForm

variable {K : Type} [Literal K]

open DensityKernel.Expr

/-- A literal, if it is finite. -/
def finite? (x : K) : Option (Expr K) :=
  if Literal.isFinite x then some (.num x) else none

/-- Does an operation on two literals, unless the result is not finite. -/
def foldLiterals : Expr K → Option (Expr K)
  | .binary .add (.num x) (.num y) => finite? (x + y)
  | .binary .sub (.num x) (.num y) => finite? (x - y)
  | .binary .mul (.num x) (.num y) => finite? (x * y)
  | .binary .div (.num x) (.num y) => finite? (x / y)
  | .binary .pow (.num x) (.num y) => finite? (Literal.pow x y)
  | _ => none

/-- Removes neutral and absorbing operands, and the difference of two equal
expressions. -/
def dropNeutral [DecidableEq K] : Expr K → Option (Expr K)
  | .binary .add u v =>
    if u.isZero then some v else if v.isZero then some u else none
  | .binary .sub u v =>
    if v.isZero then some u
    else if u.isZero then some v.negate
    else if u = v then some zero
    else none
  | .binary .mul u v =>
    if u.isZero || v.isZero then some zero
    else if u.isOne then some v
    else if v.isOne then some u
    else none
  | .binary .div u v =>
    if v.isOne then some u else if u.isZero && !v.isZero then some zero else none
  | .binary .pow u v =>
    if v.isOne then some u else if v.isZero || u.isOne then some one else none
  | _ => none

/-- Evaluates a call on a literal when the value is a whole number; any other
value keeps the call, so that the code computes it. -/
def foldCall : Expr K → Option (Expr K)
  | .call name [.num x] => do
    let f ← Elementary.lookup? name 1
    let value := Literal.apply f x
    if Literal.isFinite value && Literal.isWhole value then some (.num value) else none
  | _ => none

/-- Makes a quotient a product with a reciprocal: the reciprocal of a literal
denominator, if it is finite, as a leading literal, any other as a power. -/
def invertDenominator : Expr K → Option (Expr K)
  | .binary .div u (.num n) =>
    let inverse := Literal.one / n
    if Literal.isFinite inverse then some (.mul (.num inverse) u) else none
  | .binary .div u v =>
    let inverse : Expr K := .pow v (.num Literal.minusOne)
    some (if u.isOne then inverse else .mul u inverse)
  | _ => none

end DensityKernel.NormalForm
