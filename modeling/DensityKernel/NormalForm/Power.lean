import DensityKernel.Density.Variable
import DensityKernel.Expr.Basic

/-!
Rules for powers of powers and powers of products. They hold where densities
and norms are not negative, and are left out where no such assumption is made.
-/

namespace DensityKernel.NormalForm

variable {K : Type} [Literal K]

/-- Nonnegative by its structure: literals, constants, densities and norms,
magnitudes, and products and powers of those; an even power always. -/
def isNonNegative : Expr K → Bool
  | .num x => Literal.isNonNegative x
  | .sym name =>
    name == "pi" || name == "e" || ((Variable.ofName? name).map Variable.isNonNegative).getD false
  | .call name _ => name == "abs"
  | .binary .mul u v => isNonNegative u && isNonNegative v
  | .binary .pow u v => isNonNegative u || ((v.literal?).map Literal.isEven).getD false
  | .binary .add .. | .binary .sub .. | .binary .div .. => false

/-- Multiplies the exponents of a power of a power. An even inner exponent
hides the sign of the base, so where the product is not even and the sign not
known the magnitude of the base is taken. -/
def powerOfPower : Expr K → Option (Expr K)
  | .binary .pow (.binary .pow base (.num inner)) (.num outer) =>
    let combined := inner * outer
    let signHidden := Literal.isEven inner && !Literal.isEven combined && !isNonNegative base
    some (.pow (if signHidden then .call "abs" [base] else base) (.num combined))
  | _ => none

/-- Distributes an exponent over a product: a whole one always, any other only
over factors that are not negative. -/
def powerOfProduct : Expr K → Option (Expr K)
  | .binary .pow (.binary .mul u v) (.num n) =>
    if Literal.isWhole n || (isNonNegative u && isNonNegative v) then
      some (.mul (.pow u (.num n)) (.pow v (.num n)))
    else none
  | _ => none

end DensityKernel.NormalForm
