import DensityKernel.Error
import DensityKernel.Expr.Basic

/-!
Symbolic derivatives. Sums and products with a literal zero or one are not
built, so a derivative that vanishes identically in the tree is the literal
zero; beyond that nothing is simplified here.
-/

namespace DensityKernel

variable {K : Type} [Literal K]

namespace Expr

/-! ### Products and sums without zeros and ones -/

/-- The product, unless a factor is a literal zero or one. -/
def times (u v : Expr K) : Expr K :=
  if u.isZero || v.isZero then zero
  else if u.isOne then v
  else if v.isOne then u
  else .mul u v

/-- The sum, unless a term is a literal zero. -/
def plus (u v : Expr K) : Expr K :=
  if u.isZero then v else if v.isZero then u else .add u v

/-- The difference, unless a term is a literal zero. -/
def minus (u v : Expr K) : Expr K :=
  if v.isZero then u else if u.isZero then v.negate else .sub u v

/-- The square. -/
def squared (u : Expr K) : Expr K := .pow u (.num Literal.two)

/-- The reciprocal as a power. -/
def inverted (u : Expr K) : Expr K := .pow u (.num Literal.minusOne)

end Expr

namespace Elementary

open DensityKernel.Expr DensityKernel.Literal

/-- The call of a function. -/
def of (f : Elementary) (u : Expr K) : Expr K := .call f.name [u]

/-- The derivative of a function, as an expression in its argument. -/
def slope : Elementary → Expr K → Expr K
  | exp, u => exp.of u
  | ln, u | log, u => u.inverted
  | sqrt, u => .mul (.num half) (.pow u (.num minusHalf))
  | cbrt, u => .mul (.num third) (.pow u (.num minusTwoThirds))
  | sin, u => cos.of u
  | cos, u => times (.num minusOne) (sin.of u)
  | tan, u => .add one (tan.of u).squared
  | atan, u => (Expr.add one u.squared).inverted
  | sinh, u => cosh.of u
  | cosh, u => sinh.of u
  | tanh, u => .sub one (tanh.of u).squared
  | asinh, u => .pow (.add one u.squared) (.num minusHalf)
  | erf, u => .mul (.num erfSlope) (exp.of (times (.num minusOne) u.squared))
  | abs, u => .mul u (abs.of u).inverted

end Elementary

namespace Expr

open DensityKernel.Literal

/-! ### Rules -/

/-- The chain rule for a call with the derivatives of its arguments. -/
def callDerivative (f : Elementary) (args derivatives : List (Expr K)) : Expr K :=
  if derivatives.all isZero then zero
  else
    match args, derivatives with
    | [u], [du] => times (f.slope u) du
    | _, _ => zero

/-- `u * v`, given the derivatives of both. -/
def productDerivative (u v du dv : Expr K) : Expr K :=
  plus (times du v) (times dv u)

/-- The numerator of the quotient rule. A first product that vanishes leaves the
second one with a minus, even if that vanishes too. -/
def quotientNumerator (p q : Expr K) : Expr K :=
  if p.isZero then q.negate else if q.isZero then p else .sub p q

/-- `u / v`, given the derivatives of both. -/
def quotientDerivative (u v du dv : Expr K) : Expr K :=
  if du.isZero && dv.isZero then zero
  else if dv.isZero then if v.isOne then du else .div du v
  else .div (quotientNumerator (times du v) (times dv u)) v.squared

/-- `u ^ v` for an exponent without the variable, given the derivative of the
base. -/
def powerDerivative (u v du : Expr K) : Expr K :=
  let scaled (lowered : Expr K) : Expr K := if du.isOne then lowered else .mul lowered du
  if du.isZero then zero
  else
    match v with
    | .num n =>
      if Literal.isZero n then zero
      else if Literal.isOne n then du
      else .mul v (scaled (.pow u (.num (n - Literal.one))))
    | v => .mul v (scaled (.pow u (.sub v one)))

/-- `u ^ v` in general: the power times the derivative of `v * ln u`. The
logarithm of the constant `e` is one. -/
def exponentialDerivative (u v du dv : Expr K) : Expr K :=
  let ofExponent : Expr K :=
    if dv.isZero then zero
    else if u.symbol? = some "e" then dv
    else .mul dv (Elementary.ln.of u)
  let ofBase : Expr K := if du.isZero then zero else .mul v (.div du u)
  let total := plus ofExponent ofBase
  if total.isZero then zero else .mul (.pow u v) total

mutual

/-- The derivative with respect to a symbol. It fails only on a call that is
not registered with its number of arguments; an exponent without the variable
is not looked into. -/
def derive (name : String) : Expr K → Except Error (Expr K)
  | .num _ => .ok zero
  | .sym s => .ok (if s = name then one else zero)
  | .call f args =>
    match Elementary.lookup? f args.length with
    | none => .error (.unknownFunction f args.length)
    | some function => do
      let derivatives ← deriveArgs name args
      .ok (callDerivative function args derivatives)
  | .binary .add u v => do
    let du ← derive name u
    let dv ← derive name v
    .ok (plus du dv)
  | .binary .sub u v => do
    let du ← derive name u
    let dv ← derive name v
    .ok (minus du dv)
  | .binary .mul u v => do
    let du ← derive name u
    let dv ← derive name v
    .ok (productDerivative u v du dv)
  | .binary .div u v => do
    let du ← derive name u
    let dv ← derive name v
    .ok (quotientDerivative u v du dv)
  | .binary .pow u v =>
    if v.mentions name then do
      let du ← derive name u
      let dv ← derive name v
      .ok (exponentialDerivative u v du dv)
    else do
      let du ← derive name u
      .ok (powerDerivative u v du)

def deriveArgs (name : String) : List (Expr K) → Except Error (List (Expr K))
  | [] => .ok []
  | a :: args => do
    let d ← derive name a
    let ds ← deriveArgs name args
    .ok (d :: ds)

end

end Expr

end DensityKernel
