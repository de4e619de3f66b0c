import DensityKernel.Expr.Basic

/-!
Expressions in the shape in which C writes them: products are flat, and a
power with exponent minus one or minus one half is a divisor.
-/

namespace DensityKernel.C

inductive Term (K : Type) where
  | literal (value : K)
  | symbol (name : String)
  | call (name : String) (args : List (Term K))
  | sum (left right : Term K)
  | difference (left right : Term K)
  | quotient (left right : Term K)
  | power (base exponent : Term K)
  /-- One over the base, or over its square root. -/
  | reciprocal (root : Bool) (base : Term K)
  /-- Factors from left to right, none of which is a product. -/
  | product (factors : List (Term K))

namespace Term

variable {K : Type}

/-- The factors that a term contributes to a product. -/
def factors : Term K → List (Term K)
  | .product fs => fs
  | t => [t]

/-- The product of two terms. -/
def mul (u v : Term K) : Term K :=
  .product (u.factors ++ v.factors)

/-- A power; two literal exponents make it a divisor. -/
def pow [Literal K] (base exponent : Term K) : Term K :=
  match exponent with
  | .literal n =>
    if Literal.isMinusOne n then .reciprocal false base
    else if Literal.eq n Literal.minusHalf then .reciprocal true base
    else .power base exponent
  | _ => .power base exponent

/-- The term of an operation on two terms. -/
def ofOperator [Literal K] : Operator → Term K → Term K → Term K
  | .add => .sum
  | .sub => .difference
  | .mul => mul
  | .div => .quotient
  | .pow => pow

mutual

/-- The term of an expression. -/
def ofExpr [Literal K] : Expr K → Term K
  | .num x => .literal x
  | .sym name => .symbol name
  | .call name args => .call name (ofExprs args)
  | .binary op u v => ofOperator op (ofExpr u) (ofExpr v)

def ofExprs [Literal K] : List (Expr K) → List (Term K)
  | [] => []
  | a :: args => ofExpr a :: ofExprs args

end

mutual

/-- Nothing but sums, differences, products and quotients of literals; C would
compute such a term on integers if all its literals were. -/
def isNumeric : Term K → Bool
  | .literal _ => true
  | .sum u v | .difference u v | .quotient u v => u.isNumeric && v.isNumeric
  | .product fs => allNumeric fs
  | .symbol _ | .call .. | .power .. | .reciprocal .. => false

def allNumeric : List (Term K) → Bool
  | [] => true
  | f :: fs => f.isNumeric && allNumeric fs

end

/-- Stands in the denominator of a product. -/
def isDivisor : Term K → Bool
  | .reciprocal .. => true
  | _ => false

end Term

end DensityKernel.C
