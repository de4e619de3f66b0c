import DensityKernel.Error
import DensityKernel.Expr.Basic

/-!
The value of an expression. The arithmetic is that of the literals, in the
order in which the tree is written; nothing is reassociated.
-/

namespace DensityKernel

namespace Operator

/-- The operation on literals. -/
def onLiterals {K : Type} [Literal K] : Operator → K → K → K
  | .add => (· + ·)
  | .sub => (· - ·)
  | .mul => (· * ·)
  | .div => (· / ·)
  | .pow => Literal.pow

end Operator

namespace Expr

variable {K : Type} [Literal K]

/-- The value of a symbol: the one it is given, or that of the named constants
`pi` and `e`. -/
def symbolValue (env : String → Option K) (name : String) : Except Error K :=
  match env name with
  | some x => .ok x
  | none =>
    if name = "pi" then .ok Literal.pi
    else if name = "e" then .ok Literal.euler
    else .error (.unboundSymbol name)

/-- The value of a call with evaluated arguments. -/
def callValue (name : String) (values : List K) : Except Error K :=
  match values, Elementary.lookup? name values.length with
  | [x], some f => .ok (Literal.apply f x)
  | _, _ => .error (.unknownFunction name values.length)

mutual

/-- The value under an assignment of symbols; operands are evaluated from left
to right, and the first error is the answer. -/
def eval (env : String → Option K) : Expr K → Except Error K
  | .num x => .ok x
  | .sym name => symbolValue env name
  | .call name args => do
    let values ← evalArgs env args
    callValue name values
  | .binary op u v => do
    let x ← u.eval env
    let y ← v.eval env
    .ok (op.onLiterals x y)

def evalArgs (env : String → Option K) : List (Expr K) → Except Error (List K)
  | [] => .ok []
  | a :: args => do
    let x ← a.eval env
    let xs ← evalArgs env args
    .ok (x :: xs)

end

end Expr

end DensityKernel
