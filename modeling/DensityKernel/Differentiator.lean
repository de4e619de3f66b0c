import DensityKernel.Expr.Derivative
import DensityKernel.NormalForm.Passes

/-!
Differentiation with options: whether derivatives are simplified and under
which assumption, and limits on the size of trees.
-/

namespace DensityKernel

structure Differentiator where
  simplify : Bool := true
  domain : Domain := .densities
  maxDepth : Option Nat := none
  maxNodes : Option Nat := none
deriving DecidableEq, Repr

namespace Differentiator

variable {K : Type} [Literal K]

/-- The tree is within the limits; the depth is looked at first. -/
def checkLimits (d : Differentiator) (e : Expr K) : Except Error Unit :=
  if d.maxDepth.any (· < e.depth) then .error .depthLimit
  else if d.maxNodes.any (· < e.size) then .error .nodeLimit
  else .ok ()

/-- Simplifies a derivative if that is asked for. -/
def finish [DecidableEq K] [Spelling K] (d : Differentiator) (e : Expr K) : Expr K :=
  if d.simplify then e.simplify d.domain else e

/-- The derivative with respect to a symbol. The limits hold for the expression
and for the result. -/
def differentiate [DecidableEq K] [Spelling K] (d : Differentiator) (e : Expr K) (name : String) :
    Except Error (Expr K) := do
  d.checkLimits e
  let raw ← e.derive name
  let derivative := d.finish raw
  d.checkLimits derivative
  .ok derivative

end Differentiator

end DensityKernel
