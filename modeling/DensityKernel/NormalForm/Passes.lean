import DensityKernel.NormalForm.Local
import DensityKernel.NormalForm.Power
import DensityKernel.NormalForm.Terms

/-!
Normal forms. A pass simplifies the operands of every node before the node
itself, with the rules that belong to the node in a fixed order; passes are
repeated until one changes nothing or comes back to an earlier tree.
-/

namespace DensityKernel

/-- What may be assumed about the values of symbols. -/
inductive Domain where
  /-- Densities and norms of gradients are not negative. -/
  | densities
  | anywhere
deriving DecidableEq, Repr

namespace NormalForm

variable {K : Type} [Literal K] [DecidableEq K] [Spelling K]

/-- The rules for a node with the given operator, in the order in which they
are tried. Each sees what the one before has made of the node. -/
def rules (domain : Domain) : Operator → List (Expr K → Option (Expr K))
  | .add | .sub => [foldLiterals, dropNeutral, collectTerms]
  | .mul => [foldLiterals, dropNeutral, collectFactors]
  | .div => [foldLiterals, dropNeutral, invertDenominator]
  | .pow =>
    match domain with
    | .densities => [foldLiterals, dropNeutral, powerOfPower, powerOfProduct]
    | .anywhere => [foldLiterals, dropNeutral]

/-- Tries the rules one after the other. -/
def applyRules (rules : List (Expr K → Option (Expr K))) (e : Expr K) : Expr K :=
  rules.foldl (fun e rule => (rule e).getD e) e

mutual

/-- One pass over a tree. -/
def pass (domain : Domain) : Expr K → Expr K
  | .num x => .num x
  | .sym name => .sym name
  | .call name args => applyRules [foldCall] (.call name (passArgs domain args))
  | .binary op u v => applyRules (rules domain op) (.binary op (pass domain u) (pass domain v))

def passArgs (domain : Domain) : List (Expr K) → List (Expr K)
  | [] => []
  | a :: args => pass domain a :: passArgs domain args

end

/-- Repeats a function until it changes nothing, or gives a result that it gave
before, or the limit is reached. -/
def settle (f : Expr K → Expr K) : (limit : Nat) → (seen : List (Expr K)) → Expr K → Expr K
  | 0, _, e => e
  | limit + 1, seen, e =>
    let next := f e
    if next = e then e
    else if next ∈ seen then next
    else settle f limit (next :: seen) next

/-- The limit on passes over one tree. -/
def passLimit : Nat := 1000

end NormalForm

/-- The normal form of an expression under an assumption on its symbols. -/
def Expr.simplify {K : Type} [Literal K] [DecidableEq K] [Spelling K] (domain : Domain)
    (e : Expr K) : Expr K :=
  NormalForm.settle (NormalForm.pass domain) NormalForm.passLimit [] e

end DensityKernel
