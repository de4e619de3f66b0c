import DensityKernel.Density.Variable
import DensityKernel.Formula.Parser

/-!
Named subexpressions. Parameters may mention each other; resolving them
replaces every mention, one level of nesting at a time, until none is left.
That many rounds as there are parameters are enough unless they refer to each
other in a cycle.
-/

namespace DensityKernel

/-- Parameter names with their expressions. -/
abbrev Parameters (K : Type) := List (String × Expr K)

namespace Parameters

variable {K : Type}

/-- Replaces the parameters in an expression, one after the other. -/
def expand (parameters : Parameters K) (e : Expr K) : Expr K :=
  parameters.foldl (fun e (name, value) => e.substitute name value) e

/-- An expression mentions a parameter. -/
def mentioned (parameters : Parameters K) (e : Expr K) : Bool :=
  parameters.any fun (name, _) => e.mentions name

/-- No parameter mentions a parameter. -/
def isResolved (parameters : Parameters K) : Bool :=
  !parameters.any fun (_, value) => parameters.mentioned value

/-- Replaces the parameters in every parameter. -/
def expandAll (parameters : Parameters K) : Parameters K :=
  parameters.map fun (name, value) => (name, parameters.expand value)

/-- Expands until nothing is left to expand, for a number of rounds. -/
def resolveWithin : (rounds : Nat) → Parameters K → Except Error (Parameters K)
  | 0, _ => .error (.invalidConfig .parameterCycle)
  | rounds + 1, parameters =>
    if parameters.isResolved then .ok parameters else resolveWithin rounds parameters.expandAll

/-- Expands all mentions of parameters in parameters. -/
def resolve (parameters : Parameters K) : Except Error (Parameters K) :=
  resolveWithin (parameters.length + 1) parameters

/-- Reads the text of one parameter. Its name must not hide a variable. -/
def read [Literal K] [Spelling K] (name text : String) : Except Error (String × Expr K) := do
  if (Variable.ofName? name).isSome then .error (.invalidConfig (.shadowedVariable name))
  else do
    let value ← Expr.parse text
    .ok (name, value)

/-- Reads parameter texts in the order of their names. -/
def ofTexts [Literal K] [Spelling K] (texts : List (String × String)) :
    Except Error (Parameters K) :=
  (texts.mergeSort fun a b => decide (a.1 ≤ b.1)).mapM fun (name, text) => read name text

end Parameters

end DensityKernel
