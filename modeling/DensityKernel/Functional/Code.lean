import DensityKernel.C.Statement
import DensityKernel.C.SourceFile
import DensityKernel.Functional.Basic

/-!
The C code of a functional: the energy routine, a routine for the derivatives
up to each order, and the file that holds them all.
-/

namespace DensityKernel.Functional

variable {K : Type} [Literal K] [DecidableEq K] [Spelling K]

open C

/-- A C value with the factor of the functional in front. -/
def scaled (f : Functional K) (value : String) : String :=
  if f.factor.isEmpty then value else f.factor ++ "(" ++ value ++ ")"

/-- The energy routine from the expressions of the channels, which are
simplified first. With a threshold each channel is guarded. -/
def energyText (f : Functional K) (exprs : List (Expr K)) : Except Error String := do
  let values ← exprs.mapM fun e => render .density (e.simplify .densities)
  match f.threshold, values with
  | some _, [alpha, beta] =>
    .ok (guardedEnergyFrame f.name (Text.indentLines "  " f.preamble) (f.scaled alpha) (f.scaled beta))
  | _, values =>
    let value := f.scaled (String.intercalate "+" values)
    .ok (energyFrame f.name f.preamble ("  return " ++ value ++ ";\n"))

/-- The energy routine. -/
def energyRoutine (f : Functional K) : Except Error String := do
  f.validate
  f.energyText f.exprs

/-- How the statements of the functional are written. -/
def format (f : Functional K) : StatementFormat :=
  { factor := f.factor, symbols := .density }

/-- The statements of one channel under its guard. -/
def guardedBlock (f : Functional K) (order : DerivativeOrder)
    (channel : Channel K × DerivativeTable K) : Except Error String := do
  let format : StatementFormat := { f.format with indent := "     ", separateOrders := false }
  let statements ← format.statements channel.2 order
  let single := match statements with
    | [s] => !s.isZero
    | _ => false
  let density := (channel.1.density.map Variable.accessor).getD ""
  .ok (guarded density (thresholdName f.name) (format.layout statements) single)

/-- The routine of the derivatives up to an order, from tables that reach at
least so far. -/
def derivativeText (f : Functional K) (tables : List (Channel K × DerivativeTable K))
    (order : DerivativeOrder) : Except Error String := do
  let body ←
    if f.threshold.isSome && f.isDecoupled then do
      let blocks ← tables.mapM (f.guardedBlock order)
      .ok (String.join blocks)
    else do
      let blocks ← tables.mapM fun (_, table) => f.format.block table order
      .ok (String.intercalate "\n" blocks)
  .ok (derivativeFrame f.name order body)

/-- The routine of the derivatives up to an order. -/
def derivativeRoutine (f : Functional K) (order : DerivativeOrder) : Except Error String := do
  let tables ← f.tables order
  f.derivativeText tables order

/-- The text of the threshold, if there is one. -/
def thresholdText (f : Functional K) : Except Error (Option String) :=
  match f.threshold with
  | none => .ok none
  | some t => do
    let text ← numberText t
    .ok (some text)

/-- The whole C file. All orders are written from one table of each channel. -/
def sourceFile (f : Functional K) : Except Error String := do
  let tables ← f.tables .fourth
  let threshold ← f.thresholdText
  let energy ← f.energyText (tables.map (·.1.expr))
  let routines ← DerivativeOrder.fourth.upTo.mapM (f.derivativeText tables)
  .ok (banner f.name f.title f.info ++ interface f.name f.title f.gradients
    ++ readHook f.name threshold ++ energy ++ String.join routines)

end DensityKernel.Functional
