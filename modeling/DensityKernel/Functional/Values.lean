import DensityKernel.Expr.Evaluation
import DensityKernel.Functional.Basic

/-!
The energy of a functional and its derivatives as numbers at a density point.
A channel whose density is not above the threshold counts for nothing.
-/

namespace DensityKernel.Functional

variable {K : Type} [Literal K] [Spelling K]

/-- The channel counts at the point. -/
def isActive (f : Functional K) (c : Channel K) (point : DensityPoint K) : Bool :=
  match f.threshold, c.density with
  | some t, some density => Literal.lt t (point.value density)
  | _, _ => true

/-- A factor in front of the energy is C text and has no value. -/
def checkFactor (f : Functional K) : Except Error Unit :=
  if f.factor.isEmpty then .ok () else .error (.invalidConfig (.symbolicFactor f.factor))

/-- The energy density at a point. -/
def energyAt (f : Functional K) (point : DensityPoint K) : Except Error K := do
  f.validate
  f.checkFactor
  let channels ← f.channelList
  channels.foldlM (fun total c =>
    if f.isActive c point then do
      let value ← c.expr.eval point.assignment
      .ok (total + value)
    else .ok total) Literal.zero

/-- The values of a channel's derivatives up to an order. -/
def slotValues (table : DerivativeTable K) (order : DerivativeOrder) (point : DensityPoint K) :
    Except Error (List (MultiIndex × K)) :=
  (table.upTo order).mapM fun (index, e) => do
    let value ← e.eval point.assignment
    .ok (index, value)

/-- The derivatives up to an order at a point, by channel. -/
def derivativesAt [DecidableEq K] (f : Functional K) (order : DerivativeOrder)
    (point : DensityPoint K) : Except Error (List (MultiIndex × K)) := do
  f.checkFactor
  let tables ← f.tables order
  let values ← (tables.filter fun (c, _) => f.isActive c point).mapM fun (_, table) =>
    slotValues table order point
  .ok values.flatten

end DensityKernel.Functional
