import DensityKernel.Definition.Parameters
import DensityKernel.Functional.Basic

/-!
The definition of a functional as a document states it: texts of formulas,
named parameters and settings. `Definition.toFunctional` reads the formulas
and checks that the parts fit together.
-/

namespace DensityKernel

structure Definition (K : Type) where
  name : String
  decoupled : Bool := false
  /-- Whether gradients take part; found out from the formulas if absent. -/
  gradients : Option Bool := none
  cross : Bool := false
  threshold : Option K := none
  parameters : List (String × String) := []
  expression : Option String := none
  alpha : Option String := none
  beta : Option String := none
  preamble : Option String := none
  factor : Option String := none
  info : Option String := none

namespace Channels

/-- A gradient variable occurs in some expression. -/
def usesGradients {K : Type} (channels : Channels K) : Bool :=
  let uses (e : Expr K) : Bool := Variable.all.any fun v => v.isGradient && e.mentions v.name
  match channels with
  | .coupled e => uses e
  | .decoupled alpha beta => uses alpha || uses beta

end Channels

namespace Definition

variable {K : Type} [Literal K] [Spelling K]

/-- Reads a formula and expands the parameters in it. -/
def load (parameters : Parameters K) (text : String) : Except Error (Expr K) := do
  let e ← Expr.parse text
  .ok (parameters.expand e)

/-- The channels: one expression, or one for each spin, and not both. -/
def channels (d : Definition K) (parameters : Parameters K) : Except Error (Channels K) :=
  match d.decoupled, d.expression, d.alpha, d.beta with
  | false, some e, none, none => do
    let e ← load parameters e
    .ok (.coupled e)
  | true, none, some alpha, some beta => do
    let alpha ← load parameters alpha
    let beta ← load parameters beta
    .ok (.decoupled alpha beta)
  | false, _, _, _ => .error (.invalidConfig .coupledNeedsExpression)
  | true, _, _, _ => .error (.invalidConfig .decoupledNeedsChannels)

/-- The functional that a definition stands for. -/
def toFunctional (d : Definition K) : Except Error (Functional K) := do
  let texts ← Parameters.ofTexts d.parameters
  let parameters ← texts.resolve
  let channels ← d.channels parameters
  let functional : Functional K := {
    title := d.name
    channels := channels
    gradients := d.gradients.getD channels.usesGradients
    cross := d.cross
    threshold := d.threshold
    preamble := d.preamble.getD ""
    factor := d.factor.getD ""
    info := d.info.getD "" }
  functional.validate
  .ok functional

end Definition

end DensityKernel
