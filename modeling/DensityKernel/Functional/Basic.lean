import DensityKernel.Density.DerivativeTable

/-!
Functionals: one formula in all density variables, or one for each spin. The
checks of `Functional.validate` come before any work on the formulas.
-/

namespace DensityKernel

/-- How the energy is made up. -/
inductive Channels (K : Type) where
  /-- One expression in all variables. -/
  | coupled (e : Expr K)
  /-- Independent expressions for the two spins. -/
  | decoupled (alpha beta : Expr K)

/-- The density variables at one point in space. -/
structure DensityPoint (K : Type) where
  ra : K
  rb : K
  ga : K
  gb : K
  gab : K

namespace DensityPoint

variable {K : Type}

/-- The value of a variable. -/
def value (point : DensityPoint K) : Variable → K
  | .ra => point.ra
  | .rb => point.rb
  | .ga => point.ga
  | .gb => point.gb
  | .gab => point.gab

/-- The point as an assignment of symbols. -/
def assignment (point : DensityPoint K) (name : String) : Option K :=
  (Variable.ofName? name).map point.value

end DensityPoint

/-- An expression with the variables that it is differentiated against. -/
structure Channel (K : Type) where
  expr : Expr K
  vars : VariableList
  /-- The density that is held against the threshold. -/
  density : Option Variable

structure Functional (K : Type) where
  title : String
  channels : Channels K
  /-- Gradient variables take part. -/
  gradients : Bool := false
  /-- The scalar product of the gradients takes part. -/
  cross : Bool := false
  /-- A channel counts only where its density is above. -/
  threshold : Option K := none
  /-- C declarations for the energy routine. -/
  preamble : String := ""
  /-- C text in front of every value. -/
  factor : String := ""
  /-- Text for the banner. -/
  info : String := ""
  differentiator : Differentiator := {}

/-- A letter or an underscore, then letters, digits and underscores. -/
def isIdentifier (s : String) : Bool :=
  match s.toList with
  | [] => false
  | c :: cs => (c.isAlpha || c == '_') && cs.all fun c => c.isAlphanum || c == '_'

namespace Functional

variable {K : Type}

/-- The name of the C routines. -/
def name (f : Functional K) : String :=
  f.title.map Char.toLower

def isDecoupled (f : Functional K) : Bool :=
  match f.channels with
  | .coupled _ => false
  | .decoupled .. => true

/-- The expressions of the channels. -/
def exprs (f : Functional K) : List (Expr K) :=
  match f.channels with
  | .coupled e => [e]
  | .decoupled alpha beta => [alpha, beta]

/-- The channels with their variables. -/
def channelList (f : Functional K) : Except Error (List (Channel K)) :=
  match f.channels with
  | .coupled e => do
    let vars ← VariableList.coupled f.gradients f.cross
    .ok [⟨e, vars, none⟩]
  | .decoupled alpha beta =>
    .ok [⟨alpha, .alpha f.gradients, some .ra⟩, ⟨beta, .beta f.gradients, some .rb⟩]

end Functional

/-- A density variable in the expression of a channel that is not among its
variables. -/
def Channel.foreign? {K : Type} (c : Channel K) : Option Variable :=
  (c.expr.symbols.filterMap Variable.ofName?).find? fun v => !c.vars.contains v

namespace Functional

variable {K : Type} [Literal K] [Spelling K]

/-- The check of the threshold. -/
def checkThreshold (f : Functional K) : Except Error Unit :=
  match f.threshold with
  | none => .ok ()
  | some t =>
    if !f.isDecoupled then .error (.invalidConfig .thresholdWithoutChannels)
    else if Literal.isFinite t && Literal.isNonNegative t then .ok ()
    else .error (.invalidConfig (.badThreshold (Spelling.plain t)))

/-- The check of the variables of one channel. -/
def checkChannel (c : Channel K) : Except Error Unit :=
  match c.foreign? with
  | none => .ok ()
  | some v => .error (.invalidConfig (.foreignVariable v.name c.vars.text))

/-- Refuses what has no place in the C interface. The first fault found is the
error: the title, the cross term, the threshold, the channels one by one. -/
def validate (f : Functional K) : Except Error Unit := do
  if !isIdentifier f.title then .error (.invalidConfig (.notIdentifier f.title))
  else if f.isDecoupled && f.cross then .error (.invalidConfig .crossWithoutCoupling)
  else do
    f.checkThreshold
    let channels ← f.channelList
    channels.forM checkChannel

/-- The derivatives of every channel up to an order. -/
def tables [DecidableEq K] (f : Functional K) (order : DerivativeOrder) :
    Except Error (List (Channel K × DerivativeTable K)) := do
  f.validate
  let channels ← f.channelList
  channels.mapM fun c => do
    let (table, outcome) := DerivativeTable.extendTo ⟨c.expr, c.vars, f.differentiator, []⟩ order
    outcome
    .ok (c, table)

end Functional

end DensityKernel
