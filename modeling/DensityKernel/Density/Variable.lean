import DensityKernel.Error

/-!
The five density variables. Their canonical order fixes the digits of a
derivative's name in the generated code.
-/

namespace DensityKernel

/-- Spin densities, norms of their gradients, and the scalar product of the
two gradients. -/
inductive Variable where
  | ra | rb | ga | gb | gab
deriving DecidableEq, Repr

namespace Variable

/-- All variables in canonical order. -/
def all : List Variable :=
  [ra, rb, ga, gb, gab]

/-- The symbol in a formula. -/
def name : Variable → String
  | ra => "ra"
  | rb => "rb"
  | ga => "ga"
  | gb => "gb"
  | gab => "gab"

/-- The place in the canonical order. -/
def position : Variable → Nat
  | ra => 0
  | rb => 1
  | ga => 2
  | gb => 3
  | gab => 4

/-- The C text that reads the variable at the current density point. -/
def accessor : Variable → String
  | ra => "dp->rhoa"
  | rb => "dp->rhob"
  | ga => "dp->grada"
  | gb => "dp->gradb"
  | gab => "dp->gradab"

def isGradient : Variable → Bool
  | ra | rb => false
  | ga | gb | gab => true

/-- Densities and norms are nonnegative; the scalar product may have any sign. -/
def isNonNegative : Variable → Bool
  | gab => false
  | _ => true

def ofName? (name : String) : Option Variable :=
  all.find? (·.name == name)

/-- The variable of a name that has to be one. -/
def ofName (name : String) : Except Error Variable :=
  match ofName? name with
  | some v => .ok v
  | none => .error (.invalidConfig (.unknownVariable name))

end Variable

end DensityKernel
