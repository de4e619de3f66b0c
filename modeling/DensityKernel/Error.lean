import DensityKernel.Span

/-!
Everything that can go wrong, as causes. `Error.message` is the one place that
words them; `Error.isConfiguration` tells the faults of a request or a
definition from those of a formula.
-/

namespace DensityKernel

/-- Why an expression has no C text. -/
inductive RenderFault where
  /-- A literal that is NaN or infinite, in positional notation. -/
  | nonFinite (literal : String)
  /-- A call that is not registered with its number of arguments. -/
  | noFunction (name : String)
  | other (reason : String)
deriving DecidableEq, Repr

namespace RenderFault

def reason : RenderFault → String
  | .nonFinite literal => s!"non-finite number {literal}"
  | .noFunction name => s!"no C function for '{name}'"
  | .other reason => reason

end RenderFault

/-- Why a functional, a variable list or a definition is refused. -/
inductive ConfigFault where
  | unknownVariable (name : String)
  | noVariables
  | repeatedVariable (name : String)
  /-- The cross-gradient variable without the gradient variables. -/
  | crossWithoutGradients
  | notIdentifier (title : String)
  /-- The cross-gradient variable in a functional of separate spin channels. -/
  | crossWithoutCoupling
  /-- A density threshold on a functional with one coupled channel. -/
  | thresholdWithoutChannels
  | badThreshold (value : String)
  | foreignVariable (name : String) (allowed : String)
  /-- Numbers asked of a functional whose energy has a C factor in front. -/
  | symbolicFactor (factor : String)
  | shadowedVariable (name : String)
  | parameterCycle
  | coupledNeedsExpression
  | decoupledNeedsChannels
  | other (reason : String)
deriving DecidableEq, Repr

namespace ConfigFault

def reason : ConfigFault → String
  | .unknownVariable name => s!"unknown variable '{name}'"
  | .noVariables => "variable list is empty"
  | .repeatedVariable name => s!"variable '{name}' listed twice"
  | .crossWithoutGradients => "cross-gradient term requires gradient variables"
  | .notIdentifier title => s!"'{title}' is not a valid C identifier"
  | .crossWithoutCoupling => "decoupled functionals have no cross-gradient term"
  | .thresholdWithoutChannels => "a density threshold needs decoupled channels"
  | .badThreshold value => s!"invalid threshold {value}"
  | .foreignVariable name allowed => s!"expression uses '{name}' outside its variables {allowed}"
  | .symbolicFactor factor => "prefix '" ++ factor ++ "' cannot be evaluated numerically"
  | .shadowedVariable name => s!"parameter '{name}' shadows a density variable"
  | .parameterCycle => "parameters refer to each other in a cycle"
  | .coupledNeedsExpression => "a coupled functional needs 'expression' and no 'alpha'/'beta'"
  | .decoupledNeedsChannels =>
    "a decoupled functional needs 'alpha' and 'beta' and no 'expression'"
  | .other reason => reason

end ConfigFault

inductive Error where
  | emptyFormula
  | invalidNumber (text : String) (span : Option Span)
  | invalidToken (text : String) (span : Option Span)
  | unexpectedToken (expected got : String) (span : Option Span)
  | unexpectedEnd
  | unknownFunction (name : String) (arity : Nat)
  | notDifferentiable (expr variableName : String)
  | depthLimit
  | nodeLimit
  | unrenderable (fault : RenderFault)
  | unboundSymbol (name : String)
  | invalidOrder (order : Nat)
  | invalidConfig (fault : ConfigFault)
  /-- A definition document that cannot be read. -/
  | unreadable (reason : String)
deriving DecidableEq, Repr

namespace Error

/-- The place in the formula, if the error has one. -/
def span? : Error → Option Span
  | .invalidNumber _ span | .invalidToken _ span | .unexpectedToken _ _ span => span
  | _ => none

/-- The position as it ends a message. -/
def place (span : Option Span) : String :=
  (span.map Span.text).getD ""

def message : Error → String
  | .emptyFormula => "Formula cannot be empty"
  | .invalidNumber text span => s!"Invalid number format: '{text}'" ++ place span
  | .invalidToken text span => s!"Invalid token: '{text}'" ++ place span
  | .unexpectedToken expected got span => s!"Expected '{expected}', but got '{got}'" ++ place span
  | .unexpectedEnd => "Unexpected end of input"
  | .unknownFunction name arity => s!"Unknown function '{name}' with {arity} argument(s)"
  | .notDifferentiable expr variableName =>
    s!"Cannot differentiate '{expr}' with respect to '{variableName}'"
  | .depthLimit => "Expression nesting depth exceeds maximum limit"
  | .nodeLimit => "Expression size exceeds maximum node count limit"
  | .unrenderable fault => "Cannot render expression as C: " ++ fault.reason
  | .unboundSymbol name => s!"Symbol '{name}' has no value"
  | .invalidOrder order => s!"Derivative order must be between 1 and 4, got {order}"
  | .invalidConfig fault => "Invalid functional configuration: " ++ fault.reason
  | .unreadable reason => "Could not read functional definition: " ++ reason

/-- The error is raised before any work on an expression starts. -/
def isConfiguration : Error → Bool
  | .invalidOrder _ | .invalidConfig _ | .unreadable _ => true
  | _ => false

end Error

end DensityKernel
