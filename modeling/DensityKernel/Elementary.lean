/-!
The elementary functions that a formula may call. All take one argument and
all have a counterpart in the C mathematics library.
-/

namespace DensityKernel

inductive Elementary where
  | exp | ln | log | sqrt | cbrt
  | sin | cos | tan | atan
  | sinh | cosh | tanh | asinh
  | erf | abs
deriving DecidableEq, Repr

namespace Elementary

def all : List Elementary :=
  [exp, ln, log, sqrt, cbrt, sin, cos, tan, atan, sinh, cosh, tanh, asinh, erf, abs]

/-- The name in a formula. -/
def name : Elementary → String
  | exp => "exp" | ln => "ln" | log => "log" | sqrt => "sqrt" | cbrt => "cbrt"
  | sin => "sin" | cos => "cos" | tan => "tan" | atan => "atan"
  | sinh => "sinh" | cosh => "cosh" | tanh => "tanh" | asinh => "asinh"
  | erf => "erf" | abs => "abs"

/-- The name in C. -/
def cName : Elementary → String
  | ln => "log"
  | abs => "fabs"
  | f => f.name

/-- The function that a call of `name` with `arity` arguments denotes. -/
def lookup? (name : String) (arity : Nat) : Option Elementary :=
  if arity = 1 then all.find? (·.name == name) else none

theorem lookup?_name (f : Elementary) : lookup? f.name 1 = some f := by
  cases f <;> rfl

theorem name_of_lookup {name : String} {f : Elementary} {arity : Nat}
    (h : lookup? name arity = some f) : f.name = name := by
  unfold lookup? at h
  split at h
  · simpa using List.find?_some h
  · cases h

end Elementary

end DensityKernel
