import DensityKernel.Expr.Basic

/-!
The text of an expression, with as few parentheses as the grammar of formulas
needs. A factor minus one is written as a sign, and a sum with such a product
as a difference. The text also orders the terms and factors of a normal form.
-/

namespace DensityKernel.Expr

variable {K : Type} [Literal K] [Spelling K]

/-- A sum or a difference. -/
def isSum : Expr K → Bool
  | .binary .add .. | .binary .sub .. => true
  | _ => false

/-- A nonnegative literal, a symbol or a call: never in parentheses as the base
of a power. -/
def isBare : Expr K → Bool
  | .num x => Literal.isNonNegative x
  | .sym _ | .call .. => true
  | .binary .. => false

/-- Stands after a slash without parentheses. -/
def isBareDenominator : Expr K → Bool
  | .binary .pow .. => true
  | e => e.isBare

/-- Stands after a caret without parentheses. -/
def isBareExponent : Expr K → Bool
  | .call .. => false
  | e => e.isBare

/-- Puts parentheses around a text when asked to. -/
def enclosed (wrap : Bool) (text : String) : String :=
  if wrap then "(" ++ text ++ ")" else text

mutual

def text : Expr K → String
  | .num x => Spelling.inFormula x
  | .sym name => name
  | .call name args => name ++ "(" ++ String.intercalate ", " (texts args) ++ ")"
  | .binary .add u v =>
    match v with
    | .binary .mul (.num x) w =>
      if Literal.isMinusOne x then u.text ++ " - " ++ enclosed w.isSum w.text
      else u.text ++ " + " ++ Expr.text (.binary .mul (.num x) w)
    | v => u.text ++ " + " ++ v.text
  | .binary .sub u v => u.text ++ " - " ++ enclosed v.isSum v.text
  | .binary .mul u v =>
    match u with
    | .num x =>
      if Literal.isMinusOne x then "-" ++ enclosed v.isSum v.text
      else Spelling.inFormula x ++ " * " ++ enclosed v.isSum v.text
    | u => enclosed u.isSum u.text ++ " * " ++ enclosed v.isSum v.text
  | .binary .div u v =>
    enclosed u.isSum u.text ++ " / " ++ enclosed (!v.isBareDenominator) v.text
  | .binary .pow u v => enclosed (!u.isBare) u.text ++ "^" ++ enclosed (!v.isBareExponent) v.text

def texts : List (Expr K) → List String
  | [] => []
  | a :: args => a.text :: texts args

end

end DensityKernel.Expr
