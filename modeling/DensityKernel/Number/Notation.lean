import DensityKernel.Number.Decimal
import DensityKernel.Number.Double

/-!
How a double is written. Four notations share one choice of digits:

* `positional`: no exponent, no point after a whole number (`1`, `0.0000001`);
* `selfTyped`: always a point or an exponent, so that the text is visibly no
  integer (`1.0`, `2.5e-7`);
* `wholeBelow`: whole values under a bound as integers, anything else as the
  given notation writes it;
* `scientific`: a fixed number of digits and an exponent (`1.50000000000e0`).

A negative value is a minus sign before the text of its magnitude. NaN has no
sign.
-/

namespace DensityKernel.Number

/-- The digits of a natural number, most significant first. -/
def natText (n : Nat) : List Char :=
  Nat.toDigits 10 n

/-- A decimal without exponent. The point falls before, inside or after the
digits; after them `whole` is written instead. -/
def Decimal.positional (d : Decimal) (whole : List Char) : List Char :=
  let text := natText d.digits
  let point := (text.length : Int) + d.exponent
  if point ≤ 0 then '0' :: '.' :: (List.replicate (-point).toNat '0' ++ text)
  else if point < text.length then text.take point.toNat ++ '.' :: text.drop point.toNat
  else text ++ List.replicate d.exponent.toNat '0' ++ whole

/-- The exponent of the leading digit. -/
def Decimal.leading (d : Decimal) : Int :=
  (natText d.digits).length + d.exponent - 1

def intText (n : Int) : List Char :=
  if n < 0 then '-' :: natText n.natAbs else natText n.natAbs

/-- One digit, the others after a point if there are any, and the exponent. -/
def Decimal.scientific (d : Decimal) : List Char :=
  let text := natText d.digits
  let mantissa := match text with
    | [] => []
    | [c] => [c]
    | c :: rest => c :: '.' :: rest
  mantissa ++ 'e' :: intText d.leading

/-- Writes a double, given the text of a finite magnitude. -/
def written (magnitude : Binary → List Char) (x : Double) : String :=
  match x.value with
  | .nan => "NaN"
  | .infinite negative => if negative then "-inf" else "inf"
  | .finite value =>
    String.ofList (if value.negative then '-' :: magnitude value else magnitude value)

/-- Shortest digits, never an exponent: `1`, `-0`, `0.00001`, `100000000000000000000`. -/
def positional (x : Double) : String :=
  written (fun value => (Decimal.shortest value).positional []) x

/-- Shortest digits with a point or an exponent: positional with at least one
digit after the point for zero and from `1e-4` up to `1e16`, else with an
exponent. -/
def selfTyped (x : Double) : String :=
  written (fun value =>
    let d := Decimal.shortest value
    if value.significand = 0 || (-4 ≤ d.leading && d.leading < 16) then d.positional ['.', '0']
    else d.scientific) x

/-- Whole values of magnitude below `bound` as plain integers, zero without a
sign; any other value as `otherwise` writes it. -/
def wholeBelow (bound : Nat) (otherwise : Double → String) (x : Double) : String :=
  match x.value with
  | .finite value =>
    if value.isWhole && value.below bound then
      String.ofList (if value.negative && value.truncated != 0 then '-' :: natText value.truncated
        else natText value.truncated)
    else otherwise x
  | _ => otherwise x

/-- The exact value rounded to `count` significant digits, with an exponent.
Zero has as many digits as any other value. -/
def scientific (count : Nat) (x : Double) : String :=
  written (fun value =>
    if value.significand = 0 then '0' :: '.' :: (List.replicate (count - 1) '0' ++ ['e', '0'])
    else (Decimal.significant value count).scientific) x

end DensityKernel.Number
