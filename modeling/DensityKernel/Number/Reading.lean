import DensityKernel.Number.Notation

/-!
Reading a double from its decimal text: an optional sign, then `inf`,
`infinity` or `nan` in any case, or digits with at most one point among them
and an optional exponent. The result is the double nearest to the number
written, and nothing else is accepted.
-/

namespace DensityKernel.Number

/-- Splits the leading ASCII digits off. -/
def spanDigits (cs : List Char) : List Char × List Char :=
  (cs.takeWhile Char.isDigit, cs.dropWhile Char.isDigit)

def digitsValue (cs : List Char) : Nat :=
  cs.foldl (fun n c => 10 * n + (c.toNat - '0'.toNat)) 0

/-- Splits an optional sign off; the flag says whether it was a minus. -/
def splitSign : List Char → Bool × List Char
  | '-' :: rest => (true, rest)
  | '+' :: rest => (false, rest)
  | cs => (false, cs)

/-- An exponent after its letter: an optional sign and at least one digit, up
to the end of the text. -/
def readExponent? (cs : List Char) : Option Int :=
  let (negative, rest) := splitSign cs
  if rest.isEmpty || !rest.all Char.isDigit then none
  else
    let n : Int := digitsValue rest
    some (if negative then -n else n)

/-- An unsigned decimal numeral. -/
def readDecimal? (cs : List Char) : Option Decimal :=
  let (whole, rest) := spanDigits cs
  let (fraction, rest) := match rest with
    | '.' :: rest => spanDigits rest
    | _ => ([], rest)
  if whole.isEmpty && fraction.isEmpty then none
  else
    let value : Int → Decimal := fun e => ⟨digitsValue (whole ++ fraction), e - fraction.length⟩
    match rest with
    | [] => some (value 0)
    | c :: rest => if c == 'e' || c == 'E' then (readExponent? rest).map value else none

/-- The double nearest to a decimal. Beyond the given bounds on the exponent of
the leading digit every decimal overflows or vanishes. -/
def Decimal.toFloat (d : Decimal) : Float :=
  if d.digits = 0 then 0.0
  else if d.leading > 400 then 1.0 / 0.0
  else if d.leading < -400 then 0.0
  else .ofScientific d.digits (d.exponent < 0) d.exponent.natAbs

/-- Reads an unsigned number. -/
def readMagnitude? (cs : List Char) : Option Float :=
  let lower := cs.map Char.toLower
  if lower = ['i', 'n', 'f'] || lower = ['i', 'n', 'f', 'i', 'n', 'i', 't', 'y'] then some (1.0 / 0.0)
  else if lower = ['n', 'a', 'n'] then some (0.0 / 0.0)
  else (readDecimal? cs).map Decimal.toFloat

/-- Reads a double. A sign counts for every number, zero and NaN included. -/
def read? (cs : List Char) : Option Double :=
  let (negative, rest) := splitSign cs
  (readMagnitude? rest).map fun x =>
    if negative then (Double.ofFloat x).negate else .ofFloat x

end DensityKernel.Number
