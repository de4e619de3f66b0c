import DensityKernel.Number.Binary

/-!
Decimal digits of a finite double, chosen in exact arithmetic.

`Decimal.shortest` takes the fewest digits that read back as the same double
and, among those, the nearest to its value; a value exactly between two
candidates takes the larger one. `Decimal.significant` rounds the exact value
to a given number of digits, a half going to the even neighbour.
-/

namespace DensityKernel.Number

/-- The number `digits * 10 ^ exponent`. -/
structure Decimal where
  digits : Nat
  exponent : Int
deriving DecidableEq, Repr

/-- A quotient of natural numbers. -/
structure Ratio where
  num : Nat
  den : Nat

namespace Ratio

def floor (r : Ratio) : Nat :=
  r.num / r.den

def ceil (r : Ratio) : Nat :=
  (r.num + r.den - 1) / r.den

/-- The quotient rounded to an integer, a half going to the even one. -/
def roundHalfEven (r : Ratio) : Nat :=
  let q := r.num / r.den
  match compare (2 * (r.num % r.den)) r.den with
  | .lt => q
  | .gt => q + 1
  | .eq => if q % 2 == 0 then q else q + 1

end Ratio

namespace Binary

/-- The last place of the significand in units of `10 ^ grid`. -/
def place (x : Binary) (grid : Int) : Ratio :=
  ⟨Nat.pow 2 x.exponent.toNat * Nat.pow 10 (-grid).toNat,
    Nat.pow 2 (-x.exponent).toNat * Nat.pow 10 grid.toNat⟩

/-- The magnitude is below `10 ^ k`. -/
def belowPower (x : Binary) (k : Int) : Bool :=
  let place := x.place k
  x.significand * place.num < place.den

/-- Steps from an estimate to the least `k` with the magnitude below `10 ^ k`. -/
def scaleFrom (x : Binary) : Nat → Int → Int
  | 0, k => k
  | steps + 1, k =>
    if !x.belowPower k then x.scaleFrom steps (k + 1)
    else if x.belowPower (k - 1) then x.scaleFrom steps (k - 1)
    else k

/-- The least `k` with the magnitude below `10 ^ k`, for a value other than
zero. The binary logarithm times `log10 2` is at most one off. -/
def scale (x : Binary) : Int :=
  let log2 := (x.significand.log2 : Int) + x.exponent
  x.scaleFrom 4 ((log2 * 30103).fdiv 100000 + 1)

end Binary

/-- A magnitude on the grid of the multiples of a power of ten, which is the
unit here: twice its value rounded down, and the first and the last multiple
that read back as it. -/
structure Window where
  twice : Nat
  first : Nat
  last : Nat

/-- The reals that round to a double reach halfway to its neighbours; both ends
belong to them exactly when the significand is even. The gap below a power of
two is half as wide as the one above. -/
def Binary.window (x : Binary) (grid : Int) : Window :=
  let place := x.place grid
  let lower : Ratio :=
    ⟨(4 * x.significand - if x.narrowBelow then 1 else 2) * place.num, 4 * place.den⟩
  let upper : Ratio := ⟨(4 * x.significand + 2) * place.num, 4 * place.den⟩
  let closed := x.significand % 2 == 0
  { twice := 2 * x.significand * place.num / place.den
    first := if closed then lower.ceil else lower.floor + 1
    last := if closed then upper.floor else upper.ceil - 1 }

/-- The multiple of `unit` next to the magnitude that reads back: the nearer one
if both do, the larger one on a tie. -/
def Window.multiple? (w : Window) (unit : Nat) : Option Nat :=
  let low := w.twice / 2 / unit * unit
  let high := low + unit
  match decide (w.first ≤ low), decide (high ≤ w.last) with
  | true, true => some (if low + high ≤ w.twice then high else low)
  | true, false => some low
  | false, true => some high
  | false, false => none

/-- Tries ever finer units, from `10 ^ zeros` down to one. -/
def Window.search (w : Window) : (zeros : Nat) → Option Nat
  | 0 => w.multiple? 1
  | zeros + 1 =>
    match w.multiple? (Nat.pow 10 (zeros + 1)) with
    | some n => some n
    | none => w.search zeros

namespace Decimal

/-- Moves trailing zeros of the digits into the exponent. -/
def strip : Nat → Decimal → Decimal
  | 0, d => d
  | steps + 1, d =>
    if d.digits != 0 && d.digits % 10 == 0 then strip steps ⟨d.digits / 10, d.exponent + 1⟩ else d

/-- The exact value of the magnitude as a decimal. -/
def exact (x : Binary) : Decimal :=
  if 0 ≤ x.exponent then ⟨x.significand * Nat.pow 2 x.exponent.toNat, 0⟩
  else ⟨x.significand * Nat.pow 5 (-x.exponent).toNat, x.exponent⟩

/-- The fewest digits that read back as `x`. Seventeen digits are enough for
any double. -/
def shortest (x : Binary) : Decimal :=
  if x.significand = 0 then ⟨0, 0⟩
  else
    let grid := x.scale - 17
    match (x.window grid).search 16 with
    | some n => strip 18 ⟨n, grid⟩
    | none => exact x

/-- The exact magnitude of `x`, other than zero, rounded to `count` digits. -/
def significant (x : Binary) (count : Nat) : Decimal :=
  let grid := x.scale - count
  let place := x.place grid
  let digits := (⟨x.significand * place.num, place.den⟩ : Ratio).roundHalfEven
  if digits < Nat.pow 10 count then ⟨digits, grid⟩ else ⟨digits / 10, grid + 1⟩

end Decimal

end DensityKernel.Number
