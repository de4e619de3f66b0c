/-!
The exact value of a double. `Value.ofBits` decodes the bits of a double into
NaN, an infinity, or a signed `significand * 2 ^ exponent`; the tests on
wholeness and parity are made on that decoded value, in `Nat` and `Int`, so
they involve no rounding.
-/

namespace DensityKernel.Number

/-- A finite double: `significand * 2 ^ exponent`, negated when `negative`. -/
structure Binary where
  negative : Bool
  significand : Nat
  exponent : Int
  /-- The gap to the next smaller magnitude is half the gap to the next larger
  one, which happens at a power of two. -/
  narrowBelow : Bool
deriving DecidableEq, Repr

/-- What the bits of a double stand for. -/
inductive Value where
  | nan
  | infinite (negative : Bool)
  | finite (value : Binary)
deriving DecidableEq, Repr

/-- Splits a bit pattern into sign, exponent and fraction. -/
def Value.ofBits (bits : UInt64) : Value :=
  let negative := bits >>> 63 == 1
  let biased := ((bits >>> 52) &&& 0x7FF).toNat
  let fraction := (bits &&& 0xFFFFFFFFFFFFF).toNat
  if biased = 0x7FF then
    if fraction = 0 then .infinite negative else .nan
  else if biased = 0 then .finite ⟨negative, fraction, -1074, false⟩
  else .finite ⟨negative, Nat.pow 2 52 + fraction, (biased : Int) - 1075, fraction == 0 && biased > 1⟩

namespace Binary

/-- The magnitude is a natural number. -/
def isWhole (x : Binary) : Bool :=
  x.significand % Nat.pow 2 (-x.exponent).toNat == 0

/-- The integer part of the magnitude. -/
def truncated (x : Binary) : Nat :=
  x.significand * Nat.pow 2 x.exponent.toNat / Nat.pow 2 (-x.exponent).toNat

/-- The magnitude is an even natural number. -/
def isEven (x : Binary) : Bool :=
  x.isWhole && x.truncated % 2 == 0

/-- The magnitude is below `bound`. -/
def below (x : Binary) (bound : Nat) : Bool :=
  x.truncated < bound

end Binary

end DensityKernel.Number
