import DensityKernel.Number.Binary

/-!
The cube root of a double, rounded to the nearest one. The root is computed in
`Nat` with more bits than a double has; a last bit records whether anything was
cut off, so that the final rounding is the only one and perfect cubes have
exact roots.
-/

namespace DensityKernel.Number

/-- The largest `r` below `root + 2 ^ bits` with `r ^ 3 ≤ n`, from `root` on. -/
def cubeRootBelow (n : Nat) : (bits : Nat) → (root : Nat) → Nat
  | 0, root => root
  | bits + 1, root =>
    let candidate := root + Nat.pow 2 bits
    cubeRootBelow n bits (if Nat.pow candidate 3 ≤ n then candidate else root)

/-- The integer part of the cube root of a number below `2 ^ 192`. -/
def natCubeRoot (n : Nat) : Nat :=
  cubeRootBelow n 64 0

/-- A power of two as a double, for exponents of normal numbers. -/
def powerOfTwo (e : Int) : Float :=
  Float.ofBits ((e + 1023).toNat.toUInt64 <<< 52)

/-- The cube root of a magnitude other than zero. The significand is first
extended to between 177 and 180 bits, so that the exponent is divisible by
three. -/
def Binary.cubeRoot (x : Binary) : Float :=
  let missing : Nat := 177 - x.significand.log2
  let shift := missing + ((x.exponent - missing) % 3).toNat
  let n := x.significand * Nat.pow 2 shift
  let root := natCubeRoot n
  let marked := 2 * root + if Nat.pow root 3 = n then 0 else 1
  Float.ofNat marked * powerOfTwo ((x.exponent - shift) / 3 - 1)

/-- The cube root of a double. -/
def cubeRoot (x : Float) : Float :=
  match Value.ofBits x.toBits with
  | .finite value =>
    if value.significand = 0 then x
    else if value.negative then -value.cubeRoot
    else value.cubeRoot
  | _ => x

end DensityKernel.Number
