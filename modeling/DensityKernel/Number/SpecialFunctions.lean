/-!
The error function and the inverse hyperbolic sine on doubles.

`erf` is piecewise: a rational correction of `x` near zero, a rational function
around one, and `1 - exp (-x ^ 2) * r (1 / x ^ 2) / x` further out; from six on
the value is one to double precision.
-/

namespace DensityKernel.Number

/-- The polynomial with the given coefficients, constant term first. -/
def horner (x : Float) : List Float → Float
  | [] => 0.0
  | [c] => c
  | c :: rest => c + x * horner x rest

/-- Clears the low half of the significand, so that the square is exact. -/
def highHalf (x : Float) : Float :=
  Float.ofBits (x.toBits &&& 0xFFFFFFFF00000000)

/-- `1 - erf` on `0.84375 ≤ a < 1.25`. -/
def erfcAroundOne (a : Float) : Float :=
  let s := a - 1.0
  let p := horner s [-2.36211856075265944077e-03, 4.14856118683748331666e-01,
    -3.72207876035701323847e-01, 3.18346619901161753674e-01, -1.10894694282396677476e-01,
    3.54783043256182359371e-02, -2.16637559486879084300e-03]
  let q := horner s [1.0, 1.06420880400844228286e-01, 5.40397917702171048937e-01,
    7.18286544141962662868e-02, 1.26171219808761642112e-01, 1.36370839120290507362e-02,
    1.19844998467991074170e-02]
  1.0 - 8.45062911510467529297e-01 - p / q

/-- `1 - erf` from `1.25` on. -/
def erfcTail (a : Float) : Float :=
  let s := 1.0 / (a * a)
  let (r, q) :=
    if a < 2.8571414947509765625 then
      (horner s [-9.86494403484714822705e-03, -6.93858572707181764372e-01,
        -1.05586262253232909814e+01, -6.23753324503260060396e+01, -1.62396669462573470355e+02,
        -1.84605092906711035994e+02, -8.12874355063065934246e+01, -9.81432934416914548592e+00],
       horner s [1.0, 1.96512716674392571292e+01, 1.37657754143519042600e+02,
        4.34565877475229228821e+02, 6.45387271733267880336e+02, 4.29008140027567833386e+02,
        1.08635005541779435134e+02, 6.57024977031928170135e+00, -6.04244152148580987438e-02])
    else
      (horner s [-9.86494292470009928597e-03, -7.99283237680523006574e-01,
        -1.77579549177547519889e+01, -1.60636384855821916062e+02, -6.37566443368389627722e+02,
        -1.02509513161107724954e+03, -4.83519191608651397019e+02],
       horner s [1.0, 3.03380607434824582924e+01, 3.25792512996573918826e+02,
        1.53672958608443695994e+03, 3.19985821950859553908e+03, 2.55305040643316442583e+03,
        4.74528541206955367215e+02, -2.24409524465858183362e+01])
  let z := highHalf a
  Float.exp (-z * z - 0.5625) * Float.exp ((z - a) * (z + a) + r / q) / a

/-- The error function. -/
def erf (x : Float) : Float :=
  let a := x.abs
  if x.isNaN then x
  else if a < 0.84375 then
    if a < 3.725290298461914e-9 then 0.125 * (8.0 * x + 1.02703333676410069053e+00 * x)
    else
      let z := x * x
      let r := horner z [1.28379167095512558561e-01, -3.25042107247001499370e-01,
        -2.84817495755985104766e-02, -5.77027029648944159157e-03, -2.37630166566501626084e-05]
      let s := horner z [1.0, 3.97917223959155352819e-01, 6.50222499887672944485e-02,
        5.08130628187576562776e-03, 1.32494738004321644526e-04, -3.96022827877536812320e-06]
      x + x * (r / s)
  else
    let y :=
      if a < 1.25 then 1.0 - erfcAroundOne a
      else if a < 6.0 then 1.0 - erfcTail a
      else 1.0
    if x < 0.0 then -y else y

/-! ### The inverse hyperbolic sine -/

/-- The terms of the series of `log (1 + f)` from the third on, divided by
`s = f / (2 + f)`, as a polynomial in `z = s ^ 2`. -/
def logSeries (z : Float) : Float :=
  let z2 := z * z
  let z4 := z2 * z2
  let z6 := z4 * z2
  z * 6.666666666666735130e-01
    + z2 * (3.999999999940941908e-01 + z * 2.857142874366239149e-01)
    + z4 * (2.222219843214978396e-01 + z * 1.818357216161805012e-01)
    + z6 * (1.531383769920937332e-01 + z * 1.479819860511658591e-01)

/-- A number from one on as `(1 + f) * 2 ^ k` with `1 + f` between `sqrt 0.5`
and `sqrt 2`: the results are `f` and `k`. -/
def splitAroundOne (u : Float) : Float × Float :=
  let bits := u.toBits
  let exponent := Float.ofInt ((bits >>> 52).toNat - 1023)
  let fraction := bits &&& 0xFFFFFFFFFFFFF
  if fraction < 0x6A09E00000000 then
    (Float.ofBits (fraction ||| 0x3FF0000000000000) - 1.0, exponent)
  else (Float.ofBits (fraction ||| 0x3FE0000000000000) - 1.0, exponent + 1.0)

/-- `log ((1 + f) * 2 ^ k) + c`, where `c` is a small correction. The logarithm
of two is split so that `k` times its first part is exact. -/
def logScaled (f k c : Float) : Float :=
  let head := k * 6.93147180369123816490e-01
  let tail := k * 1.90821492927058770002e-10 + c
  let half := 0.5 * f * f
  if -1.430511474609375e-06 ≤ f && f < 9.5367431640625e-07 then
    if f == 0.0 then head + tail
    else head - ((half * (1.0 - 0.66666666666666666 * f) - tail) - f)
  else
    let s := f / (2.0 + f)
    head - ((half - (s * (half + logSeries (s * s)) + tail)) - f)

/-- `log (1 + x)` for `0 ≤ x`, without loss of a small `x`. The rounding error
of the sum is part of the correction of the logarithm. -/
def logOnePlus (x : Float) : Float :=
  if x < 5.551115123125783e-17 || x.isInf then x
  else if x < 1.862645149230957e-09 then x - x * x * 0.5
  else if x < 0.414213657379150390625 then
    let half := 0.5 * x * x
    let s := x / (2.0 + x)
    x - (half - s * (half + logSeries (s * s)))
  else
    let u := if x < 9007199254740992.0 then 1.0 + x else x
    let (f, k) := splitAroundOne u
    let c :=
      if x < 9007199254740992.0 then (if 2.0 ≤ u then 1.0 - (u - x) else x - (u - 1.0)) / u else 0.0
    logScaled f k c

/-- `sqrt (x ^ 2 + y ^ 2)` for `0 < y ≤ x` of comparable size: the rounded root
less a correction by the residue of its square. -/
def hypotenuse (x y : Float) : Float :=
  let h := Float.sqrt (x * x + y * y)
  let residue :=
    if h ≤ 2.0 * y then
      let d := h - y
      x * (2.0 * d - x) + (d - 2.0 * (x - y)) * d
    else
      let d := h - x
      2.0 * d * (x - 2.0 * y) + ((4.0 * d - y) * y + d * d)
  h - residue / (2.0 * h)

/-- `sqrt (1 + t ^ 2)` for `0 ≤ t`, without overflow. -/
def hypotOne (t : Float) : Float :=
  let x := if 1.0 < t then t else 1.0
  let y := if 1.0 < t then 1.0 else t
  if y ≤ x * 5.551115123125783e-17 then x + y else hypotenuse x y

/-- The inverse hyperbolic sine, odd also at zero. -/
def asinh (x : Float) : Float :=
  if x.isNaN then x
  else
    let a := x.abs
    let i := 1.0 / a
    let y := logOnePlus (a + a / (hypotOne i + i))
    if x.toBits >>> 63 == 1 then -y else y

end DensityKernel.Number
