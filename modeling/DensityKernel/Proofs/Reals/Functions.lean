import DensityKernel.Elementary
import Mathlib

/-!
The elementary functions as functions of a real number, with their domains and
their derivatives. `RegularAt` is the domain on which a function is
differentiable, `DefinedAt` the larger one on which it has a value;
`hasDerivAt_onReal` is the table of derivatives.
-/

namespace DensityKernel

/-- Two is at least two: the proof behind the numeral `2` of the real numbers, by one name in
every definition that writes it. -/
instance atLeastTwo_two : Nat.AtLeastTwo 2 :=
  ⟨le_rfl⟩

noncomputable section

/-- The real cube root, of either sign. -/
def cubeRoot (x : ℝ) : ℝ :=
  if 0 ≤ x then x ^ (1 / 3 : ℝ) else -(-x) ^ (1 / 3 : ℝ)

/-- The error function. -/
def errorFunction (x : ℝ) : ℝ :=
  2 / √Real.pi * ∫ t in (0 : ℝ)..x, Real.exp (-(t ^ 2))

namespace Elementary

/-- The function of a real number that a name stands for. -/
def onReal : Elementary → ℝ → ℝ
  | exp => Real.exp
  | ln | log => Real.log
  | sqrt => Real.sqrt
  | cbrt => cubeRoot
  | sin => Real.sin
  | cos => Real.cos
  | tan => Real.tan
  | atan => Real.arctan
  | sinh => Real.sinh
  | cosh => Real.cosh
  | tanh => Real.tanh
  | asinh => Real.arsinh
  | erf => errorFunction
  | abs => fun x => |x|

/-- The function has a value. -/
def DefinedAt : Elementary → ℝ → Prop
  | ln, x | log, x => 0 < x
  | sqrt, x => 0 ≤ x
  | tan, x => Real.cos x ≠ 0
  | _, _ => True

/-- The function is differentiable: the arguments of logarithms and square
roots are positive, those of cube roots and magnitudes not zero. -/
def RegularAt : Elementary → ℝ → Prop
  | ln, x | log, x | sqrt, x => 0 < x
  | cbrt, x | abs, x => x ≠ 0
  | tan, x => Real.cos x ≠ 0
  | _, _ => True

/-- The derivative where the function is regular. -/
def derivative : Elementary → ℝ → ℝ
  | exp, x => Real.exp x
  | ln, x | log, x => x⁻¹
  | sqrt, x => 1 / (2 * √x)
  | cbrt, x => 1 / 3 * |x| ^ (-2 / 3 : ℝ)
  | sin, x => Real.cos x
  | cos, x => -Real.sin x
  | tan, x => 1 + Real.tan x ^ 2
  | atan, x => 1 / (1 + x ^ 2)
  | sinh, x => Real.cosh x
  | cosh, x => Real.sinh x
  | tanh, x => 1 - Real.tanh x ^ 2
  | asinh, x => (√(1 + x ^ 2))⁻¹
  | erf, x => 2 / √Real.pi * Real.exp (-(x ^ 2))
  | abs, x => x / |x|

theorem DefinedAt.of_regularAt {f : Elementary} {x : ℝ} (h : f.RegularAt x) : f.DefinedAt x := by
  cases f <;> first | exact h | exact h.le | trivial

/-- Points near a regular one are regular. -/
theorem isOpen_regularAt (f : Elementary) : IsOpen {x | f.RegularAt x} := by
  cases f with
  | ln | log | sqrt => exact isOpen_Ioi
  | cbrt | abs => exact isOpen_ne
  | tan => exact isOpen_ne_fun Real.continuous_cos continuous_const
  | _ => exact isOpen_univ

end Elementary

/-! ### Derivatives that are not in the library -/

theorem hasDerivAt_cubeRoot {x : ℝ} (hx : x ≠ 0) :
    HasDerivAt cubeRoot (1 / 3 * |x| ^ (-2 / 3 : ℝ)) x := by
  have hroot : ∀ {y : ℝ}, y ≠ 0 →
      HasDerivAt (fun t : ℝ => t ^ (1 / 3 : ℝ)) (1 / 3 * y ^ (-2 / 3 : ℝ)) y := by
    intro y hy
    refine (Real.hasDerivAt_rpow_const (p := 1 / 3) (Or.inl hy)).congr_deriv ?_
    norm_num
  rcases hx.lt_or_gt with hneg | hpos
  · have hreflected : HasDerivAt (fun t : ℝ => -(-t) ^ (1 / 3 : ℝ))
        (-(1 / 3 * (-x) ^ (-2 / 3 : ℝ) * -1)) x :=
      ((hroot (neg_ne_zero.mpr hx)).comp x (hasDerivAt_neg x)).neg
    rw [abs_of_neg hneg]
    refine (hreflected.congr_of_eventuallyEq ?_).congr_deriv (by ring)
    filter_upwards [Iio_mem_nhds hneg] with t ht
    rw [cubeRoot, if_neg (not_le.mpr ht)]
  · rw [abs_of_pos hpos]
    refine (hroot hx).congr_of_eventuallyEq ?_
    filter_upwards [Ioi_mem_nhds hpos] with t ht
    rw [cubeRoot, if_pos (le_of_lt ht)]

theorem hasDerivAt_errorFunction (x : ℝ) :
    HasDerivAt errorFunction (2 / √Real.pi * Real.exp (-(x ^ 2))) x := by
  have hcont : Continuous fun t : ℝ => Real.exp (-(t ^ 2)) := by fun_prop
  exact (intervalIntegral.integral_hasDerivAt_right (hcont.intervalIntegrable _ _)
    (hcont.stronglyMeasurableAtFilter _ _) hcont.continuousAt).const_mul _

theorem hasDerivAt_tanh (x : ℝ) : HasDerivAt Real.tanh (1 - Real.tanh x ^ 2) x := by
  have hne : Real.cosh x ≠ 0 := (Real.cosh_pos x).ne'
  have hquotient := (Real.hasDerivAt_sinh x).div (Real.hasDerivAt_cosh x) hne
  refine (hquotient.congr_of_eventuallyEq (.of_forall Real.tanh_eq_sinh_div_cosh)).congr_deriv ?_
  rw [Real.tanh_eq_sinh_div_cosh]
  field_simp

namespace Elementary

/-- **The table of derivatives.** -/
theorem hasDerivAt_onReal {f : Elementary} {x : ℝ} (h : f.RegularAt x) :
    HasDerivAt f.onReal (f.derivative x) x := by
  cases f with
  | exp => exact Real.hasDerivAt_exp x
  | ln | log => exact Real.hasDerivAt_log (ne_of_gt h)
  | sqrt => exact Real.hasDerivAt_sqrt (ne_of_gt h)
  | cbrt => exact hasDerivAt_cubeRoot h
  | sin => exact Real.hasDerivAt_sin x
  | cos => exact Real.hasDerivAt_cos x
  | tan =>
    have hcos : Real.cos x ≠ 0 := h
    refine (Real.hasDerivAt_tan hcos).congr_deriv ?_
    rw [derivative, ← Real.inv_one_add_tan_sq hcos]
    field_simp
  | atan => exact Real.hasDerivAt_arctan x
  | sinh => exact Real.hasDerivAt_sinh x
  | cosh => exact Real.hasDerivAt_cosh x
  | tanh => exact hasDerivAt_tanh x
  | asinh => exact Real.hasDerivAt_arsinh x
  | erf => exact hasDerivAt_errorFunction x
  | abs =>
    have hx : x ≠ 0 := h
    refine (hasDerivAt_abs hx).congr_deriv ?_
    rcases hx.lt_or_gt with hneg | hpos
    · simp [derivative, hneg, abs_of_neg, hx]
    · simp [derivative, hpos, abs_of_pos, hx]

end Elementary

end

end DensityKernel
