import DensityKernel.Proofs.Reals.RootPower

/-!
Smoothness of the elementary functions and of powers through the cube root:
where they are regular they have derivatives of every order.
-/

namespace DensityKernel

open scoped ContDiff Topology

variable {x p : ℝ}

theorem contDiffAt_cubeRoot (hx : x ≠ 0) : ContDiffAt ℝ ∞ cubeRoot x := by
  rcases hx.lt_or_gt with hneg | hpos
  · have hreflected : ContDiffAt ℝ ∞ (fun t : ℝ => -(-t) ^ (1 / 3 : ℝ)) x :=
      (contDiffAt_id.neg.rpow_const_of_ne (neg_ne_zero.mpr hx)).neg
    refine hreflected.congr_of_eventuallyEq ?_
    filter_upwards [Iio_mem_nhds hneg] with t ht
    rw [cubeRoot, if_neg (not_le.mpr ht)]
  · refine (Real.contDiffAt_rpow_const_of_ne (p := 1 / 3) hx).congr_of_eventuallyEq ?_
    filter_upwards [Ioi_mem_nhds hpos] with t ht
    exact cubeRoot_of_nonneg (le_of_lt ht)

theorem contDiff_errorFunction : ContDiff ℝ ∞ errorFunction := by
  have hderiv : deriv errorFunction = fun x => 2 / √Real.pi * Real.exp (-(x ^ 2)) :=
    funext fun x => (hasDerivAt_errorFunction x).deriv
  refine contDiff_infty_iff_deriv.mpr ⟨fun x => (hasDerivAt_errorFunction x).differentiableAt, ?_⟩
  rw [hderiv]
  exact contDiff_const.mul (Real.contDiff_exp.comp (contDiff_id.pow 2).neg)

theorem contDiff_tanh : ContDiff ℝ ∞ Real.tanh := by
  have hquotient : ContDiff ℝ ∞ fun t => Real.sinh t / Real.cosh t :=
    Real.contDiff_sinh.div Real.contDiff_cosh fun t => (Real.cosh_pos t).ne'
  exact (funext Real.tanh_eq_sinh_div_cosh : Real.tanh = _) ▸ hquotient

/-- **The elementary functions are smooth** where they are regular. -/
theorem Elementary.contDiffAt_onReal {f : Elementary} (h : f.RegularAt x) :
    ContDiffAt ℝ ∞ f.onReal x := by
  cases f with
  | exp => exact Real.contDiff_exp.contDiffAt
  | ln | log => exact Real.contDiffAt_log.mpr (ne_of_gt h)
  | sqrt => exact Real.contDiffAt_sqrt (ne_of_gt h)
  | cbrt => exact contDiffAt_cubeRoot h
  | sin => exact Real.contDiff_sin.contDiffAt
  | cos => exact Real.contDiff_cos.contDiffAt
  | tan => exact Real.contDiffAt_tan.mpr h
  | atan => exact Real.contDiff_arctan.contDiffAt
  | sinh => exact Real.contDiff_sinh.contDiffAt
  | cosh => exact Real.contDiff_cosh.contDiffAt
  | tanh => exact contDiff_tanh.contDiffAt
  | asinh => exact Real.contDiff_arsinh.contDiffAt
  | erf => exact contDiff_errorFunction.contDiffAt
  | abs => exact contDiffAt_abs h

/-- **Powers through the cube root are smooth** where they are regular. -/
theorem contDiffAt_rootPower (h : RootPowerRegular x p) :
    ContDiffAt ℝ ∞ (fun t => rootPower t p) x := by
  rcases h with hpos | ⟨hx, k, hk⟩ | ⟨n, rfl⟩
  · refine (Real.contDiffAt_rpow_const_of_ne (p := p) hpos.ne').congr_of_eventuallyEq ?_
    filter_upwards [lt_mem_nhds hpos] with t ht
    exact rootPower_of_nonneg ht.le
  · have hfunction : (fun t => rootPower t p) = fun t => cubeRoot t ^ k :=
      funext fun t => rootPower_of_third hk
    rw [hfunction]
    have hroot := contDiffAt_cubeRoot hx
    cases k with
    | ofNat n => simpa using hroot.pow n
    | negSucc n =>
      simp only [zpow_negSucc]
      exact (hroot.pow (n + 1)).inv (pow_ne_zero _ (cubeRoot_ne_zero hx))
  · simp only [rootPower_natCast]
    exact contDiffAt_id.pow n

end DensityKernel
