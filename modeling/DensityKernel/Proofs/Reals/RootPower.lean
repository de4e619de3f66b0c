import DensityKernel.Proofs.Reals.Functions
import DensityKernel.Proofs.Reals.Power

/-!
Powers through the cube root. The derivatives of a cube root are written with
exponents such as `-2 / 3`, which have no value at negative numbers although the
cube root is smooth there. Here an exponent that is a third of an integer is
read as a power of the cube root, which has the usual value wherever there is
one, and obeys the laws of exponents wherever the cube root is not zero.
-/

namespace DensityKernel

variable {x y p q : ℝ}

/-! ### Cube roots -/

theorem cubeRoot_of_nonneg (hx : 0 ≤ x) : cubeRoot x = x ^ (1 / 3 : ℝ) :=
  if_pos hx

theorem cubeRoot_neg (x : ℝ) : cubeRoot (-x) = -cubeRoot x := by
  rcases lt_trichotomy x 0 with hneg | rfl | hpos
  · rw [cubeRoot_of_nonneg (neg_nonneg.mpr hneg.le), cubeRoot, if_neg hneg.not_ge, neg_neg]
  · simp [cubeRoot]
  · rw [cubeRoot_of_nonneg hpos.le, cubeRoot, if_neg (by linarith), neg_neg]

theorem cubeRoot_pos (hx : 0 < x) : 0 < cubeRoot x := by
  rw [cubeRoot_of_nonneg hx.le]
  exact Real.rpow_pos_of_pos hx _

theorem cubeRoot_of_neg (hx : x < 0) : cubeRoot x < 0 := by
  have hpos := cubeRoot_pos (neg_pos.mpr hx)
  rw [cubeRoot_neg] at hpos
  linarith

theorem cubeRoot_ne_zero (hx : x ≠ 0) : cubeRoot x ≠ 0 := by
  rcases hx.lt_or_gt with hneg | hpos
  · exact (cubeRoot_of_neg hneg).ne
  · exact (cubeRoot_pos hpos).ne'

theorem cubeRoot_cubed (x : ℝ) : cubeRoot x ^ 3 = x := by
  have hnonneg : ∀ {y : ℝ}, 0 ≤ y → cubeRoot y ^ 3 = y := by
    intro y hy
    rw [cubeRoot_of_nonneg hy, ← Real.rpow_natCast, ← Real.rpow_mul hy]
    norm_num
  rcases le_total 0 x with hx | hx
  · exact hnonneg hx
  · have hreflected := hnonneg (neg_nonneg.mpr hx)
    rw [cubeRoot_neg, Odd.neg_pow (by decide)] at hreflected
    linarith

/-- A number has one cube root. -/
theorem cubeRoot_eq (h : y ^ 3 = x) : cubeRoot x = y :=
  Odd.strictMono_pow (by decide : Odd 3) |>.injective ((cubeRoot_cubed x).trans h.symm)

theorem cubeRoot_zpow (x : ℝ) (n : ℤ) : cubeRoot (x ^ n) = cubeRoot x ^ n := by
  refine cubeRoot_eq ?_
  rw [← zpow_natCast, ← zpow_mul, mul_comm, zpow_mul, zpow_natCast, cubeRoot_cubed]

theorem cubeRoot_abs (x : ℝ) : cubeRoot |x| = |cubeRoot x| := by
  refine cubeRoot_eq ?_
  rw [← abs_pow, cubeRoot_cubed]

/-! ### Thirds as exponents -/

section Thirds

/-- The proof behind the numeral `3` of the real numbers, by one name in both definitions that
write it. -/
local instance atLeastTwo_three : Nat.AtLeastTwo 3 :=
  ⟨by decide⟩

/-- A third of an integer. -/
def Third (y : ℝ) : Prop :=
  ∃ k : ℤ, 3 * y = k

theorem third_intCast (n : ℤ) : Third n :=
  ⟨3 * n, by push_cast; ring⟩

theorem Third.add (hp : Third p) (hq : Third q) : Third (p + q) := by
  obtain ⟨k, hk⟩ := hp
  obtain ⟨l, hl⟩ := hq
  exact ⟨k + l, by push_cast; linarith⟩

theorem Third.intCast_mul (hp : Third p) (n : ℤ) : Third (n * p) := by
  obtain ⟨k, hk⟩ := hp
  exact ⟨n * k, by push_cast; rw [← hk]; ring⟩

open Classical in
/-- The power, with thirds of integers as exponents read through the cube root. -/
noncomputable def rootPower (x y : ℝ) : ℝ :=
  if Third y then cubeRoot x ^ (3 * y) else x ^ y

theorem rootPower_of_third {k : ℤ} (hk : 3 * y = k) : rootPower x y = cubeRoot x ^ k := by
  rw [rootPower, if_pos ⟨k, hk⟩, hk, Real.rpow_intCast]

/-- At numbers that are not negative, nothing is new. -/
theorem rootPower_of_nonneg (hx : 0 ≤ x) : rootPower x y = x ^ y := by
  unfold rootPower
  split_ifs
  · rw [cubeRoot_of_nonneg hx, ← Real.rpow_mul hx]
    congr 1
    ring
  · rfl

/-- Nor is it with integers as exponents. -/
theorem rootPower_intCast (x : ℝ) (n : ℤ) : rootPower x n = x ^ (n : ℝ) := by
  rw [rootPower_of_third (k := 3 * n) (by push_cast; ring), Real.rpow_intCast, zpow_mul]
  congr 1
  exact cubeRoot_cubed x

theorem rootPower_natCast (x : ℝ) (n : ℕ) : rootPower x n = x ^ n := by
  rw [← Int.cast_natCast, rootPower_intCast, Int.cast_natCast, Real.rpow_natCast]

/-- Where the power has a value, it is the same. -/
theorem rootPower_of_powerDefined (h : PowerDefined x y) : rootPower x y = x ^ y := by
  rcases le_or_gt 0 x with hx | hx
  · exact rootPower_of_nonneg hx
  · obtain ⟨n, rfl⟩ := h.1 hx
    exact rootPower_intCast x n

/-! ### Laws -/

/-- The power through the cube root has a value. -/
def RootPowerDefined (x y : ℝ) : Prop :=
  (x < 0 → Third y) ∧ (x = 0 → 0 ≤ y)

theorem RootPowerDefined.add (hp : RootPowerDefined x p) (hq : RootPowerDefined x q) :
    RootPowerDefined x (p + q) ∧ rootPower x (p + q) = rootPower x p * rootPower x q := by
  refine ⟨⟨fun hneg => (hp.1 hneg).add (hq.1 hneg),
    fun hzero => add_nonneg (hp.2 hzero) (hq.2 hzero)⟩, ?_⟩
  rcases le_or_gt 0 x with hx | hx
  · have hnonneg : ∀ {y : ℝ}, RootPowerDefined x y → PowerDefined x y :=
      fun hy => .of_nonneg hx hy.2
    rw [rootPower_of_nonneg hx, rootPower_of_nonneg hx, rootPower_of_nonneg hx]
    exact (hnonneg hp).rpow_add (hnonneg hq)
  · obtain ⟨k, hk⟩ := hp.1 hx
    obtain ⟨l, hl⟩ := hq.1 hx
    have hsum : 3 * (p + q) = ((k + l : ℤ) : ℝ) := by
      push_cast
      linarith
    rw [rootPower_of_third hk, rootPower_of_third hl, rootPower_of_third hsum,
      zpow_add₀ (cubeRoot_of_neg hx).ne]

/-- A third as exponent of an integer power. -/
theorem rootPower_zpow (x : ℝ) (n : ℤ) (hp : Third p) :
    rootPower (x ^ n) p = rootPower x (n * p) := by
  obtain ⟨k, hk⟩ := hp
  have hproduct : 3 * (n * p) = ((n * k : ℤ) : ℝ) := by
    push_cast
    rw [← hk]
    ring
  rw [rootPower_of_third hk, rootPower_of_third hproduct, cubeRoot_zpow, zpow_mul]

/-- An integer as exponent of a power with a third as exponent. -/
theorem rootPower_rootPower (x : ℝ) (hp : Third p) (n : ℤ) :
    rootPower (rootPower x p) n = rootPower x (n * p) := by
  obtain ⟨k, hk⟩ := hp
  have hproduct : 3 * (n * p) = ((k * n : ℤ) : ℝ) := by
    push_cast
    rw [← hk]
    ring
  rw [rootPower_intCast, Real.rpow_intCast, rootPower_of_third hk, rootPower_of_third hproduct,
    zpow_mul]

/-! ### Derivatives -/

/-- The power depends smoothly on its base. -/
def RootPowerRegular (x p : ℝ) : Prop :=
  0 < x ∨ (x ≠ 0 ∧ Third p) ∨ ∃ n : ℕ, p = n

theorem RootPowerRegular.of_int {n : ℤ} (hx : n < 0 → x ≠ 0) : RootPowerRegular x n := by
  rcases lt_or_ge n 0 with hneg | hnonneg
  · exact .inr (.inl ⟨hx hneg, third_intCast n⟩)
  · obtain ⟨m, rfl⟩ := Int.eq_ofNat_of_zero_le hnonneg
    exact .inr (.inr ⟨m, rfl⟩)

theorem rpow_abs_cubeRoot (x : ℝ) : |x| ^ (-2 / 3 : ℝ) = cubeRoot x ^ (-2 : ℤ) := by
  have hlaw : 3 * (-2 / 3 : ℝ) = ((-2 : ℤ) : ℝ) := by norm_num
  rw [← rootPower_of_nonneg (abs_nonneg x), rootPower_of_third hlaw, cubeRoot_abs, zpow_neg,
    zpow_neg]
  norm_num

theorem hasDerivAt_rootPower_of_third (hx : x ≠ 0) (hp : Third p) :
    HasDerivAt (fun t => rootPower t p) (p * rootPower x (p - 1)) x := by
  obtain ⟨k, hk⟩ := hp
  have hlowered : 3 * (p - 1) = ((k - 3 : ℤ) : ℝ) := by
    push_cast
    linarith
  have hne := cubeRoot_ne_zero hx
  have hfunction : (fun t => rootPower t p) = fun t => cubeRoot t ^ k :=
    funext fun t => rootPower_of_third hk
  have hpower := (hasDerivAt_zpow k (cubeRoot x) (.inl hne)).comp x (hasDerivAt_cubeRoot hx)
  rw [hfunction]
  refine hpower.congr_deriv ?_
  have hsplit : cubeRoot x ^ (k - 3) = cubeRoot x ^ (k - 1) * cubeRoot x ^ (-2 : ℤ) := by
    rw [← zpow_add₀ hne]
    congr 1
    ring
  rw [rootPower_of_third hlowered, rpow_abs_cubeRoot, hsplit, ← hk]
  ring

/-- **The power rule through the cube root.** -/
theorem hasDerivAt_rootPower (h : RootPowerRegular x p) :
    HasDerivAt (fun t => rootPower t p) (p * rootPower x (p - 1)) x := by
  rcases h with hpos | ⟨hx, hp⟩ | ⟨n, rfl⟩
  · rw [rootPower_of_nonneg hpos.le]
    refine (Real.hasDerivAt_rpow_const (.inl hpos.ne')).congr_of_eventuallyEq ?_
    filter_upwards [lt_mem_nhds hpos] with t ht
    exact rootPower_of_nonneg ht.le
  · exact hasDerivAt_rootPower_of_third hx hp
  · simp only [rootPower_natCast]
    refine (hasDerivAt_pow n x).congr_deriv ?_
    cases n with
    | zero => simp
    | succ n =>
      have hlowered : ((n + 1 : ℕ) : ℝ) - 1 = n := by simp
      rw [hlowered, rootPower_natCast, Nat.add_sub_cancel]

end Thirds

end DensityKernel
