import DensityKernel.Proofs.Reals.Literal

/-!
The laws of exponents where powers have values. A base is positive, zero or
negative, and each law is proved in these three cases: at a zero base all
exponents are at least zero, and at a negative one they are integers, except
where an even exponent has hidden the sign.
-/

namespace DensityKernel

variable {x y p q : ℝ}

theorem PowerDefined.of_pos (hx : 0 < x) : PowerDefined x p :=
  ⟨fun h => absurd hx h.not_gt, fun h => absurd h hx.ne'⟩

theorem PowerDefined.of_nonneg (hx : 0 ≤ x) (hp : x = 0 → 0 ≤ p) : PowerDefined x p :=
  ⟨fun h => absurd hx h.not_ge, hp⟩

theorem PowerDefined.exponent_one : PowerDefined x 1 :=
  ⟨fun _ => ⟨1, by simp⟩, fun _ => zero_le_one⟩

theorem PowerDefined.exponent_minusOne (hx : x ≠ 0) : PowerDefined x (-1) :=
  ⟨fun _ => ⟨-1, by simp⟩, fun h => absurd h hx⟩

/-! ### Powers of one base -/

theorem PowerDefined.add (hp : PowerDefined x p) (hq : PowerDefined x q) :
    PowerDefined x (p + q) := by
  refine ⟨fun hneg => ?_, fun hzero => add_nonneg (hp.2 hzero) (hq.2 hzero)⟩
  obtain ⟨m, rfl⟩ := hp.1 hneg
  obtain ⟨n, rfl⟩ := hq.1 hneg
  exact ⟨m + n, by push_cast; ring⟩

theorem PowerDefined.rpow_add (hp : PowerDefined x p) (hq : PowerDefined x q) :
    x ^ (p + q) = x ^ p * x ^ q := by
  rcases lt_trichotomy x 0 with hneg | rfl | hpos
  · obtain ⟨m, rfl⟩ := hp.1 hneg
    obtain ⟨n, rfl⟩ := hq.1 hneg
    rw [← Int.cast_add, Real.rpow_intCast, Real.rpow_intCast, Real.rpow_intCast,
      zpow_add₀ hneg.ne]
  · exact Real.rpow_add_of_nonneg le_rfl (hp.2 rfl) (hq.2 rfl)
  · exact Real.rpow_add hpos p q

/-! ### Powers of a product -/

/-- A whole exponent is distributed over any product. -/
theorem PowerDefined.mul_of_whole {n : ℤ} (h : PowerDefined (x * y) n) :
    PowerDefined x n ∧ PowerDefined y n ∧ (x * y) ^ (n : ℝ) = x ^ (n : ℝ) * y ^ (n : ℝ) := by
  refine ⟨⟨fun _ => ⟨n, rfl⟩, fun hx => h.2 (by rw [hx, zero_mul])⟩,
    ⟨fun _ => ⟨n, rfl⟩, fun hy => h.2 (by rw [hy, mul_zero])⟩, ?_⟩
  rw [Real.rpow_intCast, Real.rpow_intCast, Real.rpow_intCast, mul_zpow]

/-- Any exponent is distributed over factors that are not negative. -/
theorem PowerDefined.mul_of_nonneg (hx : 0 ≤ x) (hy : 0 ≤ y) (h : PowerDefined (x * y) p) :
    PowerDefined x p ∧ PowerDefined y p ∧ (x * y) ^ p = x ^ p * y ^ p :=
  ⟨.of_nonneg hx fun hzero => h.2 (by rw [hzero, zero_mul]),
    .of_nonneg hy fun hzero => h.2 (by rw [hzero, mul_zero]), Real.mul_rpow hx hy⟩

/-! ### Powers of a power -/

/-- At a base that is not negative, exponents multiply. -/
theorem PowerDefined.rpow_of_nonneg (hx : 0 ≤ x) (hp : PowerDefined x p)
    (hq : PowerDefined (x ^ p) q) : PowerDefined x (p * q) ∧ x ^ (p * q) = (x ^ p) ^ q := by
  refine ⟨.of_nonneg hx fun hzero => ?_, Real.rpow_mul hx p q⟩
  have hp0 : 0 ≤ p := hp.2 hzero
  rcases hp0.eq_or_lt with rfl | hpos
  · rw [zero_mul]
  · refine mul_nonneg hp0 (hq.2 ?_)
    rw [hzero, Real.zero_rpow hpos.ne']

/-- An odd exponent keeps the sign of a negative base, so the outer exponent is
an integer too. -/
theorem PowerDefined.rpow_of_odd {n : ℤ} (hx : x < 0) (hn : Odd n)
    (hq : PowerDefined (x ^ (n : ℝ)) q) :
    PowerDefined x (n * q) ∧ x ^ (n * q) = (x ^ (n : ℝ)) ^ q := by
  have hneg : x ^ (n : ℝ) < 0 := by
    rw [Real.rpow_intCast]
    exact hn.zpow_neg hx
  obtain ⟨m, rfl⟩ := hq.1 hneg
  refine ⟨⟨fun _ => ⟨n * m, by push_cast; ring⟩, fun h => absurd h hx.ne⟩, ?_⟩
  rw [← Int.cast_mul, Real.rpow_intCast, Real.rpow_intCast, Real.rpow_intCast, zpow_mul]

/-- An even exponent hides the sign of the base. -/
theorem rpow_abs_of_even {n : ℤ} (hn : Even n) : |x| ^ (n : ℝ) = x ^ (n : ℝ) := by
  rw [Real.rpow_intCast, Real.rpow_intCast, hn.zpow_abs]

theorem rpow_nonneg_of_even {n : ℤ} (hn : Even n) : 0 ≤ x ^ (n : ℝ) := by
  rw [Real.rpow_intCast]
  exact hn.zpow_nonneg x

/-- After an even exponent the magnitude of the base is enough. -/
theorem PowerDefined.abs_rpow_of_even {n : ℤ} (hn : Even n) (hp : PowerDefined x n)
    (hq : PowerDefined (x ^ (n : ℝ)) q) :
    PowerDefined |x| (n * q) ∧ |x| ^ (n * q) = (x ^ (n : ℝ)) ^ q := by
  rw [← rpow_abs_of_even hn] at hq ⊢
  exact PowerDefined.rpow_of_nonneg (abs_nonneg x)
    (.of_nonneg (abs_nonneg x) fun h => hp.2 (abs_eq_zero.mp h)) hq

end DensityKernel
