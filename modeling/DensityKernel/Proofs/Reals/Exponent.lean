import DensityKernel.Proofs.Reals.RootPower

/-!
Exponents that fit a base. Any exponent fits a positive base, integers fit a
negative one and natural numbers zero; where derivatives are written, thirds of
integers fit a negative base too. The laws of exponents hold for exponents that
fit, with an even exponent of a power counting as one that hides the sign.
-/

namespace DensityKernel

variable {derived : Bool} {x y p q : ℝ}

/-- The exponent fits the base; with the flag as in a derivative. -/
def Fits (derived : Bool) (x p : ℝ) : Prop :=
  0 < x ∨ (∃ n : ℤ, p = n ∧ (n < 0 → x ≠ 0)) ∨ (derived = true ∧ Third p ∧ x ≠ 0)

namespace Fits

theorem of_nat (n : ℕ) : Fits derived x n :=
  .inr (.inl ⟨n, by simp, fun h => absurd h (by omega)⟩)

theorem weaken (h : Fits false x p) : Fits derived x p := by
  rcases h with hpos | hint | ⟨hflag, -⟩
  · exact .inl hpos
  · exact .inr (.inl hint)
  · exact absurd hflag (by decide)

/-- A base that is not positive has integers or thirds of integers as exponents. -/
theorem third (h : Fits derived x p) (hx : x ≤ 0) : Third p := by
  rcases h with hpos | ⟨n, rfl, -⟩ | ⟨-, hthird, -⟩
  · exact absurd hpos hx.not_gt
  · exact third_intCast n
  · exact hthird

/-- The base zero has natural numbers as exponents. -/
theorem natural (h : Fits derived 0 p) : ∃ n : ℕ, p = n := by
  rcases h with hpos | ⟨n, rfl, hn⟩ | ⟨-, -, hne⟩
  · exact absurd hpos (lt_irrefl 0)
  · obtain ⟨m, rfl⟩ := Int.eq_ofNat_of_zero_le (not_lt.mp fun hneg => hn hneg rfl)
    exact ⟨m, rfl⟩
  · exact absurd rfl hne

/-- A base other than zero has an inverse with any integer. -/
theorem of_int (n : ℤ) (hx : x ≠ 0) : Fits derived x n :=
  .inr (.inl ⟨n, rfl, fun _ => hx⟩)

theorem rootPowerDefined (h : Fits derived x p) : RootPowerDefined x p := by
  refine ⟨fun hneg => h.third hneg.le, ?_⟩
  rintro rfl
  obtain ⟨n, rfl⟩ := h.natural
  exact Nat.cast_nonneg n

/-! ### Powers of one base -/

theorem add (hp : Fits derived x p) (hq : Fits derived x q) : Fits derived x (p + q) := by
  by_cases hx : x = 0
  · subst hx
    obtain ⟨m, rfl⟩ := hp.natural
    obtain ⟨n, rfl⟩ := hq.natural
    exact_mod_cast of_nat (m + n)
  rcases hp with hpos | ⟨m, rfl, -⟩ | ⟨hflag, hthird, -⟩
  · exact .inl hpos
  · rcases hq with hpos | ⟨n, rfl, -⟩ | ⟨hflag, hthird, -⟩
    · exact .inl hpos
    · exact_mod_cast of_int (m + n) hx
    · exact .inr (.inr ⟨hflag, (third_intCast m).add hthird, hx⟩)
  · rcases hq with hpos | ⟨n, rfl, -⟩ | ⟨-, hthird', -⟩
    · exact .inl hpos
    · exact .inr (.inr ⟨hflag, hthird.add (third_intCast n), hx⟩)
    · exact .inr (.inr ⟨hflag, hthird.add hthird', hx⟩)

/-! ### Powers of a product -/

/-- A whole exponent is distributed over any product. -/
theorem mul_of_whole {n : ℤ} (h : Fits derived (x * y) n) :
    Fits derived x n ∧ Fits derived y n ∧
      rootPower (x * y) n = rootPower x n * rootPower y n := by
  have hlaw : rootPower (x * y) n = rootPower x n * rootPower y n := by
    rw [rootPower_intCast, rootPower_intCast, rootPower_intCast, Real.rpow_intCast,
      Real.rpow_intCast, Real.rpow_intCast, mul_zpow]
  by_cases hzero : x * y = 0
  · rw [hzero] at h
    obtain ⟨m, hm⟩ := h.natural
    refine ⟨?_, ?_, hlaw⟩
    · exact hm ▸ of_nat m
    · exact hm ▸ of_nat m
  · exact ⟨of_int n (left_ne_zero_of_mul hzero), of_int n (right_ne_zero_of_mul hzero), hlaw⟩

/-- Factors that are not negative are positive, unless the exponent is whole. -/
theorem pos_of_mul (h : Fits derived (x * y) p) (hx : 0 ≤ x) (hy : 0 ≤ y) :
    (∃ n : ℤ, p = n) ∨ (0 < x ∧ 0 < y) := by
  by_cases hzero : x * y = 0
  · rw [hzero] at h
    obtain ⟨n, hn⟩ := h.natural
    exact .inl ⟨n, by rw [hn, Int.cast_natCast]⟩
  · exact .inr ⟨hx.lt_of_ne' (left_ne_zero_of_mul hzero), hy.lt_of_ne' (right_ne_zero_of_mul hzero)⟩

theorem mul_of_pos (hx : 0 < x) (hy : 0 < y) :
    rootPower (x * y) p = rootPower x p * rootPower y p := by
  rw [rootPower_of_nonneg (mul_pos hx hy).le, rootPower_of_nonneg hx.le, rootPower_of_nonneg hy.le,
    Real.mul_rpow hx.le hy.le]

/-! ### Powers of a power -/

/-- Exponents of a positive base multiply. -/
theorem power_of_pos (hx : 0 < x) : rootPower x (p * q) = rootPower (rootPower x p) q := by
  rw [rootPower_of_nonneg hx.le, rootPower_of_nonneg hx.le,
    rootPower_of_nonneg (Real.rpow_nonneg hx.le p), Real.rpow_mul hx.le]

/-- A natural exponent of a power keeps its exponent in its kind. -/
theorem power_natural (h : Fits derived x p) (n : ℕ) :
    Fits derived x (p * n) ∧ rootPower x (p * n) = rootPower (rootPower x p) n := by
  rcases lt_or_ge 0 x with hpos | hx
  · exact ⟨.inl hpos, power_of_pos hpos⟩
  · have hlaw : rootPower x (p * n) = rootPower (rootPower x p) n := by
      rw [← Int.cast_natCast, rootPower_rootPower x (h.third hx), mul_comm]
    refine ⟨?_, hlaw⟩
    rcases h with hpos | ⟨m, rfl, hm⟩ | ⟨hflag, hthird, hne⟩
    · exact .inl hpos
    · refine .inr (.inl ⟨m * n, by push_cast; rfl, fun hneg => hm ?_⟩)
      exact neg_of_mul_neg_left hneg (Int.natCast_nonneg n)
    · have hproduct : Third (p * n) := by
        rw [mul_comm, ← Int.cast_natCast]
        exact hthird.intCast_mul n
      exact .inr (.inr ⟨hflag, hproduct, hne⟩)

/-- A power of zero is one, or has natural numbers as exponents again. -/
theorem power_zero (hp : Fits false 0 p) (hq : Fits derived (rootPower 0 p) q) :
    p = 0 ∨ ∃ n : ℕ, q = n := by
  obtain ⟨k, rfl⟩ := hp.natural
  rcases Nat.eq_zero_or_pos k with rfl | hpos
  · exact .inl Nat.cast_zero
  · have hzero : rootPower 0 (k : ℝ) = 0 := by
      rw [rootPower_natCast, zero_pow hpos.ne']
    exact .inr (hzero ▸ hq).natural

/-- After an even exponent the magnitude of the base is enough. -/
theorem power_abs {m : ℤ} (hm : p = 2 * m) :
    rootPower |x| (p * q) = rootPower (rootPower x p) q := by
  have hp : p = ((2 * m : ℤ) : ℝ) := by rw [hm]; push_cast; rfl
  have heven : rootPower x p = |x| ^ p := by
    rw [hp, rootPower_intCast, rpow_abs_of_even (even_two_mul m)]
  rw [heven, rootPower_of_nonneg (abs_nonneg x),
    rootPower_of_nonneg (Real.rpow_nonneg (abs_nonneg x) p), Real.rpow_mul (abs_nonneg x)]

/-- Where an even exponent is hidden, and no even one is left, the base is not zero. -/
theorem ne_zero_of_hidden {m : ℤ} (hp : Fits false x p) (hm : p = 2 * m)
    (hq : Fits derived (rootPower x p) q) (hodd : ¬∃ n : ℤ, p * q = 2 * n) : x ≠ 0 := by
  rintro rfl
  rcases hp.power_zero hq with hzero | ⟨n, rfl⟩
  · exact hodd ⟨0, by rw [hzero]; simp⟩
  · exact hodd ⟨m * n, by rw [hm]; push_cast; ring⟩

/-- An even product of exponents does not see the sign that an even exponent hides. -/
theorem power_even {m n : ℤ} (hx : x ≠ 0) (hm : p = 2 * m) (hn : p * q = 2 * n) :
    Fits derived x (p * q) ∧ rootPower x (p * q) = rootPower (rootPower x p) q := by
  have hproduct : p * q = ((2 * n : ℤ) : ℝ) := by rw [hn]; push_cast; rfl
  refine ⟨hproduct ▸ of_int _ hx, ?_⟩
  rw [← power_abs hm, hproduct, rootPower_intCast, rootPower_intCast,
    rpow_abs_of_even (even_two_mul n)]

/-- An odd power of a negative base is negative too, so the outer exponent is an integer or a
third of one. -/
theorem power_odd {k : ℤ} (hk : Odd k) (hx : x < 0) (hq : Fits derived (rootPower x k) q) :
    Fits derived x (k * q) ∧ rootPower x (k * q) = rootPower (rootPower x k) q := by
  have hbase : rootPower x (k : ℝ) = x ^ k := by
    rw [rootPower_intCast, Real.rpow_intCast]
  have hnegative : x ^ k < 0 := hk.zpow_neg hx
  rw [hbase] at hq ⊢
  refine ⟨?_, (rootPower_zpow x k (hq.third hnegative.le)).symm⟩
  rcases hq with hpos | ⟨n, rfl, -⟩ | ⟨hflag, hthird, -⟩
  · exact absurd hpos hnegative.not_gt
  · exact_mod_cast of_int (k * n) hx.ne
  · exact .inr (.inr ⟨hflag, hthird.intCast_mul k, hx.ne⟩)

/-- Where no even exponent hides the sign of the base, exponents multiply. -/
theorem power (hp : Fits false x p) (hq : Fits derived (rootPower x p) q)
    (hsign : (∃ m : ℤ, p = 2 * m) → (∃ n : ℤ, p * q = 2 * n) ∨ 0 < x) :
    Fits derived x (p * q) ∧ rootPower x (p * q) = rootPower (rootPower x p) q := by
  rcases lt_trichotomy x 0 with hneg | rfl | hpos
  · rcases hp with hpos | ⟨k, rfl, -⟩ | ⟨hflag, -⟩
    · exact absurd hpos hneg.not_gt
    · rcases Int.even_or_odd k with heven | hodd
      · obtain ⟨m, rfl⟩ := heven.two_dvd
        have hm : ((2 * m : ℤ) : ℝ) = 2 * (m : ℝ) := by push_cast; rfl
        obtain ⟨n, hn⟩ := (hsign ⟨m, hm⟩).resolve_right hneg.not_gt
        exact power_even hneg.ne hm hn
      · exact power_odd hodd hneg hq
    · exact absurd hflag (by decide)
  · rcases hp.power_zero hq with rfl | ⟨n, rfl⟩
    · have hone : rootPower 0 (0 : ℝ) = 1 := by
        rw [rootPower_of_nonneg le_rfl, Real.rpow_zero]
      rw [zero_mul, hone, rootPower_of_nonneg zero_le_one, Real.one_rpow]
      have hnone : Fits derived 0 ((0 : ℕ) : ℝ) := of_nat 0
      exact ⟨by rwa [Nat.cast_zero] at hnone, rfl⟩
    · exact hp.weaken.power_natural n
  · exact ⟨.inl hpos, power_of_pos hpos⟩

end Fits

end DensityKernel
