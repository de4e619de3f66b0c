import DensityKernel.Expr.Derivative
import DensityKernel.Proofs.Derivative.Regular
import DensityKernel.Proofs.Reals.Power

/-!
Where the expressions that the rules of differentiation build have values. Leaving out a literal
zero may remove a part that has none: a product with a literal zero is defined whatever the other
factor is. At a regular point each rule needs the derivatives of the operands that it does not
leave out, and nothing else, but for the slope of the cube root, which has a value at positive
arguments only.
-/

namespace DensityKernel.Expr

open DensityKernel.Literal

variable {K : Type} [Literal K] {ρ : String → ℝ} {u v p q du dv : Expr K}

/-! ### The parts of a derivative -/

theorem isZero_times (hu : u.isZero = false) (hv : v.isZero = false) :
    (times u v).isZero = false := by
  unfold times
  split_ifs with hzero
  · simp [hu, hv] at hzero
  · exact hv
  · exact hu
  · rfl

section Parts

variable [Valued K]

@[simp] theorem value_squared : u.squared.value (.usual ρ) = u.value (.usual ρ) ^ 2 := by
  rw [squared, value_pow, value_num, real_two, Real.rpow_two]

theorem value_of {f : Elementary} : (f.of u).value (.usual ρ) = f.onReal (u.value (.usual ρ)) :=
  value_call f.lookup?_name

theorem defined_times_iff :
    (times u v).Defined ρ ↔ u.isZero = true ∨ v.isZero = true ∨ (u.Defined ρ ∧ v.Defined ρ) := by
  unfold times
  split_ifs with hzero hu hv
  · rcases (Bool.or_eq_true _ _).mp hzero with h | h <;> simp [h]
  · simp_all [defined_of_isOne hu]
  · simp_all [defined_of_isOne hv]
  · simp_all

@[simp] theorem defined_plus_iff : (plus u v).Defined ρ ↔ u.Defined ρ ∧ v.Defined ρ := by
  unfold plus
  split_ifs with hu hv
  · simp [defined_of_isZero hu]
  · simp [defined_of_isZero hv]
  · exact defined_add

@[simp] theorem defined_minus_iff : (minus u v).Defined ρ ↔ u.Defined ρ ∧ v.Defined ρ := by
  unfold minus
  split_ifs with hv hu
  · simp [defined_of_isZero hv]
  · simp [defined_of_isZero hu]
  · exact defined_sub

@[simp] theorem defined_quotientNumerator_iff :
    (quotientNumerator p q).Defined ρ ↔ p.Defined ρ ∧ q.Defined ρ := by
  unfold quotientNumerator
  split_ifs with hp hq
  · simp [defined_of_isZero hp]
  · simp [defined_of_isZero hq]
  · exact defined_sub

theorem defined_of {g : Elementary} (hu : u.Defined ρ) (hx : g.DefinedAt (u.value (.usual ρ))) :
    (g.of u).Defined ρ :=
  defined_call_iff.mpr ⟨g, u, rfl, g.lookup?_name, hu, hx⟩

theorem defined_squared (hu : u.Defined ρ) : u.squared.Defined ρ :=
  ⟨hu, isFinite_two, ⟨fun _ => ⟨2, by simp⟩, fun _ => by simp⟩⟩

theorem defined_inverted (hu : u.Defined ρ) (hne : u.value (.usual ρ) ≠ 0) :
    u.inverted.Defined ρ :=
  ⟨hu, isFinite_minusOne, by
    rw [Operator.DefinedAt, value_num, real_minusOne]
    exact .exponent_minusOne hne⟩

/-- A derivative that is multiplied by an operand, which may be a literal zero. -/
theorem defined_times_of_defined (hv : v.Defined ρ) :
    (times du v).Defined ρ ↔ (¬v.isZero → du.Defined ρ) := by
  rw [defined_times_iff]
  by_cases hzero : v.isZero = true
  · simp [hzero]
  · simp only [hzero, hv, and_true, Bool.false_eq_true, false_or, not_false_eq_true, forall_const]
    exact or_iff_right_of_imp defined_of_isZero

/-- A derivative that is multiplied to something, unless it is a literal one. -/
theorem defined_scaled {lowered : Expr K} (hlowered : lowered.Defined ρ) :
    (if du.isOne then lowered else Expr.mul lowered du).Defined ρ ↔ du.Defined ρ := by
  split_ifs with hone
  · exact iff_of_true hlowered (defined_of_isOne hone)
  · rw [defined_mul, and_iff_right hlowered]

theorem isZero_eq_false_of_value_ne (h : u.value (.usual ρ) ≠ 0) : u.isZero = false :=
  Bool.eq_false_iff.mpr fun hzero => h (value_of_isZero hzero)

end Parts

/-! ### Slopes -/

section Slopes

variable [Exact K]

/-- No slope is left out as a literal zero. -/
theorem isZero_slope (g : Elementary) : (g.slope u).isZero = false := by
  have hminusOne : (num minusOne : Expr K).isZero = false :=
    isZero_eq_false_of_value_ne (ρ := fun _ => 0) (by simp)
  cases g with
  | cos => exact isZero_times hminusOne rfl
  | _ => rfl

/-- A cube root is differentiated into a power that has a value at positive
arguments only. -/
theorem pos_of_defined_slope_cbrt (h : (Elementary.cbrt.slope u).Defined ρ)
    (hu : u.value (.usual ρ) ≠ 0) : 0 < u.value (.usual ρ) := by
  obtain ⟨-, -, hpow⟩ := defined_pow.mp (defined_mul.mp h).2
  rw [value_num, minusTwoThirds_spec.2] at hpow
  rcases hu.lt_or_gt with hneg | hpos
  · obtain ⟨n, hn⟩ := hpow.1 hneg
    have h3 : (3 * n : ℝ) = -2 := by rw [← hn]; norm_num
    have h3' : 3 * n = -2 := by exact_mod_cast h3
    omega
  · exact hpos

/-- **The slopes have values at regular points**, but for that of the cube root at a negative
argument. -/
theorem defined_slope_iff {g : Elementary} (hu : u.Defined ρ)
    (hx : g.RegularAt (u.value (.usual ρ))) :
    (g.slope u).Defined ρ ↔ (g = .cbrt → 0 < u.value (.usual ρ)) := by
  have hnegated : ∀ {w : Expr K}, w.Defined ρ → (times (.num minusOne) w).Defined ρ :=
    fun hw => defined_times_iff.mpr (.inr (.inr ⟨isFinite_minusOne, hw⟩))
  have hsum : (Expr.add one u.squared).Defined ρ :=
    defined_add.mpr ⟨defined_one, defined_squared hu⟩
  have hpos : 0 < (Expr.add one u.squared).value (.usual ρ) := by
    rw [value_add, value_one, value_squared]
    positivity
  cases g with
  | cbrt =>
    refine ⟨fun h _ => pos_of_defined_slope_cbrt h hx, fun h => ?_⟩
    exact defined_mul.mpr ⟨third_spec.1, hu, minusTwoThirds_spec.1, .of_pos (h rfl)⟩
  | exp => exact iff_of_true (defined_of hu trivial) nofun
  | ln | log => exact iff_of_true (defined_inverted hu (ne_of_gt hx)) nofun
  | sqrt =>
    exact iff_of_true (defined_mul.mpr ⟨isFinite_half, hu, isFinite_minusHalf, .of_pos hx⟩) nofun
  | sin => exact iff_of_true (defined_of hu trivial) nofun
  | cos => exact iff_of_true (hnegated (defined_of hu trivial)) nofun
  | tan =>
    exact iff_of_true
      (defined_add.mpr ⟨defined_one, defined_squared (defined_of (g := .tan) hu hx)⟩) nofun
  | atan => exact iff_of_true (defined_inverted hsum hpos.ne') nofun
  | sinh => exact iff_of_true (defined_of hu trivial) nofun
  | cosh => exact iff_of_true (defined_of hu trivial) nofun
  | tanh =>
    exact iff_of_true
      (defined_sub.mpr ⟨defined_one, defined_squared (defined_of (g := .tanh) hu trivial)⟩) nofun
  | asinh => exact iff_of_true ⟨hsum, isFinite_minusHalf, .of_pos hpos⟩ nofun
  | erf =>
    exact iff_of_true (defined_mul.mpr
      ⟨Exact.erfSlope_spec.1, defined_of (g := .exp) (hnegated (defined_squared hu)) trivial⟩) nofun
  | abs =>
    refine iff_of_true (defined_mul.mpr ⟨hu, defined_inverted (defined_of hu trivial) ?_⟩) nofun
    rw [value_of]
    exact abs_ne_zero.mpr hx

/-- The chain rule. -/
theorem defined_chain_iff {g : Elementary} (hu : u.Defined ρ)
    (hx : g.RegularAt (u.value (.usual ρ))) :
    (if du.isZero then zero else times (g.slope u) du).Defined ρ ↔
      du.Defined ρ ∧ (g = .cbrt → du.isZero = false → 0 < u.value (.usual ρ)) := by
  split_ifs with hdu
  · exact iff_of_true defined_zero ⟨defined_of_isZero hdu, fun _ h => by simp [hdu] at h⟩
  · rw [Bool.not_eq_true] at hdu
    rw [defined_times_iff, isZero_slope, hdu, defined_slope_iff hu hx]
    simp only [Bool.false_eq_true, false_or, forall_const]
    exact and_comm

end Slopes

/-! ### The rules -/

section Rules

variable [Exact K]

/-- The quotient rule. -/
theorem defined_quotientDerivative_iff (hu : u.Defined ρ) (hv : v.Defined ρ)
    (hne : v.value (.usual ρ) ≠ 0) :
    (quotientDerivative u v du dv).Defined ρ ↔
      du.Defined ρ ∧ (¬u.isZero → dv.Defined ρ) := by
  have hfirst : (times du v).Defined ρ ↔ du.Defined ρ := by
    rw [defined_times_of_defined hv, isZero_eq_false_of_value_ne hne]
    simp
  unfold quotientDerivative
  split_ifs with hboth hdv hone
  · obtain ⟨hdu, hdv⟩ := (Bool.and_eq_true _ _).mp hboth
    exact iff_of_true defined_zero ⟨defined_of_isZero hdu, fun _ => defined_of_isZero hdv⟩
  · exact (and_iff_left fun _ => defined_of_isZero hdv).symm
  · rw [defined_div, and_iff_left fun _ => defined_of_isZero hdv]
    exact and_iff_left ⟨hv, hne⟩
  · rw [defined_div, defined_quotientNumerator_iff, hfirst, defined_times_of_defined hu]
    exact and_iff_left ⟨defined_squared hv, by rw [value_squared]; exact pow_ne_zero 2 hne⟩

/-- A literal exponent other than zero can be lowered by one. -/
theorem defined_lowered {n : K} (hu : u.Defined ρ) (hn : isFinite n = true)
    (hregular : RegularOperation ρ .pow u (num n)) (hzero : ¬Literal.isZero n = true) :
    (Expr.pow u (.num (n - Literal.one))).Defined ρ := by
  obtain ⟨hfinite, hreal⟩ := Exact.sub_spec hn (isFinite_one (K := K))
  refine ⟨hu, hfinite, ?_⟩
  rw [Operator.DefinedAt, value_num, hreal, real_one]
  rcases hregular with hpos | ⟨x, k, hx, hk, hne⟩
  · exact .of_pos hpos
  · obtain rfl : n = x := Expr.num.inj hx
    have hk0 : k ≠ 0 := by
      rintro rfl
      exact hzero (isZero_iff.mpr ⟨hn, by rw [hk, Int.cast_zero]⟩)
    refine ⟨fun _ => ⟨k - 1, by rw [hk]; push_cast; rfl⟩, fun hbase => ?_⟩
    have hk1 : 1 ≤ k := by
      have : ¬k < 0 := fun hneg => hne hneg hbase
      omega
    rw [hk, sub_nonneg]
    exact_mod_cast hk1

/-- The power rule. The exponent is lowered by one where it is not a literal zero or one. -/
theorem defined_powerDerivative_iff (hu : u.Defined ρ) (hv : v.Defined ρ)
    (hregular : RegularOperation ρ .pow u v) :
    (powerDerivative u v du).Defined ρ ↔ (¬v.isZero → du.Defined ρ) := by
  unfold powerDerivative
  by_cases hdu : du.isZero = true
  · rw [if_pos hdu]
    exact iff_of_true defined_zero fun _ => defined_of_isZero hdu
  rw [if_neg hdu]
  cases v with
  | num n =>
    dsimp only
    by_cases hzero : Literal.isZero n = true
    · rw [if_pos hzero]
      exact iff_of_true defined_zero fun h => absurd hzero h
    have hnonzero : ¬(num n : Expr K).isZero := hzero
    rw [if_neg hzero, forall_prop_of_true hnonzero]
    by_cases hone : Literal.isOne n = true
    · rw [if_pos hone]
    · rw [if_neg hone]
      exact defined_mul.trans ((and_iff_right hv).trans
        (defined_scaled (defined_lowered hu hv hregular hzero)))
  | sym | call | binary =>
    have hpos : 0 < u.value (.usual ρ) := by
      rcases hregular with hpos | ⟨x, -, hx, -⟩
      · exact hpos
      · cases hx
    have hlowered : ∀ {w : Expr K}, w.Defined ρ → (Expr.pow u (.sub w one)).Defined ρ :=
      fun hw => ⟨hu, defined_sub.mpr ⟨hw, defined_one⟩, .of_pos hpos⟩
    rw [forall_prop_of_true (by simp [isZero])]
    exact defined_mul.trans ((and_iff_right hv).trans (defined_scaled (hlowered hv)))

/-- Logarithmic differentiation, at a positive base. -/
theorem defined_exponentialDerivative_iff (hu : u.Defined ρ) (hv : v.Defined ρ)
    (hpos : 0 < u.value (.usual ρ)) :
    (exponentialDerivative u v du dv).Defined ρ ↔ du.Defined ρ ∧ dv.Defined ρ := by
  unfold exponentialDerivative
  extract_lets ofExponent ofBase total
  have hexponent : ofExponent.Defined ρ ↔ dv.Defined ρ := by
    unfold ofExponent
    split_ifs with hdv
    · exact iff_of_true defined_zero (defined_of_isZero hdv)
    · exact Iff.rfl
    · rw [defined_mul]
      exact and_iff_left (defined_of (g := .ln) hu hpos)
  have hbase : ofBase.Defined ρ ↔ du.Defined ρ := by
    unfold ofBase
    split_ifs with hdu
    · exact iff_of_true defined_zero (defined_of_isZero hdu)
    · rw [defined_mul, and_iff_right hv, defined_div]
      exact and_iff_left ⟨hu, hpos.ne'⟩
  have htotal : total.Defined ρ ↔ du.Defined ρ ∧ dv.Defined ρ :=
    defined_plus_iff.trans ((and_congr hexponent hbase).trans and_comm)
  split_ifs with hzero
  · exact iff_of_true defined_zero (htotal.mp (defined_of_isZero hzero))
  · rw [defined_mul, htotal]
    exact and_iff_right ⟨hu, hv, .of_pos hpos⟩

end Rules

end DensityKernel.Expr
