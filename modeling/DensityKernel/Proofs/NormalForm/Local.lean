import DensityKernel.NormalForm.Local
import DensityKernel.Proofs.NormalForm.Reading

/-!
The rules that look at one node. A rule may make an expression defined at more
points, but where it was defined it keeps its value.
-/

namespace DensityKernel

open DensityKernel.Literal

namespace NormalForm

open DensityKernel.Expr

variable {K : Type} [Literal K] [Exact K] {R : Reading K} {e e' : Expr K}

/-! ### Literal operands -/

omit [Exact K] in
theorem foldLiterals_eq_some (h : foldLiterals e = some e') :
    ∃ op x y, e = .binary op (.num x) (.num y) ∧ isFinite (op.onLiterals x y) = true ∧
      e' = .num (op.onLiterals x y) := by
  unfold foldLiterals at h
  split at h
  case h_6 => exact absurd h (by simp)
  all_goals
    rename_i x y
    obtain ⟨hfinite, h⟩ := Option.ite_none_right_eq_some.mp h
    exact ⟨_, x, y, rfl, hfinite, (Option.some.inj h).symm⟩

/-- An operation on literals is the operation on their values, if the result is finite. -/
theorem foldLiterals_sound (h : foldLiterals e = some e') : R.RefinedBy e e' := by
  obtain ⟨op, x, y, rfl, hfinite, rfl⟩ := foldLiterals_eq_some h
  intro hdefined
  refine ⟨R.defined_num.mpr hfinite, R.value_num.trans ?_⟩
  cases op with
  | add =>
    obtain ⟨hx, hy⟩ := R.defined_add.mp hdefined
    rw [R.value_add, R.value_num, R.value_num]
    exact (Exact.add_spec (R.defined_num.mp hx) (R.defined_num.mp hy)).2
  | sub =>
    obtain ⟨hx, hy⟩ := R.defined_sub.mp hdefined
    rw [R.value_sub, R.value_num, R.value_num]
    exact (Exact.sub_spec (R.defined_num.mp hx) (R.defined_num.mp hy)).2
  | mul =>
    obtain ⟨hx, hy⟩ := R.defined_mul.mp hdefined
    rw [R.value_mul, R.value_num, R.value_num]
    exact (Exact.mul_spec (R.defined_num.mp hx) (R.defined_num.mp hy)).2
  | div =>
    obtain ⟨hx, hy, hne, -⟩ := R.defined_div hdefined
    rw [R.value_num] at hne
    rw [R.value_div, R.value_num, R.value_num]
    exact (Exact.div_spec (R.defined_num.mp hx) (R.defined_num.mp hy) hne).2
  | pow => exact R.real_pow hdefined hfinite

theorem foldCall_sound (h : foldCall e = some e') : R.RefinedBy e e' := by
  unfold foldCall at h
  split at h
  case h_2 => exact absurd h (by simp)
  rename_i name x
  obtain ⟨f, hf, h⟩ := Option.bind_eq_some_iff.mp h
  obtain ⟨-, h⟩ := Option.ite_none_right_eq_some.mp h
  obtain rfl := Option.some.inj h
  intro hdefined
  obtain ⟨g, u, hargs, hg, hx, hdomain⟩ := R.defined_call hdefined
  obtain rfl : Expr.num x = u := by simpa using hargs
  obtain rfl : f = g := Option.some.inj (hf.symm.trans hg)
  rw [R.value_num] at hdomain
  obtain ⟨hfinite, hreal⟩ := Exact.apply_spec (R.defined_num.mp hx) hdomain
  exact ⟨R.defined_num.mpr hfinite, by rw [R.value_num, R.value_call hf, R.value_num, hreal]⟩

/-! ### Neutral and absorbing operands -/

theorem dropNeutral_sound [DecidableEq K] (h : dropNeutral e = some e') : R.RefinedBy e e' := by
  unfold dropNeutral at h
  split at h
  · -- a sum
    rename_i u v
    intro hdefined
    obtain ⟨hu, hv⟩ := R.defined_add.mp hdefined
    split_ifs at h with hzero hzero <;> obtain rfl := Option.some.inj h
    · exact ⟨hv, by rw [R.value_add, R.value_of_isZero hzero, zero_add]⟩
    · exact ⟨hu, by rw [R.value_add, R.value_of_isZero hzero, add_zero]⟩
  · -- a difference
    rename_i u v
    intro hdefined
    obtain ⟨hu, hv⟩ := R.defined_sub.mp hdefined
    split_ifs at h with hzero hzero heq <;> obtain rfl := Option.some.inj h
    · exact ⟨hu, by rw [R.value_sub, R.value_of_isZero hzero, sub_zero]⟩
    · exact ⟨R.defined_negate.mpr hv, by
        rw [R.value_sub, R.value_of_isZero hzero, zero_sub, R.value_negate]⟩
    · exact ⟨R.defined_zero, by rw [R.value_sub, heq, sub_self, R.value_zero]⟩
  · -- a product
    rename_i u v
    intro hdefined
    obtain ⟨hu, hv⟩ := R.defined_mul.mp hdefined
    split_ifs at h with hzero hone hone <;> obtain rfl := Option.some.inj h
    · refine ⟨R.defined_zero, ?_⟩
      rcases (Bool.or_eq_true _ _).mp hzero with hzero | hzero
      · rw [R.value_mul, R.value_of_isZero hzero, zero_mul, R.value_zero]
      · rw [R.value_mul, R.value_of_isZero hzero, mul_zero, R.value_zero]
    · exact ⟨hv, by rw [R.value_mul, R.value_of_isOne hone, one_mul]⟩
    · exact ⟨hu, by rw [R.value_mul, R.value_of_isOne hone, mul_one]⟩
  · -- a quotient
    rename_i u v
    intro hdefined
    obtain ⟨hu, hv, -⟩ := R.defined_div hdefined
    split_ifs at h with hone hzero <;> obtain rfl := Option.some.inj h
    · exact ⟨hu, by rw [R.value_div, R.value_of_isOne hone, div_one]⟩
    · have hzero : u.isZero = true := ((Bool.and_eq_true _ _).mp hzero).1
      exact ⟨R.defined_zero, by rw [R.value_div, R.value_of_isZero hzero, zero_div, R.value_zero]⟩
  · -- a power
    rename_i u v
    intro hdefined
    obtain ⟨hu, hv⟩ := R.defined_pow hdefined
    split_ifs at h with hone hneutral <;> obtain rfl := Option.some.inj h
    · exact ⟨hu, (R.value_pow_one (R.value_of_isOne hone)).symm⟩
    · refine ⟨R.defined_one, R.value_one.trans (Eq.symm ?_)⟩
      rcases (Bool.or_eq_true _ _).mp hneutral with hzero | hone
      · exact R.value_pow_zero (R.value_of_isZero hzero)
      · exact R.value_one_pow (R.value_of_isOne hone)
  · exact absurd h (by simp)

/-! ### Quotients -/

theorem invertDenominator_sound (h : invertDenominator e = some e') : R.RefinedBy e e' := by
  unfold invertDenominator at h
  split at h
  · rename_i u n
    intro hdefined
    obtain ⟨hu, hn, hne, -⟩ := R.defined_div hdefined
    obtain ⟨-, h⟩ := Option.ite_none_right_eq_some.mp h
    obtain rfl := Option.some.inj h
    rw [R.value_num] at hne
    obtain ⟨hfinite, hreal⟩ := Exact.div_spec isFinite_one (R.defined_num.mp hn) hne
    refine ⟨R.defined_mul.mpr ⟨R.defined_num.mpr hfinite, hu⟩, ?_⟩
    rw [R.value_mul, R.value_num, hreal, real_one, R.value_div, R.value_num]
    ring
  · rename_i u v _
    intro hdefined
    obtain ⟨hu, hv, -, hinverse⟩ := R.defined_div hdefined
    obtain rfl := Option.some.inj h
    split_ifs with hone
    · refine ⟨hinverse, ?_⟩
      rw [R.value_inverse, R.value_div, R.value_of_isOne hone, one_div]
    · refine ⟨R.defined_mul.mpr ⟨hu, hinverse⟩, ?_⟩
      rw [R.value_mul, R.value_inverse, R.value_div, div_eq_mul_inv]
  · exact absurd h (by simp)

end NormalForm

end DensityKernel
