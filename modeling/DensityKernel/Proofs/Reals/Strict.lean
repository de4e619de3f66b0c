import DensityKernel.Proofs.Reals.Literal

/-!
Exact literals on which nothing is done that has no value. The root of a
negative number is no finite literal: where the arithmetic of doubles has no
result it gives NaN or an infinity, and simplification keeps such a power as it
is written.
-/

namespace DensityKernel

namespace Literal

/-- A power of finite literals that is finite has a value. -/
class Strict (K : Type) [Literal K] [Exact K] : Prop where
  powerDefined : ∀ {x y : K}, isFinite x = true → isFinite y = true →
    isFinite (pow x y) = true → PowerDefined (real x) (real y)

end Literal

/-! ### Real numbers with a mark -/

/-- A real number, which is not finite if it stands for a result without a value. -/
structure CheckedNumber where
  value : ℝ
  finite : Bool

namespace CheckedNumber

open Classical in
noncomputable instance : Literal CheckedNumber where
  add x y := ⟨x.value + y.value, x.finite && y.finite⟩
  sub x y := ⟨x.value - y.value, x.finite && y.finite⟩
  mul x y := ⟨x.value * y.value, x.finite && y.finite⟩
  div x y := ⟨x.value / y.value, x.finite && y.finite && decide (y.value ≠ 0)⟩
  neg x := ⟨-x.value, x.finite⟩
  ofInt n := ⟨n, true⟩
  pow x y := ⟨x.value ^ y.value, x.finite && y.finite && decide (PowerDefined x.value y.value)⟩
  magnitude x := ⟨|x.value|, x.finite⟩
  max x y := ⟨max x.value y.value, x.finite && y.finite⟩
  eq x y := x.finite && y.finite && decide (x.value = y.value)
  lt x y := x.finite && y.finite && decide (x.value < y.value)
  le x y := x.finite && y.finite && decide (x.value ≤ y.value)
  isFinite := finite
  isWhole x := x.finite && decide (∃ n : ℤ, x.value = n)
  isEven x := x.finite && decide (∃ n : ℤ, x.value = 2 * n)
  cancels sum _ := decide (sum.value = 0)
  pi := ⟨Real.pi, true⟩
  euler := ⟨Real.exp 1, true⟩
  erfSlope := ⟨2 / √Real.pi, true⟩
  apply f x := ⟨f.onReal x.value, x.finite && decide (f.DefinedAt x.value)⟩

open Classical in
noncomputable instance : Literal.Exact CheckedNumber where
  real := value
  eq_iff {x y} hy := by
    simp only [Literal.isFinite] at hy
    simp [Literal.eq, Literal.isFinite, hy]
  lt_iff {x y} hx hy := by
    simp only [Literal.isFinite] at hx hy
    simp [Literal.lt, hx, hy]
  le_iff {x y} hx hy := by
    simp only [Literal.isFinite] at hx hy
    simp [Literal.le, hx, hy]
  isWhole_iff {x} hx := by
    simp only [Literal.isFinite] at hx
    simp [Literal.isWhole, hx]
  isEven_iff {x} hx := by
    simp only [Literal.isFinite] at hx
    simp [Literal.isEven, hx]
  small _ _ := ⟨rfl, rfl⟩
  half_spec := by
    refine ⟨?_, show ((1 : ℤ) : ℝ) / ((2 : ℤ) : ℝ) = 1 / 2 by norm_num⟩
    exact decide_eq_true (by norm_num : ((2 : ℤ) : ℝ) ≠ 0)
  minusHalf_spec := by
    refine ⟨?_, show ((-1 : ℤ) : ℝ) / ((2 : ℤ) : ℝ) = -1 / 2 by norm_num⟩
    exact decide_eq_true (by norm_num : ((2 : ℤ) : ℝ) ≠ 0)
  ofInt_spec _ := ⟨rfl, rfl⟩
  add_spec hx hy := ⟨Bool.and_eq_true_iff.mpr ⟨hx, hy⟩, rfl⟩
  sub_spec hx hy := ⟨Bool.and_eq_true_iff.mpr ⟨hx, hy⟩, rfl⟩
  mul_spec hx hy := ⟨Bool.and_eq_true_iff.mpr ⟨hx, hy⟩, rfl⟩
  neg_spec hx := ⟨hx, rfl⟩
  div_spec hx hy hne :=
    ⟨Bool.and_eq_true_iff.mpr ⟨Bool.and_eq_true_iff.mpr ⟨hx, hy⟩, decide_eq_true hne⟩, rfl⟩
  pow_spec hx hy hp :=
    ⟨Bool.and_eq_true_iff.mpr ⟨Bool.and_eq_true_iff.mpr ⟨hx, hy⟩, decide_eq_true hp⟩, rfl⟩
  apply_spec hx hf := ⟨Bool.and_eq_true_iff.mpr ⟨hx, decide_eq_true hf⟩, rfl⟩
  erfSlope_spec := ⟨rfl, rfl⟩
  cancels_spec _ := decide_eq_true_iff.mp

open Classical in
instance : Literal.Strict CheckedNumber where
  powerDefined _ _ h := of_decide_eq_true (Bool.and_eq_true_iff.mp h).2

noncomputable instance : DecidableEq CheckedNumber := Classical.decEq _

/-- No text can tell all real numbers apart, so they share one. -/
instance : Spelling CheckedNumber where
  plain _ := "x"
  inFormula _ := "x"
  inC _ := "x"
  read? _ := none

end CheckedNumber

end DensityKernel
