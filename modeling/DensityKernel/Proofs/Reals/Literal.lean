import DensityKernel.Literal
import DensityKernel.Proofs.Reals.Functions

/-!
Literals that stand for real numbers.

* `Literal.Valued`: every finite literal has a real value and the comparisons
  of literals are those of the values. Two literals may have one value, as the
  two zeros of a double do.
* `Literal.Exact`: in addition the arithmetic on literals rounds nothing and
  overflows nowhere. Statements about exact arithmetic are statements about
  such literals.
* `ExactNumber`: the real numbers themselves as literals, so that neither class
  is empty.
-/

namespace DensityKernel

/-- A power has a value: a negative base needs an integer exponent, and a zero
base an exponent that is not negative. -/
def PowerDefined (x y : ℝ) : Prop :=
  (x < 0 → ∃ n : ℤ, y = n) ∧ (x = 0 → 0 ≤ y)

namespace Literal

/-- Finite literals stand for real numbers. The value of a literal that is not
finite has no meaning. -/
class Valued (K : Type) [Literal K] where
  real : K → ℝ
  /-- Only a finite literal equals a finite one. -/
  eq_iff : ∀ {x y : K}, isFinite y = true →
    (eq x y = true ↔ isFinite x = true ∧ real x = real y)
  lt_iff : ∀ {x y : K}, isFinite x = true → isFinite y = true → (lt x y = true ↔ real x < real y)
  le_iff : ∀ {x y : K}, isFinite x = true → isFinite y = true → (le x y = true ↔ real x ≤ real y)
  isWhole_iff : ∀ {x : K}, isFinite x = true → (isWhole x = true ↔ ∃ n : ℤ, real x = n)
  isEven_iff : ∀ {x : K}, isFinite x = true → (isEven x = true ↔ ∃ n : ℤ, real x = 2 * n)
  /-- The integers that the library writes into expressions are exact. -/
  small : ∀ n : ℤ, n.natAbs ≤ 3 → isFinite (ofInt n : K) = true ∧ real (ofInt n : K) = n
  half_spec : isFinite (half : K) = true ∧ real (half : K) = 1 / 2
  minusHalf_spec : isFinite (minusHalf : K) = true ∧ real (minusHalf : K) = -1 / 2

export Valued (real)

section Valued

variable {K : Type} [Literal K] [Valued K] {x y : K}

@[simp] theorem isFinite_zero : isFinite (zero : K) = true := (Valued.small 0 (by decide)).1

@[simp] theorem isFinite_one : isFinite (one : K) = true := (Valued.small 1 (by decide)).1

@[simp] theorem isFinite_two : isFinite (two : K) = true := (Valued.small 2 (by decide)).1

@[simp] theorem isFinite_minusOne : isFinite (minusOne : K) = true :=
  (Valued.small (-1) (by decide)).1

@[simp] theorem isFinite_half : isFinite (half : K) = true := Valued.half_spec.1

@[simp] theorem isFinite_minusHalf : isFinite (minusHalf : K) = true := Valued.minusHalf_spec.1

@[simp] theorem real_zero : real (zero : K) = 0 :=
  (Valued.small 0 (by decide)).2.trans (by norm_num)

@[simp] theorem real_one : real (one : K) = 1 :=
  (Valued.small 1 (by decide)).2.trans (by norm_num)

@[simp] theorem real_two : real (two : K) = 2 :=
  (Valued.small 2 (by decide)).2.trans (by norm_num)

@[simp] theorem real_minusOne : real (minusOne : K) = -1 :=
  (Valued.small (-1) (by decide)).2.trans (by norm_num)

@[simp] theorem real_half : real (half : K) = 1 / 2 := Valued.half_spec.2

@[simp] theorem real_minusHalf : real (minusHalf : K) = -1 / 2 := Valued.minusHalf_spec.2

theorem isZero_iff : isZero x = true ↔ isFinite x = true ∧ real x = 0 := by
  rw [isZero, Valued.eq_iff isFinite_zero, real_zero]

theorem isOne_iff : isOne x = true ↔ isFinite x = true ∧ real x = 1 := by
  rw [isOne, Valued.eq_iff isFinite_one, real_one]

theorem isMinusOne_iff : isMinusOne x = true ↔ isFinite x = true ∧ real x = -1 := by
  rw [isMinusOne, Valued.eq_iff isFinite_minusOne, real_minusOne]

theorem isNegative_iff (hx : isFinite x = true) : isNegative x = true ↔ real x < 0 := by
  rw [isNegative, Valued.lt_iff hx isFinite_zero, real_zero]

theorem isNonNegative_iff (hx : isFinite x = true) : isNonNegative x = true ↔ 0 ≤ real x := by
  rw [isNonNegative, Valued.le_iff isFinite_zero hx, real_zero]

end Valued

/-- Arithmetic without rounding and without overflow. A quotient, a power or a
function is exact where it has a value; elsewhere nothing is said. -/
class Exact (K : Type) [Literal K] extends Valued K where
  ofInt_spec : ∀ n : ℤ, isFinite (ofInt n : K) = true ∧ real (ofInt n : K) = n
  add_spec : ∀ {x y : K}, isFinite x = true → isFinite y = true →
    isFinite (x + y) = true ∧ real (x + y) = real x + real y
  sub_spec : ∀ {x y : K}, isFinite x = true → isFinite y = true →
    isFinite (x - y) = true ∧ real (x - y) = real x - real y
  mul_spec : ∀ {x y : K}, isFinite x = true → isFinite y = true →
    isFinite (x * y) = true ∧ real (x * y) = real x * real y
  neg_spec : ∀ {x : K}, isFinite x = true → isFinite (-x) = true ∧ real (-x) = -real x
  div_spec : ∀ {x y : K}, isFinite x = true → isFinite y = true → real y ≠ 0 →
    isFinite (x / y) = true ∧ real (x / y) = real x / real y
  pow_spec : ∀ {x y : K}, isFinite x = true → isFinite y = true → PowerDefined (real x) (real y) →
    isFinite (pow x y) = true ∧ real (pow x y) = real x ^ real y
  apply_spec : ∀ {f : Elementary} {x : K}, isFinite x = true → f.DefinedAt (real x) →
    isFinite (apply f x) = true ∧ real (apply f x) = f.onReal (real x)
  erfSlope_spec : isFinite (erfSlope : K) = true ∧ real (erfSlope : K) = 2 / √Real.pi
  /-- A sum of like coefficients is discarded only if it is zero. -/
  cancels_spec : ∀ {sum scale : K}, isFinite sum = true → cancels sum scale = true → real sum = 0

section Exact

variable {K : Type} [Literal K] [Exact K]

theorem third_spec : isFinite (third : K) = true ∧ real (third : K) = 1 / 3 := by
  obtain ⟨hfinite, hreal⟩ := Exact.ofInt_spec (K := K) 3
  have h := Exact.div_spec (isFinite_one (K := K)) hfinite (by rw [hreal]; norm_num)
  rw [hreal, real_one] at h
  exact ⟨h.1, h.2.trans (by norm_num)⟩

theorem minusTwoThirds_spec :
    isFinite (minusTwoThirds : K) = true ∧ real (minusTwoThirds : K) = -2 / 3 := by
  obtain ⟨hnum, hnumReal⟩ := Exact.ofInt_spec (K := K) (-2)
  obtain ⟨hden, hdenReal⟩ := Exact.ofInt_spec (K := K) 3
  have h := Exact.div_spec hnum hden (by rw [hdenReal]; norm_num)
  rw [hnumReal, hdenReal] at h
  exact ⟨h.1, h.2.trans (by norm_num)⟩

end Exact

end Literal

/-! ### Real numbers as literals -/

/-- A real number as a literal. -/
structure ExactNumber where
  value : ℝ

namespace ExactNumber

open Classical in
noncomputable instance : Literal ExactNumber where
  add x y := ⟨x.value + y.value⟩
  sub x y := ⟨x.value - y.value⟩
  mul x y := ⟨x.value * y.value⟩
  div x y := ⟨x.value / y.value⟩
  neg x := ⟨-x.value⟩
  ofInt n := ⟨n⟩
  pow x y := ⟨x.value ^ y.value⟩
  magnitude x := ⟨|x.value|⟩
  max x y := ⟨max x.value y.value⟩
  eq x y := decide (x.value = y.value)
  lt x y := decide (x.value < y.value)
  le x y := decide (x.value ≤ y.value)
  isFinite _ := true
  isWhole x := decide (∃ n : ℤ, x.value = n)
  isEven x := decide (∃ n : ℤ, x.value = 2 * n)
  cancels sum _ := decide (sum.value = 0)
  pi := ⟨Real.pi⟩
  euler := ⟨Real.exp 1⟩
  erfSlope := ⟨2 / √Real.pi⟩
  apply f x := ⟨f.onReal x.value⟩

noncomputable instance : Literal.Exact ExactNumber where
  real := value
  eq_iff _ := by simp [Literal.eq, Literal.isFinite]
  lt_iff _ _ := decide_eq_true_iff
  le_iff _ _ := decide_eq_true_iff
  isWhole_iff _ := by simp [Literal.isWhole]
  isEven_iff _ := by simp [Literal.isEven]
  small _ _ := ⟨rfl, rfl⟩
  half_spec := ⟨rfl, show ((1 : ℤ) : ℝ) / ((2 : ℤ) : ℝ) = 1 / 2 by norm_num⟩
  minusHalf_spec := ⟨rfl, show ((-1 : ℤ) : ℝ) / ((2 : ℤ) : ℝ) = -1 / 2 by norm_num⟩
  ofInt_spec _ := ⟨rfl, rfl⟩
  add_spec _ _ := ⟨rfl, rfl⟩
  sub_spec _ _ := ⟨rfl, rfl⟩
  mul_spec _ _ := ⟨rfl, rfl⟩
  neg_spec _ := ⟨rfl, rfl⟩
  div_spec _ _ _ := ⟨rfl, rfl⟩
  pow_spec _ _ _ := ⟨rfl, rfl⟩
  apply_spec _ _ := ⟨rfl, rfl⟩
  erfSlope_spec := ⟨rfl, rfl⟩
  cancels_spec _ := decide_eq_true_iff.mp

noncomputable instance : DecidableEq ExactNumber := Classical.decEq _

/-- No text can tell all real numbers apart, so they share one. -/
instance : Spelling ExactNumber where
  plain _ := "x"
  inFormula _ := "x"
  inC _ := "x"
  read? _ := none

end ExactNumber

end DensityKernel
