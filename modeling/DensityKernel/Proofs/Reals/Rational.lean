import DensityKernel.Proofs.Reals.Strict
import Mathlib.Data.Rat.Cast.Order

/-!
Exact literals that are computed with. A rational number stays a rational number
under the operations that stay among them, so that a derivative or a normal form
whose literals are rational is found by evaluation. Every other result is a real
number with a mark, and all laws are those of the marked numbers
(`RationalOrReal.checked`).
-/

namespace DensityKernel

open Literal

/-- A rational number, or any real number with a mark. -/
inductive RationalOrReal where
  | rational (q : ℚ)
  | other (x : CheckedNumber)

namespace RationalOrReal

/-- The marked number that it stands for. -/
def checked : RationalOrReal → CheckedNumber
  | rational q => ⟨q, true⟩
  | other x => x

/-- An operation under which rational numbers stay rational. -/
def lift (onRational : ℚ → ℚ → ℚ) (onReal : CheckedNumber → CheckedNumber → CheckedNumber) :
    RationalOrReal → RationalOrReal → RationalOrReal
  | rational p, rational q => rational (onRational p q)
  | x, y => other (onReal x.checked y.checked)

/-- A question about two numbers. -/
def ask (onRational : ℚ → ℚ → Bool) (onReal : CheckedNumber → CheckedNumber → Bool) :
    RationalOrReal → RationalOrReal → Bool
  | rational p, rational q => onRational p q
  | x, y => onReal x.checked y.checked

noncomputable instance : Literal RationalOrReal where
  add := lift (· + ·) (· + ·)
  sub := lift (· - ·) (· - ·)
  mul := lift (· * ·) (· * ·)
  div
    | rational p, rational q =>
      if q = 0 then other ((rational p).checked / (rational q).checked) else rational (p / q)
    | x, y => other (x.checked / y.checked)
  neg
    | rational q => rational (-q)
    | other x => other (-x)
  ofInt n := rational n
  pow x y := other (Literal.pow x.checked y.checked)
  magnitude
    | rational q => rational |q|
    | other x => other (Literal.magnitude x)
  max := lift max Literal.max
  eq := ask (fun p q => decide (p = q)) Literal.eq
  lt := ask (fun p q => decide (p < q)) Literal.lt
  le := ask (fun p q => decide (p ≤ q)) Literal.le
  isFinite
    | rational _ => true
    | other x => Literal.isFinite x
  isWhole
    | rational q => decide (q.den = 1)
    | other x => Literal.isWhole x
  isEven
    | rational q => decide (q.den = 1 ∧ q.num % 2 = 0)
    | other x => Literal.isEven x
  cancels sum _ := ask (fun p q => decide (p = q)) Literal.eq sum (rational 0)
  pi := other Literal.pi
  euler := other Literal.euler
  erfSlope := other Literal.erfSlope
  apply f x := other (Literal.apply f x.checked)

noncomputable instance : DecidableEq RationalOrReal
  | rational p, rational q => decidable_of_iff (p = q) ⟨congrArg rational, rational.inj⟩
  | rational _, other _ => isFalse nofun
  | other _, rational _ => isFalse nofun
  | other x, other y => decidable_of_iff (x = y) ⟨congrArg other, other.inj⟩

/-- As for marked numbers, one text has to do for all. -/
instance : Spelling RationalOrReal where
  plain _ := "n"
  inFormula _ := "n"
  inC _ := "n"
  read? _ := none

/-! ### Laws -/

section Laws

variable {x y : RationalOrReal}

theorem checked_lift {onRational : ℚ → ℚ → ℚ}
    {onReal : CheckedNumber → CheckedNumber → CheckedNumber}
    (h : ∀ p q : ℚ, (⟨onRational p q, true⟩ : CheckedNumber) = onReal ⟨p, true⟩ ⟨q, true⟩) :
    (lift onRational onReal x y).checked = onReal x.checked y.checked := by
  cases x <;> cases y
  case rational.rational p q => exact h p q
  all_goals rfl

theorem ask_eq {onRational : ℚ → ℚ → Bool} {onReal : CheckedNumber → CheckedNumber → Bool}
    (h : ∀ p q : ℚ, onRational p q = onReal ⟨p, true⟩ ⟨q, true⟩) :
    ask onRational onReal x y = onReal x.checked y.checked := by
  cases x <;> cases y
  case rational.rational p q => exact h p q
  all_goals rfl

theorem isFinite_eq : Literal.isFinite x = Literal.isFinite x.checked := by
  cases x <;> rfl

theorem real_checked_rational (q : ℚ) : real (rational q).checked = q := rfl

theorem isWhole_eq : Literal.isWhole x = Literal.isWhole x.checked := by
  cases x with
  | other x => rfl
  | rational q =>
    refine Bool.eq_iff_iff.mpr ((decide_eq_true_iff).trans ?_)
    rw [Valued.isWhole_iff (show Literal.isFinite (rational q).checked = true from rfl),
      real_checked_rational]
    constructor
    · intro hden
      exact ⟨q.num, mod_cast ((Rat.den_eq_one_iff q).mp hden).symm⟩
    · rintro ⟨n, hn⟩
      have hq : q = n := mod_cast hn
      rw [hq, Rat.den_intCast]

theorem isEven_eq : Literal.isEven x = Literal.isEven x.checked := by
  cases x with
  | other x => rfl
  | rational q =>
    refine Bool.eq_iff_iff.mpr ((decide_eq_true_iff).trans ?_)
    rw [Valued.isEven_iff (show Literal.isFinite (rational q).checked = true from rfl),
      real_checked_rational]
    constructor
    · rintro ⟨hden, heven⟩
      refine ⟨q.num / 2, ?_⟩
      have hq : (q.num : ℚ) = q := (Rat.den_eq_one_iff q).mp hden
      have hnum : q.num = 2 * (q.num / 2) := by omega
      calc (q : ℝ) = (q.num : ℝ) := by exact_mod_cast hq.symm
        _ = 2 * ((q.num / 2 : ℤ) : ℝ) := by exact_mod_cast hnum
    · rintro ⟨n, hn⟩
      have hq : q = ((2 * n : ℤ) : ℚ) := by exact_mod_cast hn
      rw [hq, Rat.den_intCast, Rat.num_intCast]
      exact ⟨rfl, Int.mul_emod_right 2 n⟩

theorem eq_eq : Literal.eq x y = Literal.eq x.checked y.checked :=
  ask_eq fun p q => by simp [Literal.eq]

theorem lt_eq : Literal.lt x y = Literal.lt x.checked y.checked :=
  ask_eq fun p q => by simp [Literal.lt]

theorem le_eq : Literal.le x y = Literal.le x.checked y.checked :=
  ask_eq fun p q => by simp [Literal.le]

theorem checked_add : (x + y).checked = x.checked + y.checked :=
  checked_lift fun p q => congrArg (CheckedNumber.mk · true) (Rat.cast_add p q)

theorem checked_sub : (x - y).checked = x.checked - y.checked :=
  checked_lift fun p q => congrArg (CheckedNumber.mk · true) (Rat.cast_sub p q)

theorem checked_mul : (x * y).checked = x.checked * y.checked :=
  checked_lift fun p q => congrArg (CheckedNumber.mk · true) (Rat.cast_mul p q)

theorem checked_neg : (-x).checked = -x.checked := by
  cases x with
  | rational q => exact congrArg (CheckedNumber.mk · true) (Rat.cast_neg q)
  | other x => rfl

/-- A quotient of rational numbers is rational unless the denominator is zero. -/
theorem checked_div : (x / y).checked = x.checked / y.checked := by
  cases x <;> cases y
  case rational.rational p q =>
    by_cases hq : q = 0
    · exact congrArg checked (if_pos hq)
    · have hreal : (q : ℝ) ≠ 0 := Rat.cast_ne_zero.mpr hq
      obtain ⟨hfinite, hvalue⟩ :=
        Exact.div_spec (x := (rational p).checked) (y := (rational q).checked) rfl rfl hreal
      refine (congrArg checked (if_neg hq)).trans ((CheckedNumber.mk.injEq ..).mpr ⟨?_, ?_⟩)
      · exact (Rat.cast_div p q).trans hvalue.symm
      · exact hfinite.symm
  all_goals rfl

theorem checked_ofInt (n : ℤ) : (Literal.ofInt n : RationalOrReal).checked = Literal.ofInt n :=
  congrArg (CheckedNumber.mk · true) (Rat.cast_intCast n)

theorem checked_half : (half : RationalOrReal).checked = half := by
  rw [half, checked_div, one, two, checked_ofInt, checked_ofInt]
  rfl

theorem checked_minusHalf : (minusHalf : RationalOrReal).checked = minusHalf := by
  rw [minusHalf, checked_div, minusOne, two, checked_ofInt, checked_ofInt]
  rfl

end Laws

noncomputable instance : Literal.Exact RationalOrReal where
  real x := real x.checked
  eq_iff hy := by
    rw [isFinite_eq] at hy
    rw [eq_eq, isFinite_eq, Valued.eq_iff hy]
  lt_iff hx hy := by
    rw [isFinite_eq] at hx hy
    rw [lt_eq, Valued.lt_iff hx hy]
  le_iff hx hy := by
    rw [isFinite_eq] at hx hy
    rw [le_eq, Valued.le_iff hx hy]
  isWhole_iff hx := by
    rw [isFinite_eq] at hx
    rw [isWhole_eq, Valued.isWhole_iff hx]
  isEven_iff hx := by
    rw [isFinite_eq] at hx
    rw [isEven_eq, Valued.isEven_iff hx]
  small n _ := by
    rw [isFinite_eq, checked_ofInt]
    exact Exact.ofInt_spec n
  half_spec := by
    rw [isFinite_eq, checked_half]
    exact Valued.half_spec
  minusHalf_spec := by
    rw [isFinite_eq, checked_minusHalf]
    exact Valued.minusHalf_spec
  ofInt_spec n := by
    rw [isFinite_eq, checked_ofInt]
    exact Exact.ofInt_spec n
  add_spec hx hy := by
    rw [isFinite_eq] at hx hy ⊢
    rw [checked_add]
    exact Exact.add_spec hx hy
  sub_spec hx hy := by
    rw [isFinite_eq] at hx hy ⊢
    rw [checked_sub]
    exact Exact.sub_spec hx hy
  mul_spec hx hy := by
    rw [isFinite_eq] at hx hy ⊢
    rw [checked_mul]
    exact Exact.mul_spec hx hy
  neg_spec hx := by
    rw [isFinite_eq] at hx ⊢
    rw [checked_neg]
    exact Exact.neg_spec hx
  div_spec hx hy hne := by
    rw [isFinite_eq] at hx hy ⊢
    rw [checked_div]
    exact Exact.div_spec hx hy hne
  pow_spec hx hy hp := by
    rw [isFinite_eq] at hx hy ⊢
    exact Exact.pow_spec hx hy hp
  apply_spec hx hf := by
    rw [isFinite_eq] at hx ⊢
    exact Exact.apply_spec hx hf
  erfSlope_spec := Exact.erfSlope_spec (K := CheckedNumber)
  cancels_spec {sum _} hsum h := by
    have heq : Literal.eq sum.checked (rational 0).checked = true := (ask_eq ?_).symm.trans h
    · rw [((Valued.eq_iff rfl).mp heq).2]
      exact Rat.cast_zero
    · exact fun p q => by simp [Literal.eq]

instance : Literal.Strict RationalOrReal where
  powerDefined {x y} hx hy h := by
    rw [isFinite_eq] at hx hy
    exact Strict.powerDefined (K := CheckedNumber) hx hy h

end RationalOrReal

end DensityKernel
