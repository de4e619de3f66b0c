import DensityKernel.Proofs.Expr.Nodes
import DensityKernel.Proofs.NormalForm.Rewriting
import DensityKernel.Proofs.Number.Arithmetic

/-!
Literals that stay finite. Differentiation keeps the literals of an expression
finite, and so do most rules of simplification: they do no operation whose result is
not finite. The rules that put products and sums in order and the one for powers of
powers combine literals without a look at the result. So if a normal form or a
derivative has a literal that is not finite, one of these three has overflowed on the
way (`finiteLiterals_or_overflow`).
-/

namespace DensityKernel

open DensityKernel.Expr DensityKernel.NormalForm

/-- The numbers that differentiation and the rules bring in on their own are finite, and so is what
they make of finite numbers. -/
theorem supplied_finite : Supplied (K := Double) (Literal.isFinite · = true) where
  zero := by decide
  one := by decide
  two := by decide
  minusOne := by decide
  half := by decide +kernel
  minusHalf := by decide +kernel
  third := by decide +kernel
  minusTwoThirds := by decide +kernel
  erfSlope := by decide +kernel
  sub_one := Double.isFinite_sub_one
  neg hx := (Double.real_negate hx).1
  finite := id

namespace NormalForm

/-- On the way from `e` to `e'` the literals are finite up to a step of one of the three rules that
combine literals, in which the combined number is not finite. -/
def OverflowsBetween (domain : Domain) (e e' : Expr Double) : Prop :=
  ∃ t t', Rewrites domain e t ∧ t.FiniteLiterals ∧
    Inside (Leaves (Literal.isFinite · = true)) t t' ∧ ¬t'.FiniteLiterals ∧
    Rewrites domain t' e'

end NormalForm

namespace Expr

variable {e : Expr Double}

theorem FiniteLiterals.simplify (he : e.FiniteLiterals) (domain : Domain) :
    (e.simplify domain).FiniteLiterals ∨ OverflowsBetween domain e (e.simplify domain) :=
  or_iff_not_imp_left.mpr (hereditaryIn_finiteLiterals.simplify supplied_finite he)

/-- **Literals stay finite, or a rule overflows.** The literals of a normal form are finite unless
a power of a power, a product or a sum is rewritten on the way to one with a combined exponent,
coefficient or constant that is not finite. Those of a derivative are finite before it is
simplified, and the same holds of its normal form. -/
theorem finiteLiterals_or_overflow (he : e.FiniteLiterals) :
    (∀ domain, (e.simplify domain).FiniteLiterals ∨
      OverflowsBetween domain e (e.simplify domain)) ∧
    ∀ (options : Differentiator) (name : String) (d : Expr Double),
      options.differentiate e name = .ok d →
        ∃ raw, e.derive name = .ok raw ∧ raw.FiniteLiterals ∧
          (d.FiniteLiterals ∨ OverflowsBetween options.domain raw d) := by
  refine ⟨he.simplify, fun options name d h => ?_⟩
  obtain ⟨-, -, h⟩ := bind_eq_ok_iff.mp h
  obtain ⟨raw, hraw, h⟩ := bind_eq_ok_iff.mp h
  obtain ⟨-, -, h⟩ := bind_eq_ok_iff.mp h
  obtain rfl := Except.ok.inj h
  have hfinite := hereditaryIn_finiteLiterals.derive supplied_finite he hraw
  refine ⟨raw, hraw, hfinite, ?_⟩
  unfold Differentiator.finish
  split
  · exact hfinite.simplify options.domain
  · exact .inl hfinite

/-- Twice the square of `ra` is simplified within the range of doubles. -/
theorem finiteLiterals_or_overflow_twice_square :
    let e : Expr Double := mul (num Literal.two) (pow (sym "ra") (num Literal.two))
    e.FiniteLiterals ∧ ((e.simplify .densities).FiniteLiterals ∨
      OverflowsBetween .densities e (e.simplify .densities)) := by
  intro e
  have he : e.FiniteLiterals := by decide +kernel
  exact ⟨he, (finiteLiterals_or_overflow he).1 .densities⟩

/-- **Exponents of a power of a power are multiplied to infinity.** -/
theorem not_finiteLiterals_power_of_power :
    let large : Double := ⟨0x6974E718D7D7625A⟩
    let e : Expr Double := pow (pow (sym "ra") (num large)) (num large)
    e.FiniteLiterals ∧ e.simplify .densities = pow (sym "ra") (num ⟨0x7FF0000000000000⟩) ∧
      ¬(e.simplify .densities).FiniteLiterals := by
  intro large e
  have hsimplify : e.simplify .densities = pow (sym "ra") (num ⟨0x7FF0000000000000⟩) := by
    decide +kernel
  refine ⟨by decide +kernel, hsimplify, ?_⟩
  rw [hsimplify]
  decide +kernel

end Expr

end DensityKernel
