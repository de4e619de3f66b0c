import DensityKernel.Proofs.Reals.Meaning

/-!
Regular points: the points at which every part of an expression lies inside
its domain. A regular expression is defined.
-/

namespace DensityKernel

open DensityKernel.Literal

namespace Expr

variable {K : Type} [Literal K] [Valued K]

/-- What an operation asks of its operands: a denominator is not zero, and the
base of a power is positive or the exponent an integer literal, in which case a
negative exponent needs a base other than zero. -/
def RegularOperation (ρ : String → ℝ) : Operator → (u v : Expr K) → Prop
  | .div, _, v => v.value (.usual ρ) ≠ 0
  | .pow, u, v =>
    0 < u.value (.usual ρ) ∨
      ∃ (x : K) (n : ℤ), v = num x ∧ real x = n ∧ (n < 0 → u.value (.usual ρ) ≠ 0)
  | _, _, _ => True

mutual

/-- Every part of the expression lies inside its domain. -/
def Regular (ρ : String → ℝ) : Expr K → Prop
  | .num x => isFinite x = true
  | .sym _ => True
  | .call name args => AllRegular ρ args ∧
    ∃ f x, values (.usual ρ) args = [x] ∧ Elementary.lookup? name 1 = some f ∧ f.RegularAt x
  | .binary op u v => u.Regular ρ ∧ v.Regular ρ ∧ RegularOperation ρ op u v

def AllRegular (ρ : String → ℝ) : List (Expr K) → Prop
  | [] => True
  | a :: args => a.Regular ρ ∧ AllRegular ρ args

end

variable {ρ : String → ℝ} {u v e : Expr K}

theorem regular_call_iff {name : String} {args : List (Expr K)} :
    (call name args).Regular ρ ↔
      ∃ f u, args = [u] ∧ Elementary.lookup? name 1 = some f ∧ u.Regular ρ ∧
        f.RegularAt (u.value (.usual ρ)) := by
  constructor
  · rintro ⟨hargs, f, x, hvalues, hlookup, hx⟩
    match args, hvalues with
    | [u], hvalues =>
      obtain rfl : u.value (.usual ρ) = x := by simpa [values] using hvalues
      exact ⟨f, u, rfl, hlookup, hargs.1, hx⟩
  · rintro ⟨f, u, rfl, hlookup, hu, hx⟩
    exact ⟨⟨hu, trivial⟩, f, _, rfl, hlookup, hx⟩

/-- The exponents of the powers that are allowed at a base. -/
theorem powerDefined_of_regular (h : RegularOperation ρ .pow u v) :
    PowerDefined (u.value (.usual ρ)) (v.value (.usual ρ)) := by
  rcases h with hpos | ⟨x, n, rfl, hx, hn⟩
  · exact ⟨fun hneg => absurd hpos hneg.not_gt, fun hzero => absurd hzero hpos.ne'⟩
  · refine ⟨fun _ => ⟨n, hx⟩, fun hzero => ?_⟩
    rw [value_num, hx]
    exact_mod_cast not_lt.mp fun hneg => hn hneg hzero

/-- A regular expression has a value. -/
theorem Regular.defined (h : e.Regular ρ) : e.Defined ρ := by
  induction e with
  | num x => exact h
  | sym name => trivial
  | call name args ih =>
    obtain ⟨f, u, rfl, hlookup, hu, hx⟩ := regular_call_iff.mp h
    exact defined_call_iff.mpr ⟨f, u, rfl, hlookup, ih u (by simp) hu, .of_regularAt hx⟩
  | binary op u v ihu ihv =>
    refine ⟨ihu h.1, ihv h.2.1, ?_⟩
    cases op with
    | add | sub | mul => trivial
    | div => exact h.2.2
    | pow => exact powerDefined_of_regular h.2.2

end Expr

end DensityKernel
