import DensityKernel.Proofs.Smooth.Derivative

/-!
Partial derivatives. At a regular point an expression has a partial derivative in every symbol,
and the formula that `derive` gives agrees with it wherever the formula has a value.

A rule may leave out the derivative of an operand that has no value, because the operand is
multiplied by a literal zero. Read through the cube root all of them have values, and each rule is
right under that reading (`Smooth.differentiates`); here it is compared with the usual one.
-/

namespace DensityKernel.Expr

open DensityKernel.Literal Filter Topology

variable {K : Type} [Literal K] [Exact K] {ρ : String → ℝ} {name : String} {d : Expr K}

/-- Along one symbol the cube root makes no difference near a regular point. -/
theorem Regular.eventuallyEq_rootAlong {e : Expr K} (h : e.Regular ρ) (name : String) :
    (fun t => e.value (.usual (Function.update ρ name t))) =ᶠ[𝓝 (ρ name)] rootAlong ρ name e := by
  have hupdate : Tendsto (Function.update ρ name) (𝓝 (ρ name)) (𝓝 ρ) := by
    have hcontinuous : ContinuousAt (Function.update ρ name) (ρ name) :=
      (continuous_const.update name continuous_id).continuousAt
    rwa [ContinuousAt, Function.update_eq_self] at hcontinuous
  filter_upwards [hupdate.eventually h.eventually] with t ht
  exact (rootValue_of_defined ht.defined).symm

/-- **Derivatives are correct.** At a regular point, a derivative that is
defined has the value of the partial derivative; the expression itself is
defined at all points nearby. -/
theorem derive_eq_partialDerivative {e : Expr K} (he : ρ "e" = Real.exp 1)
    (hregular : e.Regular ρ) (hderive : derive name e = .ok d) (hdefined : d.Defined ρ) :
    (∀ᶠ σ in 𝓝 ρ, e.Defined σ) ∧
      HasDerivAt (fun t => e.value (.usual (Function.update ρ name t)))
        (d.value (.usual ρ)) (ρ name) := by
  have hsmooth : Smooth ρ false e := hregular.smooth
  obtain ⟨d', hderive', hpartial⟩ := hsmooth.differentiates he name
  obtain rfl : d = d' := Except.ok.inj (hderive.symm.trans hderive')
  refine ⟨hregular.eventually.mono fun σ hσ => hσ.defined, ?_⟩
  have hderivative := hpartial.hasDerivAt.congr_of_eventuallyEq
    (hregular.eventuallyEq_rootAlong name)
  rwa [rootValue_of_defined hdefined] at hderivative

/-- The derivative of `exp (ra ^ rb)` in `ra`, where `ra` is two. -/
theorem derive_exp_power_eq_partialDerivative :
    let ρ : String → ℝ := fun s => if s = "e" then Real.exp 1 else if s = "ra" then 2 else 3
    let power : Expr ExactNumber := pow (sym "ra") (sym "rb")
    let d : Expr ExactNumber :=
      mul (call "exp" [power]) (mul (sym "rb") (pow (sym "ra") (sub (sym "rb") one)))
    derive "ra" (call "exp" [power]) = .ok d ∧ d.Defined ρ ∧
      HasDerivAt (fun t => (call "exp" [power]).value (.usual (Function.update ρ "ra" t)))
        (d.value (.usual ρ)) (ρ "ra") := by
  intro ρ power d
  have hpower : derive "ra" power = .ok (mul (sym "rb") (pow (sym "ra") (sub (sym "rb") one))) :=
    derive_binary_iff.mpr (.inr ⟨rfl, rfl, one, derive_leaf.2 "ra", by simp [powerDerivative]⟩)
  have hderive : derive "ra" (call "exp" [power]) = .ok d :=
    derive_call_iff.mpr ⟨.exp, power, _, rfl, rfl, hpower, rfl⟩
  have hpos : 0 < ρ "ra" := by simp [ρ]
  have hregular : (call "exp" [power]).Regular ρ :=
    regular_call_iff.mpr ⟨.exp, power, rfl, rfl, ⟨trivial, trivial, .inl hpos⟩, trivial⟩
  have hdefined : d.Defined ρ := by
    have hany (y : ℝ) : PowerDefined (ρ "ra") y :=
      ⟨fun h => absurd hpos h.not_gt, fun h => absurd h hpos.ne'⟩
    refine defined_mul.mpr ⟨?_, ?_⟩
    · exact defined_call_iff.mpr ⟨.exp, power, rfl, rfl, ⟨trivial, trivial, hany _⟩, trivial⟩
    · exact defined_mul.mpr ⟨trivial, trivial, defined_sub.mpr ⟨trivial, defined_one⟩, hany _⟩
  exact ⟨hderive, hdefined, (derive_eq_partialDerivative rfl hregular hderive hdefined).2⟩

end DensityKernel.Expr
