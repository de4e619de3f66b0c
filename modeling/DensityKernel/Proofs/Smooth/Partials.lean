import DensityKernel.Differentiator
import DensityKernel.Density.Variable
import DensityKernel.Proofs.Reals.MixedPartials
import DensityKernel.Proofs.Reals.Smoothness
import DensityKernel.Proofs.Smooth.Derivative
import DensityKernel.Proofs.Smooth.NormalForm

/-!
Smooth expressions as functions of the density variables. They have derivatives
of every order, and the derivative of an expression, simplified or not, has the
value of the partial derivative at the point and nearby.
-/

namespace DensityKernel

open DensityKernel.Expr DensityKernel.Literal DensityKernel.NormalForm Filter Topology
open scoped ContDiff

/-! ### Points -/

instance : Fintype Variable where
  elems := Variable.all.toFinset
  complete v := by cases v <;> decide

theorem Variable.ofName?_eq_some {s : String} {v : Variable} (h : Variable.ofName? s = some v) :
    v.name = s := by
  simpa using List.find?_some h

/-- The assignment with other values of the density variables. -/
def withVariables (ρ : String → ℝ) (x : Variable → ℝ) (s : String) : ℝ :=
  ((Variable.ofName? s).map x).getD (ρ s)

/-- The values that an assignment gives the density variables. -/
def variablesOf (ρ : String → ℝ) (v : Variable) : ℝ :=
  ρ v.name

variable {ρ : String → ℝ} {x : Variable → ℝ} {v : Variable}

theorem withVariables_variablesOf : withVariables ρ (variablesOf ρ) = ρ := by
  funext s
  rw [withVariables]
  cases h : Variable.ofName? s with
  | none => rfl
  | some v => exact congrArg ρ (Variable.ofName?_eq_some h)

theorem withVariables_name : withVariables ρ x v.name = x v := by
  cases v <;> rfl

theorem withVariables_euler : withVariables ρ x "e" = ρ "e" := rfl

theorem withVariables_update (t : ℝ) :
    withVariables ρ (Function.update x v t) = Function.update (withVariables ρ x) v.name t := by
  funext s
  by_cases hs : s = v.name
  · rw [hs, withVariables_name, Function.update_self, Function.update_self]
  · rw [Function.update_of_ne hs, withVariables, withVariables]
    cases h : Variable.ofName? s with
    | none => rfl
    | some w =>
      have hne : w ≠ v := by
        rintro rfl
        exact hs (Variable.ofName?_eq_some h).symm
      exact Function.update_of_ne hne _ _

theorem contDiff_withVariables (s : String) : ContDiff ℝ ∞ fun x => withVariables ρ x s := by
  unfold withVariables
  cases Variable.ofName? s with
  | none => exact contDiff_const
  | some v => exact contDiff_apply ℝ ℝ v

theorem continuous_withVariables : Continuous (withVariables ρ) :=
  continuous_pi fun s => (contDiff_withVariables s).continuous

/-! ### Smooth functions -/

section Valued

variable {K : Type} [Literal K] [Valued K] {derived : Bool} {e : Expr K}

/-- The value of an expression as a function of the density variables. -/
noncomputable def surface (ρ : String → ℝ) (e : Expr K) (x : Variable → ℝ) : ℝ :=
  e.rootValue (withVariables ρ x)

/-- **A smooth expression has derivatives of every order.** -/
theorem Expr.Smooth.contDiffAt_surface (h : Smooth (withVariables ρ x) derived e) :
    ContDiffAt ℝ ∞ (surface ρ e) x := by
  generalize hσ : withVariables ρ x = σ at h
  induction h with
  | num _ => exact contDiffAt_const
  | sym s => exact (contDiff_withVariables s).contDiffAt
  | @call _ _ f u hf _ hx hu =>
    have hcall : surface ρ (.call _ [u]) = fun y => f.onReal (surface ρ u y) :=
      funext fun y => rootValue_call hf
    rw [hcall]
    subst hσ
    exact (Elementary.contDiffAt_onReal hx).comp x hu
  | add _ _ hu hv => exact hu.add hv
  | sub _ _ hu hv => exact hu.sub hv
  | mul _ _ hu hv => exact hu.mul hv
  | div _ _ hne hu hv =>
    subst hσ
    exact hu.div hv hne
  | @positive _ u v _ _ hpos hu hv =>
    subst hσ
    refine (hu.rpow hv hpos.ne').congr_of_eventuallyEq ?_
    filter_upwards [hu.continuousAt.eventually (lt_mem_nhds hpos)] with y hy
    exact rootPower_of_nonneg hy.le
  | @integer _ u y _ _ _ hn hne hu =>
    subst hσ
    have hregular : RootPowerRegular (u.rootValue (withVariables ρ x)) (real y) :=
      hn.symm ▸ .of_int hne
    exact (contDiffAt_rootPower hregular).comp x hu
  | third _ _ hthird hne hu =>
    subst hσ
    exact (contDiffAt_rootPower (.inr (.inl ⟨hne, hthird⟩))).comp x hu
  | natural _ _ hn hu => exact (contDiffAt_rootPower (.inr (.inr ⟨_, hn⟩))).comp x hu

end Valued

/-! ### Derivatives -/

variable {K : Type} [Literal K] [Exact K] {derived : Bool} {e e' raw : Expr K}

/-- Assignments with the density variables changed a little are near. -/
theorem tendsto_withVariables : Tendsto (withVariables ρ) (𝓝 (variablesOf ρ)) (𝓝 ρ) := by
  have hcontinuous : ContinuousAt (withVariables ρ) (variablesOf ρ) :=
    continuous_withVariables.continuousAt
  rwa [ContinuousAt, withVariables_variablesOf] at hcontinuous

/-- Near the point, the derivative by a variable is the partial derivative. -/
theorem surface_of_derive (he : ρ "e" = Real.exp 1) (h : Smooth ρ derived e)
    (hderive : e.derive v.name = .ok raw) :
    Smooth ρ true raw ∧ surface ρ raw =ᶠ[𝓝 (variablesOf ρ)] partialIn v (surface ρ e) := by
  have hpartial : ∀ {σ}, σ "e" = Real.exp 1 → Smooth σ derived e → IsPartial σ v.name e raw := by
    intro σ hσ hsmooth
    obtain ⟨d, hd, hpartial⟩ := hsmooth.differentiates hσ v.name
    cases hd.symm.trans hderive
    exact hpartial
  refine ⟨(hpartial he h).smooth, ?_⟩
  filter_upwards [tendsto_withVariables.eventually h.eventually] with y hy
  have halong := (hpartial (withVariables_euler.trans he) hy).hasDerivAt
  rw [withVariables_name] at halong
  refine HasDerivAt.unique halong ?_
  have hcoordinate := hasDerivAt_partialIn hy.contDiffAt_surface v
  exact hcoordinate.congr_of_eventuallyEq
    (.of_forall fun t => congrArg e.rootValue (withVariables_update t).symm)

/-- **A step of differentiation** with options: near the point the result is the partial
derivative. -/
theorem Differentiator.surface_of_differentiate [Strict K] [DecidableEq K] [Spelling K]
    {d : Differentiator} (he : ρ "e" = Real.exp 1)
    (hρ : d.simplify = true → Admissible d.domain ρ) (h : Smooth ρ derived e)
    (hdifferentiate : d.differentiate e v.name = .ok e') :
    Smooth ρ true e' ∧ surface ρ e' =ᶠ[𝓝 (variablesOf ρ)] partialIn v (surface ρ e) := by
  obtain ⟨-, -, hdifferentiate⟩ := bind_eq_ok_iff.mp hdifferentiate
  obtain ⟨raw, hraw, hdifferentiate⟩ := bind_eq_ok_iff.mp hdifferentiate
  obtain ⟨-, -, hfinish⟩ := bind_eq_ok_iff.mp hdifferentiate
  obtain rfl := Except.ok.inj hfinish
  obtain ⟨hsmooth, hpartial⟩ := surface_of_derive he h hraw
  rw [finish]
  split_ifs with hsimplify
  · have hnear := hsmooth.simplify (hρ hsimplify)
    refine ⟨hnear.self_of_nhds.1, EventuallyEq.trans ?_ hpartial⟩
    filter_upwards [tendsto_withVariables.eventually hnear] with y hy
    exact hy.2
  · exact ⟨hsmooth, hpartial⟩

end DensityKernel
