import Mathlib

/-!
Mixed partial derivatives. Those of a smooth function of finitely many variables
do not depend on the order in which they are taken: two neighbouring variables
may be exchanged (`partialIn_comm`), and so any permutation may be made
(`partials_perm`).
-/

namespace DensityKernel

open Filter Topology
open scoped ContDiff

variable {ι : Type} [DecidableEq ι] {F G : (ι → ℝ) → ℝ} {x : ι → ℝ} {i j : ι}

/-- The partial derivative in one variable, as a function of the point. -/
noncomputable def partialIn (i : ι) (F : (ι → ℝ) → ℝ) : (ι → ℝ) → ℝ :=
  fun x => fderiv ℝ F x (Pi.single i 1)

/-- The partial derivatives in some variables, one after the other. -/
noncomputable def partials (F : (ι → ℝ) → ℝ) (path : List ι) : (ι → ℝ) → ℝ :=
  path.foldl (fun F i => partialIn i F) F

@[simp] theorem partials_nil : partials F [] = F := rfl

@[simp] theorem partials_cons (path : List ι) :
    partials F (i :: path) = partials (partialIn i F) path := rfl

theorem partialIn_congr (h : F =ᶠ[𝓝 x] G) (i : ι) : partialIn i F =ᶠ[𝓝 x] partialIn i G := by
  have hfderiv : fderiv ℝ F =ᶠ[𝓝 x] fderiv ℝ G := h.fderiv
  filter_upwards [hfderiv] with y hy
  rw [partialIn, partialIn, hy]

theorem partials_congr (h : F =ᶠ[𝓝 x] G) (path : List ι) :
    partials F path =ᶠ[𝓝 x] partials G path := by
  induction path generalizing F G with
  | nil => exact h
  | cons i path ih => exact ih (partialIn_congr h i)

/-! ### One partial derivative -/

variable [Fintype ι]

theorem contDiffAt_partialIn (h : ContDiffAt ℝ ∞ F x) (i : ι) :
    ContDiffAt ℝ ∞ (partialIn i F) x := by
  have hfderiv : ContDiffAt ℝ ∞ (fderiv ℝ F) x := h.fderiv_right le_rfl
  exact hfderiv.clm_apply contDiffAt_const

/-- It is the derivative along one coordinate. -/
theorem hasDerivAt_partialIn (h : ContDiffAt ℝ ∞ F x) (i : ι) :
    HasDerivAt (fun t => F (Function.update x i t)) (partialIn i F x) (x i) := by
  have hF : HasFDerivAt F (fderiv ℝ F x) (Function.update x i (x i)) := by
    rw [Function.update_eq_self]
    exact (h.differentiableAt (by decide)).hasFDerivAt
  exact hF.comp_hasDerivAt (x i) (hasDerivAt_update x i (x i))

/-! ### The order of partial derivatives -/

/-- **Two partial derivatives may be exchanged.** -/
theorem partialIn_comm (h : ContDiffAt ℝ ∞ F x) (i j : ι) :
    partialIn j (partialIn i F) =ᶠ[𝓝 x] partialIn i (partialIn j F) := by
  have htwo : ContDiffAt ℝ 2 F x := h.of_le ENat.LEInfty.out
  filter_upwards [htwo.eventually (by decide)] with y hy
  have hderiv : DifferentiableAt ℝ (fderiv ℝ F) y :=
    (hy.fderiv_right (m := 1) (by norm_num)).differentiableAt (by decide)
  have hsecond : ∀ i j, partialIn j (partialIn i F) y
      = fderiv ℝ (fderiv ℝ F) y (Pi.single j 1) (Pi.single i 1) := by
    intro i j
    have hconst : HasFDerivAt (fun _ : ι → ℝ => (Pi.single i 1 : ι → ℝ))
        (0 : (ι → ℝ) →L[ℝ] ι → ℝ) y := hasFDerivAt_const _ y
    have happly : HasFDerivAt (partialIn i F) _ y := hderiv.hasFDerivAt.clm_apply hconst
    rw [partialIn, happly.fderiv]
    simp
  rw [hsecond, hsecond]
  exact hy.isSymmSndFDerivAt (by simp) _ _

/-- **Mixed partial derivatives do not depend on the order of the variables.** -/
theorem partials_perm (h : ContDiffAt ℝ ∞ F x) {path path' : List ι} (hperm : path.Perm path') :
    partials F path =ᶠ[𝓝 x] partials F path' := by
  induction hperm generalizing F with
  | nil => exact .rfl
  | cons i _ ih => exact ih (contDiffAt_partialIn h i)
  | swap i j path => exact partials_congr (partialIn_comm h j i) path
  | trans _ _ ih ih' => exact (ih h).trans (ih' h)

end DensityKernel
