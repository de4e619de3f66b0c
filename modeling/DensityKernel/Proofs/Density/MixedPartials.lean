import DensityKernel.Proofs.Density.Registered
import DensityKernel.Proofs.Reals.Rational
import DensityKernel.Proofs.Smooth.Partials

/-!
Mixed partial derivatives commute. A run of differentiations follows the partial
derivatives of the function that an expression stands for, and those do not
depend on the order of the variables. The results along two orders are different
trees and need not be defined at the same points, but where both are they agree.
So does the one derivative that a table holds for all orders. Simplification may
assume that densities are not negative; below zero, where it may not, the orders
can disagree.
-/

namespace DensityKernel

open DensityKernel.Expr DensityKernel.Literal DensityKernel.NormalForm Filter Topology

variable {K : Type} [Literal K] [DecidableEq K] [Spelling K] {d : Differentiator}
  {base e e' e₁ e₂ : Expr K} {path other : List Variable}

/-! ### Runs -/

namespace Differentiator

/-- **A registered expression is differentiated along any path.** -/
theorem Unlimited.exists_alongPath (hd : d.Unlimited) (he : e.Registered) (path : List Variable) :
    ∃ e', d.alongPath e path = .ok e' := by
  induction path generalizing e with
  | nil => exact ⟨e, rfl⟩
  | cons v path ih =>
    obtain ⟨next, hnext⟩ := hd.differentiate he v.name
    obtain ⟨e', he'⟩ := ih (hereditary_registered.differentiate he hnext)
    refine ⟨e', ?_⟩
    rw [alongPath, List.foldlM_cons]
    exact bind_eq_ok_iff.mpr ⟨next, hnext, he'⟩

variable [Exact K] [Strict K] {ρ : String → ℝ} {derived : Bool}

/-- **A run of differentiations** follows the partial derivatives, near the point as at it. -/
theorem surface_of_alongPath (he : ρ "e" = Real.exp 1)
    (hρ : d.simplify = true → Admissible d.domain ρ) (h : Smooth ρ derived e)
    (hpath : d.alongPath e path = .ok e') :
    surface ρ e' =ᶠ[𝓝 (variablesOf ρ)] partials (surface ρ e) path := by
  induction path generalizing e derived with
  | nil =>
    cases hpath
    exact .rfl
  | cons v path ih =>
    rw [alongPath, List.foldlM_cons] at hpath
    obtain ⟨next, hnext, hrest⟩ := bind_eq_ok_iff.mp hpath
    obtain ⟨hsmooth, hstep⟩ := surface_of_differentiate he hρ h hnext
    exact (ih hsmooth hrest).trans (partials_congr hstep path)

/-- Two derivatives of an expression have the same value wherever every part of the expression
lies inside its domain and both are defined. The constants are what they are, and where results
are simplified the assumption on the symbols holds. -/
def Agree (d : Differentiator) (base e₁ e₂ : Expr K) : Prop :=
  ∀ ρ : String → ℝ, ρ "e" = Real.exp 1 → (d.simplify = true → Admissible d.domain ρ) →
    base.Regular ρ → e₁.Defined ρ → e₂.Defined ρ → e₁.value (.usual ρ) = e₂.value (.usual ρ)

theorem agree_of_perm (hperm : path.Perm other) (h₁ : d.alongPath base path = .ok e₁)
    (h₂ : d.alongPath base other = .ok e₂) : d.Agree base e₁ e₂ := by
  intro ρ he hρ hregular hdefined₁ hdefined₂
  have hsmooth : Smooth ρ false base := hregular.smooth
  have hbase : Smooth (withVariables ρ (variablesOf ρ)) false base :=
    withVariables_variablesOf.symm ▸ hsmooth
  have hsurface : surface ρ e₁ =ᶠ[𝓝 (variablesOf ρ)] surface ρ e₂ :=
    (surface_of_alongPath he hρ hsmooth h₁).trans
      ((partials_perm hbase.contDiffAt_surface hperm).trans
        (surface_of_alongPath he hρ hsmooth h₂).symm)
  have hvalue : e₁.rootValue ρ = e₂.rootValue ρ := by
    simpa [surface, withVariables_variablesOf] using hsurface.eq_of_nhds
  rwa [rootValue_of_defined hdefined₁, rootValue_of_defined hdefined₂] at hvalue

end Differentiator

/-! ### Tables -/

namespace DerivativeTable

variable {t : DerivativeTable K} {vars : VariableList} {cached : Expr K}

/-- What a table holds for a path is the derivative along some order of it. -/
theorem BuiltFor.exists_alongPath (h : BuiltFor base vars d t)
    (hcached : t.getPath? path = some cached) :
    ∃ other, other.Perm path ∧ d.alongPath base other = .ok cached := by
  rw [getPath?_eq, get?, MultiIndex.order_total] at hcached
  split_ifs at hcached with hlength hzero
  · obtain rfl := List.length_eq_zero_iff.mp hzero
    obtain rfl := Option.some.inj hcached
    exact ⟨[], .rfl, congrArg Except.ok h.base_eq.symm⟩
  · obtain ⟨front, back, hentries, -⟩ := List.lookup_eq_some_iff.mp hcached
    have hmem : (MultiIndex.total path, cached) ∈ t.entries := by
      rw [hentries]
      exact List.mem_append_right _ List.mem_cons_self
    have hwithin := ((h.mem_keys_iff _).mp (List.mem_map_of_mem hmem)).2.2
    refine ⟨_, List.perm_iff_count.mpr fun v => ?_, h.derived hmem⟩
    rw [MultiIndex.count_sortedPath hwithin, MultiIndex.count_total]

end DerivativeTable

open DerivativeTable

/-- **Mixed partial derivatives commute.** Along every path and every permutation of it a
registered expression is differentiated, and the two results agree; with them agrees what a table
holds for the path, whatever its list of variables and however it was extended. -/
theorem Differentiator.mixedPartials_commute [Exact K] [Strict K] (hd : d.Unlimited)
    (hbase : base.Registered) (hperm : path.Perm other) :
    ∃ e₁ e₂, d.alongPath base path = .ok e₁ ∧ d.alongPath base other = .ok e₂ ∧
      d.Agree base e₁ e₂ ∧
      ∀ (vars : VariableList) (orders : List DerivativeOrder) (cached : Expr K),
        (extendAll (fresh base vars d) orders).getPath? path = some cached →
          d.Agree base cached e₁ := by
  obtain ⟨e₁, h₁⟩ := hd.exists_alongPath hbase path
  obtain ⟨e₂, h₂⟩ := hd.exists_alongPath hbase other
  refine ⟨e₁, e₂, h₁, h₂, agree_of_perm hperm h₁ h₂, fun vars orders cached hcached => ?_⟩
  have hfresh : BuiltFor base vars d (fresh base vars d) := builtFor_fresh
  have hbuilt := builtFor_extendAll hd.admitsLeaves hfresh orders
  obtain ⟨sorted, hsorted, hcached⟩ := hbuilt.exists_alongPath hcached
  exact agree_of_perm hsorted hcached h₁

/-- The cube root of a difference of densities, along two orders of three variables. -/
theorem Differentiator.mixedPartials_commute_cubeRoot :
    let base : Expr CheckedNumber := .call "cbrt" [.sub (.sym "ra") (.mul (.sym "rb") (.sym "ga"))]
    let d : Differentiator := {}
    ∃ e₁ e₂, d.alongPath base [.ra, .rb, .ga] = .ok e₁ ∧ d.alongPath base [.ga, .ra, .rb] = .ok e₂ ∧
      d.Agree base e₁ e₂ := by
  intro base d
  have hd : d.Unlimited := ⟨rfl, rfl⟩
  have hbase : base.Registered := registered_iff.mpr (by decide)
  have hperm : [Variable.ra, .rb, .ga].Perm [.ga, .ra, .rb] := by decide
  obtain ⟨e₁, e₂, h₁, h₂, hagree, -⟩ := mixedPartials_commute hd hbase hperm
  exact ⟨e₁, e₂, h₁, h₂, hagree⟩

/-! ### Densities below zero -/

omit [Literal K] [Spelling K] in
/-- A tree that a pass keeps is reached by two passes. -/
theorem NormalForm.settle_eq_of_fixed {f : Expr K → Expr K} {first last : Expr K} {limit : Nat}
    (hfirst : f e = first) (hlast : f first = last) (hfixed : f last = last) :
    settle f (limit + 3) [] e = last := by
  have hend (seen : List (Expr K)) : settle f (limit + 1) seen last = last := by
    rw [settle, hfixed, if_pos rfl]
  have hmiddle : settle f (limit + 2) [first] first = last := by
    rw [settle, hlast]
    split_ifs with hsame hseen
    · exact hsame.symm
    · rfl
    · exact hend _
  rw [settle, hfirst]
  split_ifs with hsame hseen
  · subst hsame
    exact hfirst.symm.trans hlast
  · exact absurd hseen List.not_mem_nil
  · exact hmiddle

/-- A simplified derivative, by the passes that lead to it. -/
theorem Differentiator.Unlimited.differentiate_of_passes (hd : d.Unlimited)
    (hsimplify : d.simplify = true) {raw first last : Expr K} {name : String}
    (hderive : e.derive name = .ok raw) (hfirst : NormalForm.pass d.domain raw = first)
    (hlast : NormalForm.pass d.domain first = last)
    (hfixed : NormalForm.pass d.domain last = last) : d.differentiate e name = .ok last := by
  refine hd.differentiate_eq_ok_iff.mpr ⟨raw, hderive, ?_⟩
  rw [finish, if_pos hsimplify]
  exact (settle_eq_of_fixed hfirst hlast hfixed).symm

namespace Differentiator

/-- The density `rb`, written as a sum in which only the second pass finds it. -/
noncomputable def hiddenDensity : Expr RationalOrReal :=
  .sub (.add (.div (.sym "pi") (.sym "pi")) (.sym "rb")) (.num Literal.one)

/-- What the first pass makes of the sum. -/
noncomputable def hiddenDensityOnce : Expr RationalOrReal :=
  .add (.add (.num Literal.minusOne) (.mul (.sym "pi") (Expr.inverted (.sym "pi")))) (.sym "rb")

/-- `ra` times the root of the square of the sum. -/
noncomputable def rootOfSquare : Expr RationalOrReal :=
  .mul (.sym "ra") (Elementary.sqrt.of hiddenDensity.squared)

/-- Its derivative in `rb`, before it is simplified. -/
noncomputable def rawSlope : Expr RationalOrReal :=
  .mul (.mul (.mul (.num half) (.pow hiddenDensity.squared (.num minusHalf)))
    (.mul (.num two) (.pow hiddenDensity (.num Literal.one)))) (.sym "ra")

/-- Its derivative in `rb`, with the magnitude of `rb` for a root whose sign was not known. -/
noncomputable def slope : Expr RationalOrReal :=
  .mul (.mul (Expr.inverted (Elementary.abs.of (.sym "rb"))) (.sym "ra")) (.sym "rb")

/-- The sign of `rb`, as a quotient. -/
noncomputable def signOfDensity : Expr RationalOrReal :=
  .mul (Expr.inverted (Elementary.abs.of (.sym "rb"))) (.sym "rb")

theorem alongPath_rootOfSquare :
    ({} : Differentiator).alongPath rootOfSquare [.ra, .rb] = .ok (.num Literal.one) := by
  have hd : ({} : Differentiator).Unlimited := ⟨rfl, rfl⟩
  have hra : ({} : Differentiator).differentiate rootOfSquare "ra" =
      .ok (Elementary.sqrt.of (Expr.squared (.sym "rb"))) := by
    have hderive : rootOfSquare.derive "ra" = .ok (Elementary.sqrt.of hiddenDensity.squared) := by
      cbv
    have hfirst : NormalForm.pass .densities (Elementary.sqrt.of hiddenDensity.squared) =
        Elementary.sqrt.of hiddenDensityOnce.squared := by cbv
    exact hd.differentiate_of_passes rfl hderive hfirst (by cbv) (by cbv)
  have hrb : ({} : Differentiator).differentiate
      (Elementary.sqrt.of (Expr.squared (.sym "rb")) : Expr RationalOrReal) "rb" =
        .ok (.num Literal.one) := by
    have hderive :
        (Elementary.sqrt.of (Expr.squared (.sym "rb")) : Expr RationalOrReal).derive "rb" =
          .ok (.mul (.mul (.num half) (.pow (Expr.squared (.sym "rb")) (.num minusHalf)))
            (.mul (.num two) (.pow (.sym "rb") (.num Literal.one)))) := by cbv
    exact hd.differentiate_of_passes rfl hderive rfl (by cbv) (by cbv)
  exact bind_eq_ok_iff.mpr ⟨_, hra, bind_eq_ok_iff.mpr ⟨_, hrb, rfl⟩⟩

theorem alongPath_rootOfSquare_swapped :
    ({} : Differentiator).alongPath rootOfSquare [.rb, .ra] = .ok signOfDensity := by
  have hd : ({} : Differentiator).Unlimited := ⟨rfl, rfl⟩
  have hrb : ({} : Differentiator).differentiate rootOfSquare "rb" = .ok slope := by
    have hderive : rootOfSquare.derive "rb" = .ok rawSlope := by cbv
    have hfirst : NormalForm.pass .densities rawSlope =
        .mul (.mul (Expr.inverted (Elementary.abs.of hiddenDensityOnce)) hiddenDensityOnce)
          (.sym "ra") := by cbv
    exact hd.differentiate_of_passes rfl hderive hfirst (by cbv) (by cbv)
  have hra : ({} : Differentiator).differentiate slope "ra" = .ok signOfDensity := by
    have hderive : slope.derive "ra" = .ok signOfDensity := by cbv
    have hkept : NormalForm.pass .densities signOfDensity = signOfDensity := by cbv
    exact hd.differentiate_of_passes rfl hderive hkept hkept hkept
  exact bind_eq_ok_iff.mpr ⟨_, hrb, bind_eq_ok_iff.mpr ⟨_, hra, rfl⟩⟩

/-- The assumption on the densities cannot be left out: at a density below zero every part of
`ra * sqrt((pi / pi + rb - 1) ^ 2)` lies inside its domain, but along one order of the two
densities the derivative is minus one, and along the other one. -/
theorem mixedPartials_disagree_below_zero :
    let d : Differentiator := {}
    let base : Expr RationalOrReal := .mul (.sym "ra") (.call "sqrt" [.pow
      (.sub (.add (.div (.sym "pi") (.sym "pi")) (.sym "rb")) (.num Literal.one)) (.num two)])
    let ρ : String → ℝ := fun s =>
      if s = "pi" then Real.pi else if s = "e" then Real.exp 1 else if s = "rb" then -1 else 1
    d.Unlimited ∧ base.Registered ∧ base.Regular ρ ∧
      ∃ e₁ e₂, d.alongPath base [.rb, .ra] = .ok e₁ ∧ d.alongPath base [.ra, .rb] = .ok e₂ ∧
        e₁.Defined ρ ∧ e₁.value (.usual ρ) = -1 ∧ e₂.Defined ρ ∧ e₂.value (.usual ρ) = 1 := by
  intro d base ρ
  have hpi : ρ "pi" ≠ 0 := Real.pi_ne_zero
  have hrb : (sym "rb" : Expr RationalOrReal).value (.usual ρ) = -1 := rfl
  have hhidden : hiddenDensity.value (.usual ρ) = -1 := by
    have hquotient : ((sym "pi").div (sym "pi") : Expr RationalOrReal).value (.usual ρ) = 1 :=
      div_self hpi
    rw [hiddenDensity, value_sub, value_add, hquotient, hrb, value_num, real_one]
    norm_num
  have hregular : base.Regular ρ := by
    have hparts : hiddenDensity.Regular ρ :=
      ⟨⟨⟨trivial, trivial, hpi⟩, trivial, trivial⟩, isFinite_one, trivial⟩
    have hsquare : hiddenDensity.squared.Regular ρ :=
      ⟨hparts, isFinite_two, .inr ⟨two, 2, rfl, by simp, by simp⟩⟩
    have hvalue : hiddenDensity.squared.value (.usual ρ) = 1 := by
      rw [Expr.squared, value_pow, hhidden, value_num, real_two]
      norm_num
    have hpos : Elementary.sqrt.RegularAt (hiddenDensity.squared.value (.usual ρ)) :=
      hvalue ▸ one_pos
    exact ⟨trivial, regular_call_iff.mpr ⟨.sqrt, _, rfl, rfl, hsquare, hpos⟩, trivial⟩
  have habs : (Elementary.abs.of (sym "rb") : Expr RationalOrReal).value (.usual ρ) = 1 :=
    (value_call (f := .abs) rfl).trans (show |(-1 : ℝ)| = 1 by rw [abs_neg, abs_one])
  have hdefined : signOfDensity.Defined ρ := by
    have hcall : (Elementary.abs.of (sym "rb") : Expr RationalOrReal).Defined ρ :=
      defined_call_iff.mpr ⟨.abs, _, rfl, rfl, trivial, trivial⟩
    exact ⟨⟨hcall, isFinite_minusOne, .of_pos (habs ▸ one_pos)⟩, trivial, trivial⟩
  have hvalue : signOfDensity.value (.usual ρ) = -1 := by
    rw [signOfDensity, value_mul, Expr.inverted, value_pow, habs, hrb, Real.one_rpow, one_mul]
  exact ⟨⟨rfl, rfl⟩, registered_iff.mpr (by decide), hregular, signOfDensity, .num Literal.one,
    alongPath_rootOfSquare_swapped, alongPath_rootOfSquare, hdefined, hvalue, isFinite_one,
    real_one⟩

end Differentiator

end DensityKernel
