import DensityKernel.Proofs.NormalForm.Passes
import DensityKernel.Proofs.Smooth.Power

/-!
Normal forms of smooth expressions. Near a point at which the assumption on the
symbols holds, a smooth expression and its normal form are both smooth and have
the same value. Nearby the assumption need not hold: a density that is zero at
the point may be negative there. Where the rules rely on a sign, the value is not
zero at the point, and the sign is the same nearby.
-/

namespace DensityKernel

open DensityKernel.Expr DensityKernel.Literal DensityKernel.NormalForm Filter Topology

variable {K : Type} [Literal K] [Exact K] [Strict K] {ρ : String → ℝ} {u u' v v' w e e' : Expr K}

/-- Rewriting leaves literals as they are, and what is smooth at the point stays so nearby, with
the same value. -/
structure Keeps (ρ : String → ℝ) (u v : Expr K) : Prop where
  literal : ∀ x, u = .num x → v = u
  smooth : ∀ derived, Smooth ρ derived u →
    ∀ᶠ σ in 𝓝 ρ, Smooth σ derived v ∧ v.rootValue σ = u.rootValue σ

namespace Keeps

omit [Strict K] in
theorem refl (u : Expr K) : Keeps ρ u u where
  literal _ _ := rfl
  smooth _ h := h.eventually.mono fun _ hσ => ⟨hσ, rfl⟩

omit [Strict K] in
theorem trans (huv : Keeps ρ u v) (hvw : Keeps ρ v w) : Keeps ρ u w where
  literal x hx := by
    obtain rfl := huv.literal x hx
    exact hvw.literal x hx
  smooth derived h := by
    have hnear := huv.smooth derived h
    filter_upwards [hnear, hvw.smooth derived hnear.self_of_nhds.1] with σ hv hw
    exact ⟨hw.1, hw.2.trans hv.2⟩

/-- A rewriting that is right wherever the expression is smooth. -/
theorem of_refinedBy (hliteral : ∀ x, u ≠ .num x)
    (h : ∀ σ derived, (Reading.root σ derived).RefinedBy u v) : Keeps ρ u v where
  literal x hx := absurd hx (hliteral x)
  smooth derived hu := hu.eventually.mono fun σ hσ => h σ derived hσ

omit [Strict K] in
theorem call {name : String} {args args' : List (Expr K)}
    (h : List.Forall₂ (Keeps ρ) args args') : Keeps ρ (.call name args) (.call name args') where
  literal := nofun
  smooth derived hcall := by
    cases hcall with
    | @call _ _ f u hf hu hx =>
      obtain ⟨u', args', huu', hnil, rfl⟩ := List.forall₂_cons_left_iff.mp h
      obtain rfl := List.forall₂_nil_left_iff.mp hnil
      filter_upwards [huu'.smooth false hu,
        hu.continuousAt.eventually (f.isOpen_regularAt.mem_nhds hx)] with σ ⟨hu', hvalue⟩ hxσ
      refine ⟨.call hf hu' ?_, ?_⟩
      · rw [hvalue]
        exact hxσ
      · rw [rootValue_call hf, rootValue_call hf, hvalue]

omit [Strict K] in
theorem binary {op : Operator} (hu : Keeps ρ u u') (hv : Keeps ρ v v') :
    Keeps ρ (.binary op u v) (.binary op u' v') where
  literal := nofun
  smooth derived h := by
    cases h with
    | add h₁ h₂ =>
      filter_upwards [hu.smooth derived h₁, hv.smooth derived h₂] with σ ⟨hu', hx⟩ ⟨hv', hy⟩
      exact ⟨.add hu' hv', by rw [rootValue_add, rootValue_add, hx, hy]⟩
    | sub h₁ h₂ =>
      filter_upwards [hu.smooth derived h₁, hv.smooth derived h₂] with σ ⟨hu', hx⟩ ⟨hv', hy⟩
      exact ⟨.sub hu' hv', by rw [rootValue_sub, rootValue_sub, hx, hy]⟩
    | mul h₁ h₂ =>
      filter_upwards [hu.smooth derived h₁, hv.smooth derived h₂] with σ ⟨hu', hx⟩ ⟨hv', hy⟩
      exact ⟨.mul hu' hv', by rw [rootValue_mul, rootValue_mul, hx, hy]⟩
    | div h₁ h₂ hne =>
      filter_upwards [hu.smooth derived h₁, hv.smooth false h₂,
        h₂.continuousAt.eventually_ne hne] with σ ⟨hu', hx⟩ ⟨hv', hy⟩ hneσ
      exact ⟨.div hu' hv' (hy ▸ hneσ), by rw [rootValue_div, rootValue_div, hx, hy]⟩
    | positive h₁ h₂ hpos =>
      filter_upwards [hu.smooth false h₁, hv.smooth false h₂,
        h₁.continuousAt.eventually (lt_mem_nhds hpos)] with σ ⟨hu', hx⟩ ⟨hv', hy⟩ hposσ
      exact ⟨.positive hu' hv' (hx ▸ hposσ), by rw [rootValue_pow, rootValue_pow, hx, hy]⟩
    | integer h₁ hn hint hne =>
      obtain rfl := hv.literal _ rfl
      filter_upwards [hu.smooth false h₁, h₁.eventually_ne hne] with σ ⟨hu', hx⟩ hneσ
      exact ⟨.integer hu' hn hint (hx ▸ hneσ), by rw [rootValue_pow, rootValue_pow, hx]⟩
    | third h₁ hn hthird hne =>
      obtain rfl := hv.literal _ rfl
      filter_upwards [hu.smooth false h₁, h₁.continuousAt.eventually_ne hne] with σ ⟨hu', hx⟩ hneσ
      exact ⟨.third hu' hn hthird (hx ▸ hneσ), by rw [rootValue_pow, rootValue_pow, hx]⟩
    | natural h₁ hn hnat =>
      obtain rfl := hv.literal _ rfl
      filter_upwards [hu.smooth true h₁] with σ ⟨hu', hx⟩
      exact ⟨.natural hu' hn hnat, by rw [rootValue_pow, rootValue_pow, hx]⟩

end Keeps

/-! ### Rules that rely on signs -/

/-- What is nonnegative by its structure, and not zero, is positive nearby. -/
theorem Expr.Smooth.eventually_pos (hρ : Admissible .densities ρ)
    (h : Smooth ρ false e) (hsign : NormalForm.isNonNegative e = true) (hne : e.rootValue ρ ≠ 0) :
    ∀ᶠ σ in 𝓝 ρ, 0 < e.rootValue σ := by
  have hnonneg : 0 ≤ e.rootValue ρ := isNonNegative_sound (R := Reading.root ρ false) hρ h hsign
  exact h.continuousAt.eventually (lt_mem_nhds (hnonneg.lt_of_ne' hne))

namespace NormalForm

theorem powerOfPower_keeps (hρ : Admissible .densities ρ) (h : powerOfPower e = some e') :
    Keeps ρ e e' := by
  unfold powerOfPower at h
  split at h
  case h_2 => exact absurd h (by simp)
  rename_i base inner outer
  obtain rfl := Option.some.inj h
  refine ⟨nofun, fun derived hpower => ?_⟩
  split_ifs with hhidden
  · simp only [Bool.and_eq_true, Bool.not_eq_true'] at hhidden
    exact hpower.eventually.mono fun σ hσ => hσ.power_abs hhidden.1.1 hhidden.1.2
  · have hsign : ∀ᶠ σ in 𝓝 ρ, isEven inner = true →
        isEven (inner * outer) = true ∨ 0 < base.rootValue σ := by
      by_cases heven : isEven inner = true
      · cases hodd : isEven (inner * outer) with
        | true => exact .of_forall fun _ _ => .inl rfl
        | false =>
          have hbase : NormalForm.isNonNegative base = true := by
            simpa [heven, hodd] using hhidden
          obtain ⟨hsmooth, hne⟩ := hpower.ne_zero_of_hidden heven hodd
          exact (hsmooth.eventually_pos hρ hbase hne).mono fun _ hpos _ => .inr hpos
      · exact .of_forall fun _ h => absurd h heven
    filter_upwards [hpower.eventually, hsign] with σ hσ hsignσ
    exact hσ.power_power hsignσ

theorem powerOfProduct_keeps (hρ : Admissible .densities ρ) (h : powerOfProduct e = some e') :
    Keeps ρ e e' := by
  unfold powerOfProduct at h
  split at h
  case h_2 => exact absurd h (by simp)
  rename_i u v n
  obtain ⟨hcondition, h⟩ := Option.ite_none_right_eq_some.mp h
  obtain rfl := Option.some.inj h
  refine ⟨nofun, fun derived hpower => ?_⟩
  by_cases hwhole : isWhole n = true
  · exact hpower.eventually.mono fun σ hσ => hσ.power_mul_of_whole hwhole
  -- The exponent is not whole, so neither factor is zero.
  obtain ⟨hnu, hnv⟩ : NormalForm.isNonNegative u = true ∧ NormalForm.isNonNegative v = true := by
    simpa [hwhole] using hcondition
  obtain ⟨hn, hbase⟩ := smooth_power_iff.mp hpower
  have hfraction : ¬∃ k : ℤ, real n = k := by rwa [← Valued.isWhole_iff hn]
  rcases hbase with ⟨hproduct, hfits⟩ | ⟨-, -, k, hk⟩
  · obtain ⟨hu, hv⟩ := Smooth.mul_iff.mp hproduct
    have hposu := isNonNegative_sound (R := Reading.root ρ false) hρ hu hnu
    have hposv := isNonNegative_sound (R := Reading.root ρ false) hρ hv hnv
    obtain ⟨hpu, hpv⟩ := (hfits.pos_of_mul hposu hposv).resolve_left hfraction
    filter_upwards [hu.eventually, hv.eventually, hu.eventually_pos hρ hnu hpu.ne',
      hv.eventually_pos hρ hnv hpv.ne'] with σ huσ hvσ hpuσ hpvσ
    exact Smooth.power_mul_of_pos huσ hvσ hn hpuσ hpvσ
  · exact absurd ⟨k, by rw [hk, Int.cast_natCast]⟩ hfraction

/-! ### Normal forms -/

variable [DecidableEq K] [Spelling K] {domain : Domain} {op : Operator}
  {rule : Expr K → Option (Expr K)}

omit [Exact K] [Strict K] in
/-- No rule applies to a literal. -/
theorem ne_num_of_rule (hrule : rule ∈ rules domain op) (h : rule e = some e') (x : K) :
    e ≠ .num x := by
  rintro rfl
  rcases mem_rules hrule with rfl | rfl | rfl | rfl | rfl | ⟨-, rfl | rfl⟩ <;> cases h

/-- **Every rule keeps what is smooth**, and so does rewriting operands. -/
theorem keeping (hρ : Admissible domain ρ) : RuleCongruence (K := K) domain (Keeps ρ) where
  refl := .refl
  trans := .trans
  call := .call
  binary := .binary
  rule {op rule e e'} hrule h := by
    rcases mem_rules hrule with rfl | rfl | rfl | rfl | rfl | ⟨rfl, rfl | rfl⟩
    · exact .of_refinedBy (ne_num_of_rule hrule h) fun _ _ => foldLiterals_sound h
    · exact .of_refinedBy (ne_num_of_rule hrule h) fun _ _ => dropNeutral_sound h
    · exact .of_refinedBy (ne_num_of_rule hrule h) fun _ _ => collectTerms_sound h
    · exact .of_refinedBy (ne_num_of_rule hrule h) fun _ _ => collectFactors_sound h
    · exact .of_refinedBy (ne_num_of_rule hrule h) fun _ _ => invertDenominator_sound h
    · exact powerOfPower_keeps hρ h
    · exact powerOfProduct_keeps hρ h
  foldCall {e e'} h := by
    refine .of_refinedBy (fun x hx => ?_) fun _ _ => foldCall_sound h
    subst hx
    cases h

end NormalForm

/-- **Normal forms of smooth expressions** are smooth nearby and have the same value. -/
theorem Expr.Smooth.simplify [DecidableEq K] [Spelling K] {domain : Domain} {derived : Bool}
    (hρ : Admissible domain ρ) (h : Smooth ρ derived e) :
    ∀ᶠ σ in 𝓝 ρ, Smooth σ derived (e.simplify domain) ∧
      (e.simplify domain).rootValue σ = e.rootValue σ :=
  ((keeping hρ).simplify e).smooth derived h

end DensityKernel
