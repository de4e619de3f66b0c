import DensityKernel.Proofs.NormalForm.Power
import DensityKernel.Proofs.Reals.Exponent
import DensityKernel.Proofs.Reals.Strict
import DensityKernel.Proofs.Smooth.Basic

/-!
Powers at smooth points. A power with a literal exponent is smooth if the
exponent fits the value of the base (`smooth_power_iff`). With that, normal
forms are right for smooth expressions as they are for defined ones:
`Reading.root` reads powers through the cube root, and the rules for powers of
powers and of products keep the value near a point at which the assumption on
the symbols holds.
-/

namespace DensityKernel

open DensityKernel.Expr DensityKernel.Literal Filter Topology

variable {K : Type} [Literal K] [Exact K] {ρ : String → ℝ} {derived : Bool} {u v e e' : Expr K}

/-! ### Exponents -/

namespace Expr

/-- The base of a power is regular and the exponent fits it, or the power is a natural one of an
expression that takes part in a derivative. -/
theorem smooth_power_iff {n : K} : Smooth ρ derived (pow u (.num n)) ↔ isFinite n = true ∧
    ((Smooth ρ false u ∧ Fits derived (u.rootValue ρ) (real n)) ∨
      (derived = true ∧ Smooth ρ true u ∧ ∃ k : ℕ, real n = k)) := by
  constructor
  · intro h
    cases h with
    | positive hu hn hpos =>
      cases hn with
      | num hn => exact ⟨hn, .inl ⟨hu, .inl hpos⟩⟩
    | integer hu hn hint hne => exact ⟨hn, .inl ⟨hu, .inr (.inl ⟨_, hint, hne⟩)⟩⟩
    | third hu hn hthird hne => exact ⟨hn, .inl ⟨hu, .inr (.inr ⟨rfl, hthird, hne⟩)⟩⟩
    | natural hu hn hnat => exact ⟨hn, .inr ⟨rfl, hu, _, hnat⟩⟩
  · rintro ⟨hn, ⟨hu, hpos | ⟨k, hint, hne⟩ | ⟨rfl, hthird, hne⟩⟩ | ⟨rfl, hu, k, hnat⟩⟩
    · exact .positive hu (.num hn) hpos
    · exact .integer hu hn hint hne
    · exact .third hu hn hthird hne
    · exact .natural hu hn hnat

theorem Smooth.power {n : K} (hu : Smooth ρ false u) (hn : isFinite n = true)
    (h : Fits derived (u.rootValue ρ) (real n)) : Smooth ρ derived (pow u (.num n)) :=
  smooth_power_iff.mpr ⟨hn, .inl ⟨hu, h⟩⟩

/-- Exponents of one base are added. -/
theorem Smooth.power_add {m n : K} (hm : Smooth ρ derived (pow u (.num m)))
    (hn : Smooth ρ derived (pow u (.num n))) :
    Smooth ρ derived (pow u (.num (m + n))) ∧
      (pow u (.num (m + n))).rootValue ρ =
        (pow u (.num m)).rootValue ρ * (pow u (.num n)).rootValue ρ := by
  obtain ⟨hfm, hm⟩ := smooth_power_iff.mp hm
  obtain ⟨hfn, hn⟩ := smooth_power_iff.mp hn
  obtain ⟨hfinite, hreal⟩ := Exact.add_spec hfm hfn
  have hfits : (Smooth ρ false u → Fits derived (u.rootValue ρ) (real m) →
      Fits derived (u.rootValue ρ) (real n) →
      Smooth ρ derived (pow u (.num (m + n))) ∧
        (pow u (.num (m + n))).rootValue ρ =
          (pow u (.num m)).rootValue ρ * (pow u (.num n)).rootValue ρ) := by
    intro hu hm hn
    refine ⟨hu.power hfinite (hreal ▸ hm.add hn), ?_⟩
    rw [rootValue_pow, rootValue_num, hreal]
    exact (hm.rootPowerDefined.add hn.rootPowerDefined).2
  rcases hm with ⟨hu, hm⟩ | ⟨hflag, hu, k, hk⟩
  · rcases hn with ⟨-, hn⟩ | ⟨-, -, l, hl⟩
    · exact hfits hu hm hn
    · exact hfits hu hm (hl ▸ .of_nat l)
  · rcases hn with ⟨hu', hn⟩ | ⟨-, -, l, hl⟩
    · exact hfits hu' (hk ▸ .of_nat k) hn
    · have hsum : real (m + n) = ((k + l : ℕ) : ℝ) := by
        rw [hreal, hk, hl, Nat.cast_add]
      refine ⟨smooth_power_iff.mpr ⟨hfinite, .inr ⟨hflag, hu, k + l, hsum⟩⟩, ?_⟩
      rw [rootValue_pow, rootValue_pow, rootValue_pow, rootValue_num, rootValue_num, rootValue_num,
        hsum, hk, hl, rootPower_natCast, rootPower_natCast, rootPower_natCast, pow_add]

end Expr

/-! ### Reading powers through the cube root -/

/-- The reading of smooth expressions at an assignment of the symbols. -/
noncomputable def Reading.root [Strict K] (ρ : String → ℝ) (derived : Bool) : Reading K where
  symbol := ρ
  value := rootValue ρ
  Defined := Smooth ρ derived
  value_num := rfl
  value_sym := rfl
  value_call h := rootValue_call h
  value_add := rfl
  value_sub := rfl
  value_mul := rfl
  value_div := rfl
  value_pow_of_nonneg h := rootPower_of_nonneg h
  value_pow_of_int h := by rw [rootValue_pow, h, rootPower_intCast]
  defined_num := Smooth.num_iff
  defined_call h := by
    cases h with
    | call hf hu hx => exact ⟨_, _, rfl, hf, hu.of_false, .of_regularAt hx⟩
  defined_add := Smooth.add_iff
  defined_sub := Smooth.sub_iff
  defined_mul := Smooth.mul_iff
  defined_div h := by
    cases h with
    | div hu hv hne =>
      refine ⟨hu, hv.of_false, hne, hv.power isFinite_minusOne ?_⟩
      rw [real_minusOne]
      exact_mod_cast Fits.of_int (-1) hne
  defined_pow h := by
    cases h with
    | positive hu hv => exact ⟨hu.of_false, hv.of_false⟩
    | integer hu hx => exact ⟨hu.of_false, .num hx⟩
    | third hu hx => exact ⟨hu.of_false, .num hx⟩
    | natural hu hx => exact ⟨hu, .num hx⟩
  defined_pow_one := by
    intro u hu
    have hone : real (Literal.one : K) = ((1 : ℕ) : ℝ) := by rw [real_one, Nat.cast_one]
    cases derived with
    | false => exact hu.power isFinite_one (hone ▸ .of_nat 1)
    | true => exact .natural hu isFinite_one hone
  pow_add hm hn := hm.power_add hn
  real_pow := by
    intro x y h hfinite
    obtain ⟨hy, hbase⟩ := smooth_power_iff.mp h
    have hx : isFinite x = true := by
      rcases hbase with ⟨hx, -⟩ | ⟨-, hx, -⟩
      · exact Smooth.num_iff.mp hx
      · exact Smooth.num_iff.mp hx
    have hpower := Strict.powerDefined hx hy hfinite
    rw [(Exact.pow_spec hx hy hpower).2, rootValue_pow, rootValue_num, rootValue_num,
      rootPower_of_powerDefined hpower]

/-! ### Powers of powers -/

namespace Expr

variable {base : Expr K} {inner outer : K}

theorem Smooth.finite_exponents
    (h : Smooth ρ derived (pow (pow base (.num inner)) (.num outer))) :
    isFinite inner = true ∧ isFinite outer = true := by
  obtain ⟨houter, hpower⟩ := smooth_power_iff.mp h
  rcases hpower with ⟨hpower, -⟩ | ⟨-, hpower, -⟩
  · exact ⟨(smooth_power_iff.mp hpower).1, houter⟩
  · exact ⟨(smooth_power_iff.mp hpower).1, houter⟩

/-- Where an even exponent is hidden, and no even one is left, the base is regular and not zero. -/
theorem Smooth.ne_zero_of_hidden
    (h : Smooth ρ derived (pow (pow base (.num inner)) (.num outer)))
    (heven : isEven inner = true) (hodd : isEven (inner * outer) = false) :
    Smooth ρ false base ∧ base.rootValue ρ ≠ 0 := by
  obtain ⟨hinner, houter⟩ := h.finite_exponents
  obtain ⟨hcombined, hreal⟩ := Exact.mul_spec hinner houter
  obtain ⟨m, hm⟩ := (Valued.isEven_iff hinner).mp heven
  have hproduct : ¬∃ n : ℤ, real inner * real outer = 2 * n := by
    rw [← hreal, ← Valued.isEven_iff hcombined, hodd]
    exact Bool.false_ne_true
  rcases (smooth_power_iff.mp h).2 with ⟨hpower, hfits⟩ | ⟨-, -, k, hk⟩
  · obtain ⟨-, ⟨hbase, hfits'⟩ | ⟨hflag, -⟩⟩ := smooth_power_iff.mp hpower
    · exact ⟨hbase, hfits'.ne_zero_of_hidden hm hfits hproduct⟩
    · exact absurd hflag (by decide)
  · exact absurd ⟨m * k, by rw [hm, hk]; push_cast; ring⟩ hproduct

/-- The magnitude of the base takes the combined exponent where the sign is hidden. -/
theorem Smooth.power_abs (h : Smooth ρ derived (pow (pow base (.num inner)) (.num outer)))
    (heven : isEven inner = true) (hodd : isEven (inner * outer) = false) :
    Smooth ρ derived (pow (.call "abs" [base]) (.num (inner * outer))) ∧
      (pow (.call "abs" [base]) (.num (inner * outer))).rootValue ρ =
        (pow (pow base (.num inner)) (.num outer)).rootValue ρ := by
  obtain ⟨hbase, hne⟩ := h.ne_zero_of_hidden heven hodd
  obtain ⟨hinner, houter⟩ := h.finite_exponents
  obtain ⟨hcombined, hreal⟩ := Exact.mul_spec hinner houter
  obtain ⟨m, hm⟩ := (Valued.isEven_iff hinner).mp heven
  have hlookup : Elementary.lookup? "abs" 1 = some .abs := rfl
  have hvalue : (Expr.call "abs" [base]).rootValue ρ = |base.rootValue ρ| := rootValue_call hlookup
  constructor
  · refine .positive (.call hlookup hbase hne) (.num hcombined) ?_
    rw [hvalue]
    exact abs_pos.mpr hne
  · rw [rootValue_pow, hvalue, rootValue_num, hreal]
    exact Fits.power_abs hm

/-- The base takes the combined exponent where no sign is hidden. -/
theorem Smooth.power_power (h : Smooth ρ derived (pow (pow base (.num inner)) (.num outer)))
    (hsign : isEven inner = true → isEven (inner * outer) = true ∨ 0 < base.rootValue ρ) :
    Smooth ρ derived (pow base (.num (inner * outer))) ∧
      (pow base (.num (inner * outer))).rootValue ρ =
        (pow (pow base (.num inner)) (.num outer)).rootValue ρ := by
  obtain ⟨hinner, houter⟩ := h.finite_exponents
  obtain ⟨hcombined, hreal⟩ := Exact.mul_spec hinner houter
  rw [Valued.isEven_iff hinner, Valued.isEven_iff hcombined, hreal] at hsign
  rw [rootValue_pow, rootValue_pow, rootValue_pow, rootValue_num, rootValue_num, rootValue_num,
    hreal]
  rcases (smooth_power_iff.mp h).2 with ⟨hpower, hfits⟩ | ⟨rfl, hpower, k, hk⟩
  · obtain ⟨-, ⟨hbase, hfits'⟩ | ⟨hflag, -⟩⟩ := smooth_power_iff.mp hpower
    · obtain ⟨hproduct, hvalue⟩ := hfits'.power hfits hsign
      exact ⟨hbase.power hcombined (hreal ▸ hproduct), hvalue⟩
    · exact absurd hflag (by decide)
  · rw [hk] at hreal ⊢
    obtain ⟨-, ⟨hbase, hfits⟩ | ⟨-, hbase, l, hl⟩⟩ := smooth_power_iff.mp hpower
    · obtain ⟨hproduct, hvalue⟩ := hfits.power_natural k
      exact ⟨hbase.power hcombined (hreal ▸ hproduct), hvalue⟩
    · have hproduct : real inner * (k : ℝ) = ((l * k : ℕ) : ℝ) := by
        rw [hl, Nat.cast_mul]
      refine ⟨.natural hbase hcombined (hreal.trans hproduct), ?_⟩
      rw [hproduct, hl, rootPower_natCast, rootPower_natCast, rootPower_natCast, pow_mul]

/-! ### Powers of products -/

/-- A whole exponent is distributed over any product. -/
theorem Smooth.power_mul_of_whole {n : K} (h : Smooth ρ derived (pow (.mul u v) (.num n)))
    (hwhole : isWhole n = true) :
    Smooth ρ derived (Expr.mul (pow u (.num n)) (pow v (.num n))) ∧
      (Expr.mul (pow u (.num n)) (pow v (.num n))).rootValue ρ =
        (pow (.mul u v) (.num n)).rootValue ρ := by
  obtain ⟨hn, hbase⟩ := smooth_power_iff.mp h
  obtain ⟨k, hk⟩ := (Valued.isWhole_iff hn).mp hwhole
  rw [rootValue_mul, rootValue_pow, rootValue_pow, rootValue_pow, rootValue_mul, rootValue_num]
  rcases hbase with ⟨hproduct, hfits⟩ | ⟨rfl, hproduct, l, hl⟩
  · obtain ⟨hu, hv⟩ := Smooth.mul_iff.mp hproduct
    rw [rootValue_mul, hk] at hfits
    obtain ⟨hfu, hfv, hvalue⟩ := hfits.mul_of_whole
    rw [hk]
    exact ⟨.mul (hu.power hn (hk ▸ hfu)) (hv.power hn (hk ▸ hfv)), hvalue.symm⟩
  · obtain ⟨hu, hv⟩ := Smooth.mul_iff.mp hproduct
    refine ⟨.mul (.natural hu hn hl) (.natural hv hn hl), ?_⟩
    rw [hl, rootPower_natCast, rootPower_natCast, rootPower_natCast, mul_pow]

/-- Any exponent is distributed over positive factors. -/
theorem Smooth.power_mul_of_pos {n : K} (hu : Smooth ρ false u) (hv : Smooth ρ false v)
    (hn : isFinite n = true) (hposu : 0 < u.rootValue ρ) (hposv : 0 < v.rootValue ρ) :
    Smooth ρ derived (Expr.mul (pow u (.num n)) (pow v (.num n))) ∧
      (Expr.mul (pow u (.num n)) (pow v (.num n))).rootValue ρ =
        (pow (.mul u v) (.num n)).rootValue ρ :=
  ⟨.mul (.positive hu (.num hn) hposu) (.positive hv (.num hn) hposv),
    (Fits.mul_of_pos hposu hposv).symm⟩

end Expr

end DensityKernel
