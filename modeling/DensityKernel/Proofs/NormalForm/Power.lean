import DensityKernel.NormalForm.Passes
import DensityKernel.Proofs.NormalForm.Local

/-!
Powers of powers and of products. The rules rely on what is assumed about the
symbols: where densities are assumed, the constants have their values and no
density and no norm of a gradient is negative. Elsewhere nothing is assumed.
-/

namespace DensityKernel.NormalForm

open DensityKernel.Expr DensityKernel.Literal

/-- An assignment of the symbols that is possible under an assumption. -/
def Admissible : Domain → (String → ℝ) → Prop
  | .densities, ρ =>
    ρ "pi" = Real.pi ∧ ρ "e" = Real.exp 1 ∧
      ∀ v : Variable, v.isNonNegative = true → 0 ≤ ρ v.name
  | .anywhere, _ => True

variable {K : Type} [Literal K] [Exact K] {R : Reading K} {ρ : String → ℝ} {e e' : Expr K}

/-! ### Signs -/

omit [Exact K] in
/-- The constants, and the densities and norms, are taken to be nonnegative. -/
theorem isNonNegative_sym {name : String} (h : isNonNegative (.sym name : Expr K) = true) :
    name = "pi" ∨ name = "e" ∨ ∃ v : Variable, v.name = name ∧ v.isNonNegative = true := by
  rw [isNonNegative, Bool.or_eq_true, Bool.or_eq_true] at h
  rcases h with (hpi | he) | hvariable
  · exact .inl (by simpa using hpi)
  · exact .inr (.inl (by simpa using he))
  · cases hv : Variable.ofName? name with
    | none => simp [hv] at hvariable
    | some v =>
      have hname : v.name = name := by simpa using List.find?_some hv
      exact .inr (.inr ⟨v, hname, by simpa [hv] using hvariable⟩)

/-- What is nonnegative by its structure is nonnegative. -/
theorem isNonNegative_sound (hR : Admissible .densities R.symbol) (hdefined : R.Defined e)
    (h : isNonNegative e = true) : 0 ≤ R.value e := by
  induction e with
  | num x =>
    rw [R.value_num]
    exact (Literal.isNonNegative_iff (R.defined_num.mp hdefined)).mp h
  | sym name =>
    obtain ⟨hpi, he, hvariables⟩ := hR
    rw [R.value_sym]
    rcases isNonNegative_sym h with rfl | rfl | ⟨v, rfl, hv⟩
    · exact hpi ▸ Real.pi_pos.le
    · exact he ▸ (Real.exp_pos 1).le
    · exact hvariables v hv
  | call name args =>
    obtain rfl : name = "abs" := by simpa [isNonNegative] using h
    obtain ⟨f, u, rfl, hf, -, -⟩ := R.defined_call hdefined
    obtain rfl : Elementary.abs = f := Option.some.inj hf
    rw [R.value_call hf]
    exact abs_nonneg _
  | binary op u v ihu ihv =>
    cases op with
    | add | sub | div => simp [isNonNegative] at h
    | mul =>
      obtain ⟨hu, hv⟩ := R.defined_mul.mp hdefined
      obtain ⟨hnu, hnv⟩ := (Bool.and_eq_true _ _).mp (by simpa only [isNonNegative] using h)
      rw [R.value_mul]
      exact mul_nonneg (ihu hu hnu) (ihv hv hnv)
    | pow =>
      obtain ⟨hu, hv⟩ := R.defined_pow hdefined
      rcases (Bool.or_eq_true _ _).mp (by simpa only [isNonNegative] using h) with hnu | heven
      · rw [R.value_pow_of_nonneg (ihu hu hnu)]
        exact Real.rpow_nonneg (ihu hu hnu) _
      · cases v with
        | num n =>
          have hn := R.defined_num.mp hv
          obtain ⟨m, hm⟩ := (Valued.isEven_iff hn).mp (by simpa [literal?] using heven)
          rw [R.value_pow_of_int (n := 2 * m) (by rw [R.value_num, hm]; push_cast; rfl)]
          exact rpow_nonneg_of_even (even_two_mul m)
        | sym | call | binary => simp [literal?] at heven

/-! ### Powers of powers -/

theorem even_of_isEven {x : K} {n : ℤ} (hfinite : isFinite x = true) (hx : real x = n) :
    isEven x = true ↔ Even n := by
  rw [Valued.isEven_iff hfinite, hx]
  constructor
  · rintro ⟨m, hm⟩
    exact ⟨m, by exact_mod_cast hm.trans (two_mul _)⟩
  · rintro ⟨m, rfl⟩
    exact ⟨m, by push_cast; ring⟩

/-- The magnitude of an expression, as a call. -/
theorem defined_abs {u : Expr K} (hu : u.Defined ρ) :
    (call "abs" [u]).Defined ρ ∧ (call "abs" [u]).value (.usual ρ) = |u.value (.usual ρ)| :=
  ⟨defined_call_iff.mpr ⟨.abs, u, rfl, rfl, hu, trivial⟩, value_call (f := .abs) rfl⟩

/-- Where the sign of the base is not hidden, the exponents of a power of a
power multiply. -/
theorem rpow_of_sign_not_hidden {x : ℝ} {inner outer : K} (hinner : isFinite inner = true)
    (houter : isFinite outer = true) (hp : PowerDefined x (real inner))
    (hq : PowerDefined (x ^ real inner) (real outer))
    (hsign : isEven inner = true → isEven (inner * outer) = true ∨ 0 ≤ x) :
    PowerDefined x (real inner * real outer) ∧
      x ^ (real inner * real outer) = (x ^ real inner) ^ real outer := by
  rcases le_or_gt 0 x with hpos | hneg
  · exact PowerDefined.rpow_of_nonneg hpos hp hq
  obtain ⟨n, hn⟩ := hp.1 hneg
  rw [hn] at hp hq ⊢
  rcases Int.even_or_odd n with heven | hodd
  · -- An even exponent is left, which makes no difference between the base and its magnitude.
    obtain hcombined | hpos := hsign ((even_of_isEven hinner hn).mpr heven)
    · obtain ⟨hfinite, hreal⟩ := Exact.mul_spec hinner houter
      obtain ⟨m, hm⟩ := (Valued.isEven_iff hfinite).mp hcombined
      have htotal : (n : ℝ) * real outer = ((2 * m : ℤ) : ℝ) := by
        rw [← hn, ← hreal, hm]
        push_cast
        rfl
      refine ⟨⟨fun _ => ⟨2 * m, htotal⟩, fun h => absurd h hneg.ne⟩, ?_⟩
      rw [← (PowerDefined.abs_rpow_of_even heven hp hq).2, htotal,
        rpow_abs_of_even (even_two_mul m)]
    · exact absurd hpos hneg.not_ge
  · exact PowerDefined.rpow_of_odd hneg hodd hq

theorem powerOfPower_sound (hρ : Admissible .densities ρ) (h : powerOfPower e = some e') :
    (Reading.usual ρ).RefinedBy e e' := by
  unfold powerOfPower at h
  split at h
  case h_2 => exact absurd h (by simp)
  rename_i base inner outer
  rintro ⟨⟨hbase, hinner, hp⟩, houter, hq⟩
  obtain ⟨hcombined, hreal⟩ := Exact.mul_spec hinner houter
  obtain rfl := Option.some.inj h
  split_ifs with hhidden
  · obtain ⟨hdabs, habs⟩ := defined_abs hbase
    have heven : isEven inner = true := by
      simp only [Bool.and_eq_true] at hhidden
      exact hhidden.1.1
    obtain ⟨m, hm⟩ := (Valued.isEven_iff hinner).mp heven
    have hm : real inner = ((2 * m : ℤ) : ℝ) := by exact_mod_cast hm
    rw [value_num, hm] at hp
    rw [value_num, value_pow, value_num, hm] at hq
    obtain ⟨hdefined, hlaw⟩ := PowerDefined.abs_rpow_of_even (even_two_mul m) hp hq
    refine ⟨⟨hdabs, hcombined, ?_⟩, ?_⟩
    · rwa [Operator.DefinedAt, habs, value_num, hreal, hm]
    · rw [Reading.value_usual, Reading.value_usual, value_pow, habs, value_num, hreal, hm, hlaw,
        value_pow, value_pow, value_num, hm, value_num]
  · have hsign : isEven inner = true →
        isEven (inner * outer) = true ∨ 0 ≤ base.value (.usual ρ) := by
      intro heven
      cases hcombined : isEven (inner * outer) with
      | true => exact .inl rfl
      | false =>
        refine .inr (isNonNegative_sound (R := .usual ρ) hρ hbase ?_)
        simpa [heven, hcombined] using hhidden
    obtain ⟨hdefined, hlaw⟩ := rpow_of_sign_not_hidden hinner houter hp hq hsign
    refine ⟨⟨hbase, hcombined, ?_⟩, ?_⟩
    · rwa [Operator.DefinedAt, value_num, hreal]
    · rw [Reading.value_usual, Reading.value_usual, value_pow, value_num, hreal, hlaw, value_pow,
        value_pow, value_num, value_num]

/-! ### Powers of products -/

theorem powerOfProduct_sound (hρ : Admissible .densities ρ) (h : powerOfProduct e = some e') :
    (Reading.usual ρ).RefinedBy e e' := by
  unfold powerOfProduct at h
  split at h
  case h_2 => exact absurd h (by simp)
  rename_i u v n
  rintro ⟨⟨hu, hv, -⟩, hn, hpower⟩
  obtain ⟨hcondition, h⟩ := Option.ite_none_right_eq_some.mp h
  obtain rfl := Option.some.inj h
  have hlaw : PowerDefined (u.value (.usual ρ)) (real n) ∧
      PowerDefined (v.value (.usual ρ)) (real n) ∧
      (u.value (.usual ρ) * v.value (.usual ρ)) ^ real n =
        u.value (.usual ρ) ^ real n * v.value (.usual ρ) ^ real n := by
    rcases (Bool.or_eq_true _ _).mp hcondition with hwhole | hnonneg
    · obtain ⟨m, hm⟩ := (Valued.isWhole_iff hn).mp hwhole
      rw [hm]
      exact PowerDefined.mul_of_whole (hm ▸ hpower)
    · obtain ⟨hnu, hnv⟩ := (Bool.and_eq_true _ _).mp hnonneg
      exact PowerDefined.mul_of_nonneg (isNonNegative_sound (R := .usual ρ) hρ hu hnu)
        (isNonNegative_sound (R := .usual ρ) hρ hv hnv) hpower
  obtain ⟨hdu, hdv, hvalue⟩ := hlaw
  exact ⟨defined_mul.mpr ⟨⟨hu, hn, hdu⟩, ⟨hv, hn, hdv⟩⟩, hvalue.symm⟩

end DensityKernel.NormalForm
