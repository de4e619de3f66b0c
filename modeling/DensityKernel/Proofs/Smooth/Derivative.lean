import DensityKernel.Proofs.Derivative.Steps
import DensityKernel.Proofs.Smooth.Basic

/-!
Derivatives of smooth expressions. The derivative of a smooth expression
succeeds, is smooth, and its value is the partial derivative. `IsPartial` says
the latter two; each rule keeps them, and the slopes of the elementary functions
are smooth where their arguments are regular.
-/

namespace DensityKernel.Expr

open DensityKernel.Literal Topology

variable {K : Type} [Literal K]

section Valued

variable [Valued K] {ρ : String → ℝ} {name : String} {derived : Bool} {u v p q : Expr K}

/-! ### Products and sums without zeros and ones -/

@[simp] theorem rootValue_negate : u.negate.rootValue ρ = -u.rootValue ρ := by
  rw [negate, rootValue_mul, rootValue_num, real_minusOne, neg_one_mul]

@[simp] theorem rootValue_times :
    (times u v).rootValue ρ = u.rootValue ρ * v.rootValue ρ := by
  unfold times
  split_ifs with hzero hu hv
  · rcases (Bool.or_eq_true _ _).mp hzero with h | h
    · rw [rootValue_of_isZero h, zero_mul, rootValue_zero]
    · rw [rootValue_of_isZero h, mul_zero, rootValue_zero]
  · rw [rootValue_of_isOne hu, one_mul]
  · rw [rootValue_of_isOne hv, mul_one]
  · rfl

@[simp] theorem rootValue_plus : (plus u v).rootValue ρ = u.rootValue ρ + v.rootValue ρ := by
  unfold plus
  split_ifs with hu hv
  · rw [rootValue_of_isZero hu, zero_add]
  · rw [rootValue_of_isZero hv, add_zero]
  · rfl

@[simp] theorem rootValue_minus : (minus u v).rootValue ρ = u.rootValue ρ - v.rootValue ρ := by
  unfold minus
  split_ifs with hv hu
  · rw [rootValue_of_isZero hv, sub_zero]
  · rw [rootValue_of_isZero hu, zero_sub, rootValue_negate]
  · rfl

@[simp] theorem rootValue_quotientNumerator :
    (quotientNumerator p q).rootValue ρ = p.rootValue ρ - q.rootValue ρ := by
  unfold quotientNumerator
  split_ifs with hp hq
  · rw [rootValue_of_isZero hp, zero_sub, rootValue_negate]
  · rw [rootValue_of_isZero hq, sub_zero]
  · rfl

@[simp] theorem rootValue_squared : u.squared.rootValue ρ = u.rootValue ρ ^ 2 := by
  have htwo : real (two : K) = ((2 : ℤ) : ℝ) := by simp
  rw [squared, rootValue_pow, rootValue_num, htwo, rootPower_intCast, Real.rpow_intCast]
  norm_cast

@[simp] theorem rootValue_inverted : u.inverted.rootValue ρ = (u.rootValue ρ)⁻¹ := by
  have hminusOne : real (minusOne : K) = ((-1 : ℤ) : ℝ) := by simp
  rw [inverted, rootValue_pow, rootValue_num, hminusOne, rootPower_intCast, Real.rpow_intCast,
    zpow_neg_one]

@[simp] theorem rootValue_of {f : Elementary} :
    (f.of u).rootValue ρ = f.onReal (u.rootValue ρ) :=
  rootValue_call f.lookup?_name

namespace Smooth

theorem negate (hu : Smooth ρ derived u) : Smooth ρ derived u.negate :=
  .mul (.num isFinite_minusOne) hu

theorem times (hu : Smooth ρ derived u) (hv : Smooth ρ derived v) :
    Smooth ρ derived (times u v) := by
  unfold Expr.times
  split_ifs
  · exact zero
  · exact hv
  · exact hu
  · exact .mul hu hv

theorem plus (hu : Smooth ρ derived u) (hv : Smooth ρ derived v) :
    Smooth ρ derived (plus u v) := by
  unfold Expr.plus
  split_ifs
  · exact hv
  · exact hu
  · exact .add hu hv

theorem minus (hu : Smooth ρ derived u) (hv : Smooth ρ derived v) :
    Smooth ρ derived (minus u v) := by
  unfold Expr.minus
  split_ifs
  · exact hu
  · exact hv.negate
  · exact .sub hu hv

theorem quotientNumerator (hp : Smooth ρ derived p) (hq : Smooth ρ derived q) :
    Smooth ρ derived (quotientNumerator p q) := by
  unfold Expr.quotientNumerator
  split_ifs
  · exact hq.negate
  · exact hp
  · exact .sub hp hq

theorem squared (hu : Smooth ρ false u) : Smooth ρ derived u.squared :=
  .integer hu isFinite_two (n := 2) (by simp) (fun h => absurd h (by decide))

theorem inverted (hu : Smooth ρ false u) (hne : u.rootValue ρ ≠ 0) :
    Smooth ρ derived u.inverted :=
  .integer hu isFinite_minusOne (n := -1) (by simp) (fun _ => hne)

theorem of {f : Elementary} (hu : Smooth ρ false u) (hf : f.RegularAt (u.rootValue ρ)) :
    Smooth ρ derived (f.of u) :=
  .call f.lookup?_name hu hf

end Smooth

/-! ### Values along one symbol -/

/-- An expression depends on the symbols that occur in it. -/
theorem rootValue_congr {σ : String → ℝ} (h : ∀ s, u.mentions s = true → σ s = ρ s) :
    u.rootValue σ = u.rootValue ρ := by
  induction u with
  | num x => rfl
  | sym s => exact h s (by simp [mentions])
  | call f args ih =>
    have hargs : rootValues σ args = rootValues ρ args := by
      induction args with
      | nil => rfl
      | cons a args ihargs =>
        have ha : a.rootValue σ = a.rootValue ρ :=
          ih a List.mem_cons_self fun s hs => h s (by simp [mentions, anyMentions, hs])
        have hrest := ihargs (fun b hb => ih b (List.mem_cons_of_mem _ hb)) fun s hs =>
          h s (Bool.or_eq_true_iff.mpr (.inr hs))
        rw [rootValues, rootValues, ha, hrest]
    rw [rootValue, rootValue, hargs]
  | binary op u v ihu ihv =>
    rw [rootValue, rootValue, ihu fun s hs => h s (by simp [mentions, hs]),
      ihv fun s hs => h s (by simp [mentions, hs])]

/-- The value as a function of one symbol, the others held. -/
noncomputable def rootAlong (ρ : String → ℝ) (name : String) (e : Expr K) (t : ℝ) : ℝ :=
  e.rootValue (Function.update ρ name t)

@[simp] theorem rootAlong_self : rootAlong ρ name u (ρ name) = u.rootValue ρ := by
  rw [rootAlong, Function.update_eq_self]

theorem rootAlong_of_not_mentions (h : u.mentions name = false) :
    rootAlong ρ name u = fun _ => u.rootValue ρ := by
  refine funext fun t => rootValue_congr fun s hs => Function.update_of_ne ?_ _ _
  rintro rfl
  exact absurd (h.symm.trans hs) Bool.false_ne_true

/-- A formula for a partial derivative that is smooth itself. -/
structure IsPartial (ρ : String → ℝ) (name : String) (u du : Expr K) : Prop where
  smooth : Smooth ρ true du
  hasDerivAt : HasDerivAt (rootAlong ρ name u) (du.rootValue ρ) (ρ name)

/-! ### Rules -/

variable {du dv : Expr K}

namespace IsPartial

theorem of_not_mentions (h : u.mentions name = false) : IsPartial ρ name u zero where
  smooth := .zero
  hasDerivAt := by
    rw [rootValue_zero, rootAlong_of_not_mentions h]
    exact hasDerivAt_const _ _

theorem sym : IsPartial ρ name (sym name : Expr K) one where
  smooth := .one
  hasDerivAt := by
    have hid : rootAlong ρ name (Expr.sym name : Expr K) = id := by
      funext t
      exact Function.update_self (β := fun _ => ℝ) name t ρ
    rw [rootValue_one, hid]
    exact hasDerivAt_id _

theorem add (hu : IsPartial ρ name u du) (hv : IsPartial ρ name v dv) :
    IsPartial ρ name (add u v) (plus du dv) where
  smooth := hu.smooth.plus hv.smooth
  hasDerivAt := by
    rw [rootValue_plus]
    exact hu.hasDerivAt.add hv.hasDerivAt

theorem sub (hu : IsPartial ρ name u du) (hv : IsPartial ρ name v dv) :
    IsPartial ρ name (sub u v) (minus du dv) where
  smooth := hu.smooth.minus hv.smooth
  hasDerivAt := by
    rw [rootValue_minus]
    exact hu.hasDerivAt.sub hv.hasDerivAt

theorem mul (hu : IsPartial ρ name u du) (hv : IsPartial ρ name v dv)
    (hsmooth : Smooth ρ true u) (hsmooth' : Smooth ρ true v) :
    IsPartial ρ name (mul u v) (productDerivative u v du dv) where
  smooth := (hu.smooth.times hsmooth').plus (hv.smooth.times hsmooth)
  hasDerivAt := by
    refine (hu.hasDerivAt.mul hv.hasDerivAt).congr_deriv ?_
    rw [productDerivative, rootValue_plus, rootValue_times, rootValue_times, rootAlong_self,
      rootAlong_self]
    ring

theorem div (hu : IsPartial ρ name u du) (hv : IsPartial ρ name v dv)
    (hsmooth : Smooth ρ true u) (hsmooth' : Smooth ρ false v) (hne : v.rootValue ρ ≠ 0) :
    IsPartial ρ name (div u v) (quotientDerivative u v du dv) where
  smooth := by
    have hnumerator := (hu.smooth.times hsmooth'.weaken).quotientNumerator
      (hv.smooth.times hsmooth)
    unfold quotientDerivative
    split_ifs
    · exact .zero
    · exact hu.smooth
    · exact .div hu.smooth hsmooth' hne
    · refine .div hnumerator hsmooth'.squared ?_
      rw [rootValue_squared]
      exact pow_ne_zero 2 hne
  hasDerivAt := by
    have hquotient := hu.hasDerivAt.div hv.hasDerivAt (by rwa [rootAlong_self])
    rw [rootAlong_self, rootAlong_self] at hquotient
    refine hquotient.congr_deriv ?_
    unfold quotientDerivative
    split_ifs with hboth hdv hone
    · obtain ⟨hdu, hdv⟩ := (Bool.and_eq_true _ _).mp hboth
      rw [rootValue_of_isZero hdu, rootValue_of_isZero hdv, rootValue_zero]
      simp
    · rw [rootValue_of_isZero hdv, rootValue_of_isOne hone]
      ring
    · rw [rootValue_div, rootValue_of_isZero hdv]
      field_simp
      ring
    · rw [rootValue_div, rootValue_quotientNumerator, rootValue_squared, rootValue_times,
        rootValue_times]
      ring

/-- Logarithmic differentiation of a power with a positive base. The logarithm of the constant
`e` is one. -/
theorem exponential (hu : IsPartial ρ name u du) (hv : IsPartial ρ name v dv)
    (hsmooth : Smooth ρ false u) (hsmooth' : Smooth ρ false v) (hpos : 0 < u.rootValue ρ)
    (he : ρ "e" = Real.exp 1) : IsPartial ρ name (pow u v) (exponentialDerivative u v du dv) := by
  unfold exponentialDerivative
  extract_lets ofExponent ofBase total
  have hexponent : Smooth ρ true ofExponent ∧
      ofExponent.rootValue ρ = dv.rootValue ρ * Real.log (u.rootValue ρ) := by
    simp only [ofExponent]
    split_ifs with hzero hsymbol
    · exact ⟨.zero, by rw [rootValue_of_isZero hzero, rootValue_zero, zero_mul]⟩
    · obtain rfl : u = .sym "e" := by
        cases u with
        | sym s => exact congrArg Expr.sym (Option.some.inj hsymbol)
        | num | call | binary => simp [symbol?] at hsymbol
      refine ⟨hv.smooth, ?_⟩
      rw [rootValue_sym, he, Real.log_exp, mul_one]
    · refine ⟨.mul hv.smooth (.of hsmooth hpos), ?_⟩
      rw [rootValue_mul, rootValue_of]
      rfl
  have hbase : Smooth ρ true ofBase ∧
      ofBase.rootValue ρ = v.rootValue ρ * (du.rootValue ρ / u.rootValue ρ) := by
    simp only [ofBase]
    split_ifs with hzero
    · exact ⟨.zero, by rw [rootValue_of_isZero hzero, rootValue_zero, zero_div, mul_zero]⟩
    · exact ⟨.mul hsmooth'.weaken (.div hu.smooth hsmooth hpos.ne'), rfl⟩
  have htotal : Smooth ρ true total ∧ total.rootValue ρ =
      dv.rootValue ρ * Real.log (u.rootValue ρ) +
        v.rootValue ρ * (du.rootValue ρ / u.rootValue ρ) :=
    ⟨hexponent.1.plus hbase.1, by rw [rootValue_plus, hexponent.2, hbase.2]⟩
  have hpower : HasDerivAt (rootAlong ρ name (pow u v))
      (u.rootValue ρ ^ v.rootValue ρ * total.rootValue ρ) (ρ name) := by
    have halong : 0 < rootAlong ρ name u (ρ name) := by rwa [rootAlong_self]
    refine ((hu.hasDerivAt.rpow hv.hasDerivAt halong).congr_deriv ?_).congr_of_eventuallyEq ?_
    · rw [rootAlong_self, rootAlong_self, htotal.2, Real.rpow_sub_one hpos.ne']
      ring
    · filter_upwards [hu.hasDerivAt.continuousAt.eventually (lt_mem_nhds halong)] with t ht
      exact rootPower_of_nonneg ht.le
  split_ifs with hzero
  · refine ⟨.zero, hpower.congr_deriv ?_⟩
    rw [rootValue_of_isZero hzero, mul_zero, rootValue_zero]
  · refine ⟨.mul (.positive hsmooth hsmooth' hpos) htotal.1, hpower.congr_deriv ?_⟩
    rw [rootValue_mul, rootValue_pow, rootPower_of_nonneg hpos.le]

end IsPartial

end Valued

/-! ### Powers and calls in exact arithmetic -/

section Exact

variable [Exact K] {ρ : String → ℝ} {name : String} {derived : Bool} {u v e du : Expr K} {x : K}

/-- A power with a literal exponent is regular in its base. -/
theorem Smooth.rootPowerRegular (h : Smooth ρ derived (pow u (.num x))) :
    Smooth ρ true u ∧ isFinite x = true ∧ RootPowerRegular (u.rootValue ρ) (real x) := by
  cases h with
  | positive hu hx hpos =>
    cases hx with
    | num hx => exact ⟨hu.weaken, hx, .inl hpos⟩
  | integer hu hx hn hne => exact ⟨hu.weaken, hx, hn ▸ .of_int hne⟩
  | third hu hx hthird hne => exact ⟨hu.weaken, hx, .inr (.inl ⟨hne, hthird⟩)⟩
  | natural hu hx hn => exact ⟨hu, hx, .inr (.inr ⟨_, hn⟩)⟩

/-- The power rule keeps an exponent in its kind, unless it is zero. -/
theorem Smooth.lowered (h : Smooth ρ true (pow u (.num x))) (hx : real x ≠ 0) :
    Smooth ρ true (pow u (.num (x - Literal.one))) := by
  have hlowered : isFinite x = true →
      isFinite (x - Literal.one) = true ∧ real (x - Literal.one) = real x - 1 := by
    intro hfinite
    have hsub := Exact.sub_spec hfinite isFinite_one
    rwa [real_one] at hsub
  cases h with
  | positive hu hfinite hpos =>
    cases hfinite with
    | num hfinite => exact .positive hu (.num (hlowered hfinite).1) hpos
  | @integer _ _ _ n hu hfinite hn hne =>
    obtain ⟨hfinite', hreal⟩ := hlowered hfinite
    refine .integer hu hfinite' (n := n - 1) (by rw [hreal, hn]; push_cast; rfl) fun hneg => ?_
    have hn0 : n ≠ 0 := by
      rintro rfl
      exact hx (by rw [hn, Int.cast_zero])
    exact hne (by omega)
  | third hu hfinite hthird hne =>
    obtain ⟨hfinite', hreal⟩ := hlowered hfinite
    refine .third hu hfinite' ?_ hne
    have hminusOne : Third (-1) := by simpa using third_intCast (-1)
    rw [hreal, sub_eq_add_neg]
    exact hthird.add hminusOne
  | @natural _ _ n hu hfinite hn =>
    obtain ⟨hfinite', hreal⟩ := hlowered hfinite
    cases n with
    | zero => exact absurd (by rw [hn, Nat.cast_zero]) hx
    | succ n => exact .natural hu hfinite' (n := n) (by rw [hreal, hn]; push_cast; ring)

/-- **The slopes are smooth, and they are the derivatives.** -/
theorem slope_spec {f : Elementary} (hu : Smooth ρ false u) (hf : f.RegularAt (u.rootValue ρ)) :
    Smooth ρ true (f.slope u) ∧ (f.slope u).rootValue ρ = f.derivative (u.rootValue ρ) := by
  have hminusOne : ∀ {w : Expr K}, Smooth ρ true w →
      Smooth ρ true (times (.num minusOne) w) := fun hw => .times (.num isFinite_minusOne) hw
  cases f with
  | exp => exact ⟨.of hu trivial, rootValue_of⟩
  | sin => exact ⟨.of (f := .cos) hu trivial, rootValue_of⟩
  | sinh => exact ⟨.of (f := .cosh) hu trivial, rootValue_of⟩
  | cosh => exact ⟨.of (f := .sinh) hu trivial, rootValue_of⟩
  | ln | log => exact ⟨hu.inverted (ne_of_gt hf), rootValue_inverted⟩
  | sqrt =>
    have hpos : 0 < u.rootValue ρ := hf
    refine ⟨.mul (.num isFinite_half) (.positive hu (.num isFinite_minusHalf) hpos), ?_⟩
    rw [Elementary.slope, rootValue_mul, rootValue_num, rootValue_pow, rootValue_num, real_half,
      real_minusHalf, rootPower_of_nonneg hpos.le, Elementary.derivative, neg_div,
      Real.rpow_neg hpos.le, ← Real.sqrt_eq_rpow]
    field_simp
  | cbrt =>
    obtain ⟨hthird, hreal⟩ := third_spec (K := K)
    obtain ⟨hexponent, hexponentReal⟩ := minusTwoThirds_spec (K := K)
    have hk : 3 * real (minusTwoThirds : K) = ((-2 : ℤ) : ℝ) := by
      rw [hexponentReal]
      norm_num
    refine ⟨.mul (.num hthird) (.third hu hexponent ⟨-2, hk⟩ hf), ?_⟩
    rw [Elementary.slope, rootValue_mul, rootValue_num, rootValue_pow, rootValue_num, hreal,
      Elementary.derivative, rpow_abs_cubeRoot, rootPower_of_third hk]
  | cos =>
    refine ⟨hminusOne (.of (f := .sin) hu trivial), ?_⟩
    rw [Elementary.slope, rootValue_times, rootValue_of, rootValue_num, real_minusOne, neg_one_mul]
    rfl
  | tan =>
    refine ⟨.add .one (Smooth.squared (.of (f := .tan) hu hf)), ?_⟩
    rw [Elementary.slope, rootValue_add, rootValue_one, rootValue_squared, rootValue_of]
    rfl
  | atan =>
    have hpos : 0 < 1 + u.rootValue ρ ^ 2 := by positivity
    refine ⟨Smooth.inverted (.add .one hu.squared) ?_, ?_⟩
    · rw [rootValue_add, rootValue_one, rootValue_squared]
      exact hpos.ne'
    · rw [Elementary.slope, rootValue_inverted, rootValue_add, rootValue_one, rootValue_squared,
        Elementary.derivative, one_div]
  | tanh =>
    refine ⟨.sub .one (Smooth.squared (.of (f := .tanh) hu trivial)), ?_⟩
    rw [Elementary.slope, rootValue_sub, rootValue_one, rootValue_squared, rootValue_of]
    rfl
  | asinh =>
    have hvalue : (Expr.add one u.squared).rootValue ρ = 1 + u.rootValue ρ ^ 2 := by
      rw [rootValue_add, rootValue_one, rootValue_squared]
    have hpos : 0 < 1 + u.rootValue ρ ^ 2 := by positivity
    refine ⟨.positive (.add .one hu.squared) (.num isFinite_minusHalf) (hvalue ▸ hpos), ?_⟩
    rw [Elementary.slope, rootValue_pow, hvalue, rootValue_num, real_minusHalf,
      rootPower_of_nonneg hpos.le, Elementary.derivative, neg_div, Real.rpow_neg hpos.le,
      ← Real.sqrt_eq_rpow]
  | erf =>
    obtain ⟨hfinite, hreal⟩ := Exact.erfSlope_spec (K := K)
    have hargument : Smooth ρ false (times (.num minusOne) u.squared) :=
      .times (.num isFinite_minusOne) hu.squared
    refine ⟨.mul (.num hfinite) (.of (f := .exp) hargument trivial), ?_⟩
    rw [Elementary.slope, rootValue_mul, rootValue_num, hreal, rootValue_of, rootValue_times,
      rootValue_num, real_minusOne, rootValue_squared, neg_one_mul]
    rfl
  | abs =>
    have hne : u.rootValue ρ ≠ 0 := hf
    refine ⟨.mul hu.weaken (Smooth.inverted (.of (f := .abs) hu hne) ?_), ?_⟩
    · rw [rootValue_of]
      exact abs_ne_zero.mpr hne
    · rw [Elementary.slope, rootValue_mul, rootValue_inverted, rootValue_of, Elementary.derivative,
        div_eq_mul_inv]
      rfl

namespace IsPartial

/-- The chain rule. -/
theorem call {f : String} {g : Elementary} (h : IsPartial ρ name u du)
    (hlookup : Elementary.lookup? f 1 = some g) (hu : Smooth ρ false u)
    (hg : g.RegularAt (u.rootValue ρ)) :
    IsPartial ρ name (call f [u]) (if du.isZero then zero else times (g.slope u) du) := by
  obtain ⟨hslope, hvalue⟩ := slope_spec hu hg
  have houter : HasDerivAt g.onReal (g.derivative (u.rootValue ρ)) (rootAlong ρ name u (ρ name)) := by
    rw [rootAlong_self]
    exact Elementary.hasDerivAt_onReal hg
  have hchain : HasDerivAt (rootAlong ρ name (Expr.call f [u]))
      (g.derivative (u.rootValue ρ) * du.rootValue ρ) (ρ name) :=
    (houter.comp _ h.hasDerivAt).congr_of_eventuallyEq
      (.of_forall fun t => rootValue_call hlookup)
  split_ifs with hzero
  · refine ⟨.zero, hchain.congr_deriv ?_⟩
    rw [rootValue_of_isZero hzero, mul_zero, rootValue_zero]
  · exact ⟨hslope.times h.smooth, hchain.congr_deriv (by rw [rootValue_times, hvalue])⟩

/-- A derivative that is multiplied to something, unless it is a literal one. -/
theorem scaled (h : IsPartial ρ name u du) {lowered : Expr K} (hlowered : Smooth ρ true lowered) :
    Smooth ρ true (if du.isOne then lowered else .mul lowered du) ∧
      (if du.isOne then lowered else Expr.mul lowered du).rootValue ρ =
        lowered.rootValue ρ * du.rootValue ρ := by
  split_ifs with hone
  · exact ⟨hlowered, by rw [rootValue_of_isOne hone, mul_one]⟩
  · exact ⟨.mul hlowered h.smooth, rfl⟩

/-- The power rule, for an exponent without the variable. A literal exponent is lowered by one as
a literal; with any other the base is positive. -/
theorem power (h : IsPartial ρ name u du) (hv : v.mentions name = false)
    (hpower : Smooth ρ true (pow u v)) : IsPartial ρ name (pow u v) (powerDerivative u v du) := by
  have hregular : RootPowerRegular (u.rootValue ρ) (v.rootValue ρ) := by
    cases hpower with
    | positive _ _ hpos => exact .inl hpos
    | integer hu hx hn hne =>
      have hsmooth : Smooth ρ true (pow u (num _)) := .integer hu hx hn hne
      exact hsmooth.rootPowerRegular.2.2
    | third hu hx hthird hne => exact .inr (.inl ⟨hne, hthird⟩)
    | natural hu hx hn => exact .inr (.inr ⟨_, hn⟩)
  have houter : HasDerivAt (fun t => rootPower t (v.rootValue ρ))
      (v.rootValue ρ * rootPower (u.rootValue ρ) (v.rootValue ρ - 1))
      (rootAlong ρ name u (ρ name)) := by
    rw [rootAlong_self]
    exact hasDerivAt_rootPower hregular
  have hchain : HasDerivAt (rootAlong ρ name (pow u v))
      (v.rootValue ρ * (rootPower (u.rootValue ρ) (v.rootValue ρ - 1) * du.rootValue ρ))
      (ρ name) := by
    refine ((houter.comp _ h.hasDerivAt).congr_deriv (mul_assoc ..)).congr_of_eventuallyEq
      (.of_forall fun t => ?_)
    exact congrArg (rootPower (rootAlong ρ name u t)) (congrFun (rootAlong_of_not_mentions hv) t)
  unfold powerDerivative
  by_cases hdu : du.isZero = true
  · rw [if_pos hdu]
    refine ⟨.zero, hchain.congr_deriv ?_⟩
    rw [rootValue_of_isZero hdu, mul_zero, mul_zero, rootValue_zero]
  rw [if_neg hdu]
  -- Only a literal exponent is looked at; all other exponents are lowered as expressions.
  cases v with
  | num n =>
    obtain ⟨-, hfinite, -⟩ := hpower.rootPowerRegular
    dsimp only
    by_cases hzero : Literal.isZero n = true
    · rw [if_pos hzero]
      refine ⟨.zero, hchain.congr_deriv ?_⟩
      rw [rootValue_num, (isZero_iff.mp hzero).2, zero_mul, rootValue_zero]
    rw [if_neg hzero]
    by_cases hone : Literal.isOne n = true
    · rw [if_pos hone]
      refine ⟨h.smooth, hchain.congr_deriv ?_⟩
      have hempty : rootPower (u.rootValue ρ) 0 = 1 := by
        simpa using rootPower_intCast (u.rootValue ρ) 0
      rw [rootValue_num, (isOne_iff.mp hone).2, sub_self, hempty, one_mul, one_mul]
    rw [if_neg hone]
    have hne : real n ≠ 0 := fun h => hzero (isZero_iff.mpr ⟨hfinite, h⟩)
    obtain ⟨hsmooth, hvalue⟩ := h.scaled (hpower.lowered hne)
    refine ⟨.mul (.num hfinite) hsmooth, hchain.congr_deriv ?_⟩
    rw [Expr.rootValue_mul, hvalue, rootValue_pow, rootValue_num, rootValue_num,
      (Exact.sub_spec hfinite isFinite_one).2, real_one]
  | sym | call | binary =>
    cases hpower with
    | positive hu hv hpos =>
      obtain ⟨hsmooth, hvalue⟩ := h.scaled (.positive hu (.sub hv .one) hpos)
      refine ⟨.mul hv.weaken hsmooth, hchain.congr_deriv ?_⟩
      rw [Expr.rootValue_mul, hvalue, rootValue_pow, rootValue_sub, rootValue_one]

end IsPartial

/-- The derivative succeeds, and it is the partial derivative. -/
def Differentiates (ρ : String → ℝ) (name : String) (e : Expr K) : Prop :=
  ∃ d, derive name e = .ok d ∧ IsPartial ρ name e d

namespace Differentiates

theorem operation {op : Operator} (hu : Differentiates ρ name u) (hv : Differentiates ρ name v)
    (hmentions : op = .pow → v.mentions name = true)
    (hrule : ∀ {du dv}, IsPartial ρ name u du → IsPartial ρ name v dv →
      IsPartial ρ name (.binary op u v) (operationDerivative op u v du dv)) :
    Differentiates ρ name (.binary op u v) := by
  obtain ⟨du, hdu, hu⟩ := hu
  obtain ⟨dv, hdv, hv⟩ := hv
  exact ⟨_, derive_binary_iff.mpr (.inl ⟨du, dv, hdu, hdv, hmentions, rfl⟩), hrule hu hv⟩

theorem power (hu : Differentiates ρ name u) (hv : v.mentions name = false)
    (hpower : Smooth ρ true (pow u v)) : Differentiates ρ name (pow u v) := by
  obtain ⟨du, hdu, hu⟩ := hu
  exact ⟨_, derive_binary_iff.mpr (.inr ⟨rfl, hv, du, hdu, rfl⟩), hu.power hv hpower⟩

end Differentiates

/-- **A smooth expression is differentiated into its partial derivative**, which is smooth. -/
theorem Smooth.differentiates (he : ρ "e" = Real.exp 1) (h : Smooth ρ derived e) (name : String) :
    Differentiates ρ name e := by
  induction h with
  | num _ => exact ⟨_, derive_leaf.1 _, .of_not_mentions rfl⟩
  | sym s =>
    refine ⟨_, derive_leaf.2 s, ?_⟩
    split_ifs with hs
    · exact hs ▸ .sym
    · exact .of_not_mentions (by simpa [mentions] using hs)
  | call hf hu hx ih =>
    obtain ⟨du, hdu, hpartial⟩ := ih
    exact ⟨_, derive_call_iff.mpr ⟨_, _, du, rfl, hf, hdu, rfl⟩, hpartial.call hf hu hx⟩
  | add _ _ ihu ihv => exact ihu.operation ihv nofun .add
  | sub _ _ ihu ihv => exact ihu.operation ihv nofun .sub
  | mul hu hv ihu ihv =>
    exact ihu.operation ihv nofun fun hdu hdv => hdu.mul hdv hu.weaken hv.weaken
  | div hu hv hne ihu ihv =>
    exact ihu.operation ihv nofun fun hdu hdv => hdu.div hdv hu.weaken hv hne
  | @positive _ u v hu hv hpos ihu ihv =>
    cases hmentions : v.mentions name with
    | true =>
      exact ihu.operation ihv (fun _ => hmentions) fun hdu hdv =>
        hdu.exponential hdv hu hv hpos he
    | false => exact ihu.power hmentions (.positive hu hv hpos)
  | integer hu hx hn hne ihu => exact ihu.power rfl (.integer hu hx hn hne)
  | third hu hx hthird hne ihu => exact ihu.power rfl (.third hu hx hthird hne)
  | natural hu hx hn ihu => exact ihu.power rfl (.natural hu hx hn)

end Exact

end DensityKernel.Expr
