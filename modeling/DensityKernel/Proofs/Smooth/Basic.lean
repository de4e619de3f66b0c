import DensityKernel.Proofs.Derivative.Regular
import DensityKernel.Proofs.Reals.RootPower

/-!
Smooth points. At a regular point an expression is smooth, and so are its
derivatives, but their formulas need not have a value there: that of a cube root
has none at a negative argument. With powers read through the cube root they
do. `Smooth` describes the expressions that come up: those that are regular,
and with a flag the derivatives of such, where an exponent may be a third of an
integer if the base is regular and not zero, and a natural number in any case.
-/

namespace DensityKernel

open DensityKernel.Literal Filter Topology

/-- The operation on real numbers, with powers through the cube root. -/
noncomputable def Operator.onRoots : Operator → ℝ → ℝ → ℝ
  | .pow => rootPower
  | op => op.onReals

namespace Expr

variable {K : Type} [Literal K] [Valued K]

mutual

/-- The value at an assignment of the symbols, with powers through the cube root. -/
noncomputable def rootValue (ρ : String → ℝ) : Expr K → ℝ
  | .num x => real x
  | .sym name => ρ name
  | .call name args => usualFunction name (rootValues ρ args)
  | .binary op u v => op.onRoots (u.rootValue ρ) (v.rootValue ρ)

noncomputable def rootValues (ρ : String → ℝ) : List (Expr K) → List ℝ
  | [] => []
  | a :: args => a.rootValue ρ :: rootValues ρ args

end

/-- An expression that is regular, or with the flag one that derivatives of regular expressions
are built from. -/
inductive Smooth (ρ : String → ℝ) : Bool → Expr K → Prop
  | num {derived : Bool} {x : K} : isFinite x = true → Smooth ρ derived (.num x)
  | sym {derived : Bool} (name : String) : Smooth ρ derived (.sym name)
  | call {derived : Bool} {name : String} {f : Elementary} {u : Expr K} :
    Elementary.lookup? name 1 = some f → Smooth ρ false u → f.RegularAt (u.rootValue ρ) →
      Smooth ρ derived (.call name [u])
  | add {derived : Bool} {u v : Expr K} :
    Smooth ρ derived u → Smooth ρ derived v → Smooth ρ derived (.add u v)
  | sub {derived : Bool} {u v : Expr K} :
    Smooth ρ derived u → Smooth ρ derived v → Smooth ρ derived (.sub u v)
  | mul {derived : Bool} {u v : Expr K} :
    Smooth ρ derived u → Smooth ρ derived v → Smooth ρ derived (.mul u v)
  | div {derived : Bool} {u v : Expr K} :
    Smooth ρ derived u → Smooth ρ false v → v.rootValue ρ ≠ 0 → Smooth ρ derived (.div u v)
  | positive {derived : Bool} {u v : Expr K} :
    Smooth ρ false u → Smooth ρ false v → 0 < u.rootValue ρ → Smooth ρ derived (.pow u v)
  | integer {derived : Bool} {u : Expr K} {x : K} {n : ℤ} :
    Smooth ρ false u → isFinite x = true → real x = n → (n < 0 → u.rootValue ρ ≠ 0) →
      Smooth ρ derived (.pow u (.num x))
  | third {u : Expr K} {x : K} :
    Smooth ρ false u → isFinite x = true → Third (real x) → u.rootValue ρ ≠ 0 →
      Smooth ρ true (.pow u (.num x))
  | natural {u : Expr K} {x : K} {n : ℕ} :
    Smooth ρ true u → isFinite x = true → real x = n → Smooth ρ true (.pow u (.num x))

variable {ρ : String → ℝ} {derived : Bool} {u v e : Expr K}

/-! ### Values -/

section Values

@[simp] theorem rootValue_num (x : K) : (num x).rootValue ρ = real x := rfl

@[simp] theorem rootValue_sym (name : String) : (sym name : Expr K).rootValue ρ = ρ name := rfl

@[simp] theorem rootValue_add : (add u v).rootValue ρ = u.rootValue ρ + v.rootValue ρ := rfl

@[simp] theorem rootValue_sub : (sub u v).rootValue ρ = u.rootValue ρ - v.rootValue ρ := rfl

@[simp] theorem rootValue_mul : (mul u v).rootValue ρ = u.rootValue ρ * v.rootValue ρ := rfl

@[simp] theorem rootValue_div : (div u v).rootValue ρ = u.rootValue ρ / v.rootValue ρ := rfl

@[simp] theorem rootValue_pow :
    (pow u v).rootValue ρ = rootPower (u.rootValue ρ) (v.rootValue ρ) := rfl

@[simp] theorem rootValue_zero : (zero : Expr K).rootValue ρ = 0 := real_zero

@[simp] theorem rootValue_one : (one : Expr K).rootValue ρ = 1 := real_one

theorem rootValue_call {name : String} {f : Elementary} (h : Elementary.lookup? name 1 = some f) :
    (call name [u]).rootValue ρ = f.onReal (u.rootValue ρ) :=
  usualFunction_of_lookup h

theorem rootValue_of_isZero (h : u.isZero = true) : u.rootValue ρ = 0 := by
  obtain ⟨x, rfl, hx⟩ := eq_num_of_isZero h
  exact (isZero_iff.mp hx).2

theorem rootValue_of_isOne (h : u.isOne = true) : u.rootValue ρ = 1 := by
  obtain ⟨x, rfl, hx⟩ := eq_num_of_isOne h
  exact (isOne_iff.mp hx).2

/-- **Where an expression has a value, it is the same through cube roots.** -/
theorem rootValue_of_defined (h : e.Defined ρ) : e.rootValue ρ = e.value (.usual ρ) := by
  induction e with
  | num x => rfl
  | sym name => rfl
  | call name args ih =>
    obtain ⟨f, u, rfl, hlookup, hu, -⟩ := defined_call_iff.mp h
    rw [rootValue_call hlookup, value_call hlookup, ih u List.mem_cons_self hu]
  | binary op u v ihu ihv =>
    obtain ⟨hu, hv, hop⟩ := h
    rw [rootValue, value, ihu hu, ihv hv]
    cases op with
    | add | sub | mul | div => rfl
    | pow => exact rootPower_of_powerDefined hop

end Values

/-! ### Smooth expressions -/

namespace Smooth

@[simp] theorem zero : Smooth ρ derived (Expr.zero : Expr K) :=
  .num isFinite_zero

@[simp] theorem one : Smooth ρ derived (Expr.one : Expr K) :=
  .num isFinite_one

theorem num_iff {x : K} : Smooth ρ derived (.num x) ↔ isFinite x = true := by
  constructor
  · intro h
    cases h with
    | num hx => exact hx
  · exact .num

theorem add_iff : Smooth ρ derived (.add u v) ↔ Smooth ρ derived u ∧ Smooth ρ derived v := by
  constructor
  · intro h
    cases h with
    | add hu hv => exact ⟨hu, hv⟩
  · rintro ⟨hu, hv⟩
    exact .add hu hv

theorem sub_iff : Smooth ρ derived (.sub u v) ↔ Smooth ρ derived u ∧ Smooth ρ derived v := by
  constructor
  · intro h
    cases h with
    | sub hu hv => exact ⟨hu, hv⟩
  · rintro ⟨hu, hv⟩
    exact .sub hu hv

theorem mul_iff : Smooth ρ derived (.mul u v) ↔ Smooth ρ derived u ∧ Smooth ρ derived v := by
  constructor
  · intro h
    cases h with
    | mul hu hv => exact ⟨hu, hv⟩
  · rintro ⟨hu, hv⟩
    exact .mul hu hv

/-- A regular expression may take part in a derivative. -/
theorem weaken (h : Smooth ρ derived e) : Smooth ρ true e := by
  induction h with
  | num hx => exact .num hx
  | sym name => exact .sym name
  | call hf hu hx _ => exact .call hf hu hx
  | add _ _ hu hv => exact .add hu hv
  | sub _ _ hu hv => exact .sub hu hv
  | mul _ _ hu hv => exact .mul hu hv
  | div _ hv hne hu _ => exact .div hu hv hne
  | positive hu hv hpos => exact .positive hu hv hpos
  | integer hu hx hn hne => exact .integer hu hx hn hne
  | third hu hx hthird hne => exact .third hu hx hthird hne
  | natural hu hx hn => exact .natural hu hx hn

theorem of_false (h : Smooth ρ false e) : Smooth ρ derived e := by
  cases derived with
  | false => exact h
  | true => exact h.weaken

end Smooth

/-- **A regular expression is smooth.** -/
theorem Regular.smooth (h : e.Regular ρ) : Smooth ρ derived e := by
  induction e generalizing derived with
  | num x => exact .num h
  | sym name => exact .sym name
  | call name args ih =>
    obtain ⟨f, u, rfl, hlookup, hu, hx⟩ := regular_call_iff.mp h
    refine .call hlookup (ih u List.mem_cons_self hu) ?_
    rwa [rootValue_of_defined hu.defined]
  | binary op u v ihu ihv =>
    obtain ⟨hu, hv, hop⟩ := h
    have hvalue : u.rootValue ρ = u.value (.usual ρ) := rootValue_of_defined hu.defined
    cases op with
    | add => exact .add (ihu hu) (ihv hv)
    | sub => exact .sub (ihu hu) (ihv hv)
    | mul => exact .mul (ihu hu) (ihv hv)
    | div =>
      refine .div (ihu hu) (ihv hv) ?_
      rwa [rootValue_of_defined hv.defined]
    | pow =>
      rcases hop with hpos | ⟨x, n, rfl, hx, hn⟩
      · exact .positive (ihu hu) (ihv hv) (hvalue ▸ hpos)
      · exact .integer (ihu hu) hv hx (hvalue ▸ hn)

/-- **Without the flag, a smooth expression is regular.** The kinds of powers that come up in
derivatives only are left out by it. -/
theorem Smooth.regular (h : Smooth ρ derived e) (hflag : derived = false) : e.Regular ρ := by
  induction h with
  | num hx => exact hx
  | sym name => trivial
  | call hf _ hx ihu =>
    have hu := ihu rfl
    rw [rootValue_of_defined hu.defined] at hx
    exact regular_call_iff.mpr ⟨_, _, rfl, hf, hu, hx⟩
  | add _ _ ihu ihv => exact ⟨ihu hflag, ihv hflag, trivial⟩
  | sub _ _ ihu ihv => exact ⟨ihu hflag, ihv hflag, trivial⟩
  | mul _ _ ihu ihv => exact ⟨ihu hflag, ihv hflag, trivial⟩
  | div _ _ hne ihu ihv =>
    have hv := ihv rfl
    rw [rootValue_of_defined hv.defined] at hne
    exact ⟨ihu hflag, hv, hne⟩
  | positive _ _ hpos ihu ihv =>
    have hu := ihu rfl
    rw [rootValue_of_defined hu.defined] at hpos
    exact ⟨hu, ihv rfl, .inl hpos⟩
  | integer _ hx hn hne ihu =>
    have hu := ihu rfl
    rw [rootValue_of_defined hu.defined] at hne
    exact ⟨hu, hx, .inr ⟨_, _, rfl, hn, hne⟩⟩
  | third | natural => cases hflag

/-! ### Continuity -/

theorem continuousAt_power {x : K} (hu : ContinuousAt (fun σ => u.rootValue σ) ρ)
    (hx : RootPowerRegular (u.rootValue ρ) (real x)) :
    ContinuousAt (fun σ => (pow u (.num x)).rootValue σ) ρ :=
  ContinuousAt.comp (f := fun σ => u.rootValue σ) (hasDerivAt_rootPower hx).continuousAt hu

/-- The value of a smooth expression is continuous in all symbols together. -/
theorem Smooth.continuousAt (h : Smooth ρ derived e) :
    ContinuousAt (fun σ => e.rootValue σ) ρ := by
  induction h with
  | num _ => exact continuousAt_const
  | sym name => exact continuousAt_apply name ρ
  | call hf _ hx hu =>
    simp only [rootValue_call hf]
    exact ContinuousAt.comp (f := fun σ => Expr.rootValue σ _)
      (Elementary.hasDerivAt_onReal hx).continuousAt hu
  | add _ _ hu hv => exact hu.add hv
  | sub _ _ hu hv => exact hu.sub hv
  | mul _ _ hu hv => exact hu.mul hv
  | div _ _ hne hu hv => exact hu.div hv hne
  | positive _ _ hpos hu hv =>
    refine (hu.rpow hv (.inl hpos.ne')).congr ?_
    filter_upwards [hu.eventually (lt_mem_nhds hpos)] with σ hσ
    exact (rootPower_of_nonneg hσ.le).symm
  | integer _ _ hn hne hu => exact continuousAt_power hu (hn ▸ .of_int hne)
  | third _ _ hthird hne hu => exact continuousAt_power hu (.inr (.inl ⟨hne, hthird⟩))
  | natural _ _ hn hu => exact continuousAt_power hu (.inr (.inr ⟨_, hn⟩))

/-- A base that a negative exponent needs to be other than zero is so nearby. -/
theorem Smooth.eventually_ne (h : Smooth ρ derived e) {n : ℤ} (hne : n < 0 → e.rootValue ρ ≠ 0) :
    ∀ᶠ σ in 𝓝 ρ, n < 0 → e.rootValue σ ≠ 0 := by
  by_cases hneg : n < 0
  · exact (h.continuousAt.eventually_ne (hne hneg)).mono fun _ hσ _ => hσ
  · exact .of_forall fun _ h => absurd h hneg

/-- Near a point at which an expression is smooth it is smooth. -/
theorem Smooth.eventually (h : Smooth ρ derived e) : ∀ᶠ σ in 𝓝 ρ, Smooth σ derived e := by
  induction h with
  | num hx => exact .of_forall fun _ => .num hx
  | sym name => exact .of_forall fun _ => .sym name
  | @call _ _ f _ hf hu hx ih =>
    filter_upwards [ih, hu.continuousAt.eventually (f.isOpen_regularAt.mem_nhds hx)] with σ hσ hxσ
    exact .call hf hσ hxσ
  | add _ _ ihu ihv =>
    filter_upwards [ihu, ihv] with σ hu hv
    exact .add hu hv
  | sub _ _ ihu ihv =>
    filter_upwards [ihu, ihv] with σ hu hv
    exact .sub hu hv
  | mul _ _ ihu ihv =>
    filter_upwards [ihu, ihv] with σ hu hv
    exact .mul hu hv
  | div _ hv hne ihu ihv =>
    filter_upwards [ihu, ihv, hv.continuousAt.eventually_ne hne] with σ hu hv hne
    exact .div hu hv hne
  | positive hu _ hpos ihu ihv =>
    filter_upwards [ihu, ihv, hu.continuousAt.eventually (lt_mem_nhds hpos)] with σ hu hv hpos
    exact .positive hu hv hpos
  | integer hu hx hn hne ihu =>
    filter_upwards [ihu, hu.eventually_ne hne] with σ hu hne
    exact .integer hu hx hn hne
  | third hu hx hthird hne ihu =>
    filter_upwards [ihu, hu.continuousAt.eventually_ne hne] with σ hu hne
    exact .third hu hx hthird hne
  | natural _ hx hn ihu =>
    filter_upwards [ihu] with σ hu
    exact .natural hu hx hn

/-- Near a regular point an expression is regular. -/
theorem Regular.eventually (h : e.Regular ρ) : ∀ᶠ σ in 𝓝 ρ, e.Regular σ := by
  have hsmooth : Smooth ρ false e := h.smooth
  exact hsmooth.eventually.mono fun σ hσ => hσ.regular rfl

end Expr

end DensityKernel
