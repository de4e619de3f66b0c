import DensityKernel.Expr.Evaluation
import DensityKernel.Proofs.Reals.Meaning
import DensityKernel.Proofs.Reals.Power

/-!
Readings of expressions. A reading says which expressions have a value and what
it is. Two come up: the usual one, and one in which powers of negative numbers
are read through the cube root. Normal forms are right under both, because they
only rely on what is said here: sums, products and quotients are those of the
real numbers, and so are powers of numbers that are not negative and powers with
integers as exponents; for other powers it is enough that exponents of one base
are added.
-/

namespace DensityKernel

open DensityKernel.Literal

/-- Which expressions have a value, and what the value is. -/
structure Reading (K : Type) [Literal K] [Exact K] where
  symbol : String → ℝ
  value : Expr K → ℝ
  Defined : Expr K → Prop
  value_num : ∀ {x : K}, value (.num x) = real x
  value_sym : ∀ {name : String}, value (.sym name) = symbol name
  value_call : ∀ {name : String} {f : Elementary} {u : Expr K},
    Elementary.lookup? name 1 = some f → value (.call name [u]) = f.onReal (value u)
  value_add : ∀ {u v : Expr K}, value (.add u v) = value u + value v
  value_sub : ∀ {u v : Expr K}, value (.sub u v) = value u - value v
  value_mul : ∀ {u v : Expr K}, value (.mul u v) = value u * value v
  value_div : ∀ {u v : Expr K}, value (.div u v) = value u / value v
  value_pow_of_nonneg : ∀ {u v : Expr K}, 0 ≤ value u → value (.pow u v) = value u ^ value v
  value_pow_of_int : ∀ {u v : Expr K} {n : ℤ}, value v = n → value (.pow u v) = value u ^ (n : ℝ)
  defined_num : ∀ {x : K}, Defined (.num x) ↔ isFinite x = true
  /-- A call has one argument, in the domain of the function. -/
  defined_call : ∀ {name : String} {args : List (Expr K)}, Defined (.call name args) →
    ∃ f u, args = [u] ∧ Elementary.lookup? name 1 = some f ∧ Defined u ∧ f.DefinedAt (value u)
  defined_add : ∀ {u v : Expr K}, Defined (.add u v) ↔ Defined u ∧ Defined v
  defined_sub : ∀ {u v : Expr K}, Defined (.sub u v) ↔ Defined u ∧ Defined v
  defined_mul : ∀ {u v : Expr K}, Defined (.mul u v) ↔ Defined u ∧ Defined v
  /-- A denominator is not zero, and it has an inverse as a power. -/
  defined_div : ∀ {u v : Expr K}, Defined (.div u v) →
    Defined u ∧ Defined v ∧ value v ≠ 0 ∧ Defined (.pow v (.num minusOne))
  defined_pow : ∀ {u v : Expr K}, Defined (.pow u v) → Defined u ∧ Defined v
  defined_pow_one : ∀ {u : Expr K}, Defined u → Defined (.pow u (.num one))
  /-- Exponents of one base are added. -/
  pow_add : ∀ {u : Expr K} {m n : K}, Defined (.pow u (.num m)) → Defined (.pow u (.num n)) →
    Defined (.pow u (.num (m + n))) ∧
      value (.pow u (.num (m + n))) = value (.pow u (.num m)) * value (.pow u (.num n))
  /-- A power of two literals that is finite is that power. -/
  real_pow : ∀ {x y : K}, Defined (.pow (.num x) (.num y)) → isFinite (Literal.pow x y) = true →
    real (Literal.pow x y) = value (.pow (.num x) (.num y))

namespace Reading

open DensityKernel.Expr

variable {K : Type} [Literal K] [Exact K] (R : Reading K) {u v w : Expr K}

/-! ### Literals zero and one -/

theorem value_zero : R.value zero = 0 :=
  R.value_num.trans real_zero

theorem value_one : R.value one = 1 :=
  R.value_num.trans real_one

theorem value_negate : R.value u.negate = -R.value u := by
  rw [negate, R.value_mul, R.value_num, real_minusOne, neg_one_mul]

theorem defined_zero : R.Defined zero :=
  R.defined_num.mpr isFinite_zero

theorem defined_one : R.Defined one :=
  R.defined_num.mpr isFinite_one

theorem defined_negate : R.Defined u.negate ↔ R.Defined u := by
  simp [negate, R.defined_mul, R.defined_num]

theorem value_of_isZero (h : u.isZero = true) : R.value u = 0 := by
  obtain ⟨x, rfl, hx⟩ := eq_num_of_isZero h
  exact R.value_num.trans (isZero_iff.mp hx).2

theorem value_of_isOne (h : u.isOne = true) : R.value u = 1 := by
  obtain ⟨x, rfl, hx⟩ := eq_num_of_isOne h
  exact R.value_num.trans (isOne_iff.mp hx).2

/-! ### Powers -/

theorem value_pow_one (hv : R.value v = 1) : R.value (pow u v) = R.value u := by
  rw [R.value_pow_of_int (n := 1) (by rw [hv, Int.cast_one]), Int.cast_one, Real.rpow_one]

theorem value_pow_zero (hv : R.value v = 0) : R.value (pow u v) = 1 := by
  rw [R.value_pow_of_int (n := 0) (by rw [hv, Int.cast_zero]), Int.cast_zero, Real.rpow_zero]

theorem value_one_pow (hu : R.value u = 1) : R.value (pow u v) = 1 := by
  rw [R.value_pow_of_nonneg (hu ▸ zero_le_one), hu, Real.one_rpow]

theorem value_inverse : R.value (pow u (num minusOne)) = (R.value u)⁻¹ := by
  have hminusOne : R.value (num minusOne) = ((-1 : ℤ) : ℝ) := by
    rw [R.value_num, real_minusOne, Int.cast_neg, Int.cast_one]
  rw [R.value_pow_of_int hminusOne, Real.rpow_intCast, zpow_neg_one]

/-! ### Refinement -/

/-- Where the first expression is defined the second is too, with the same value. -/
def RefinedBy (u v : Expr K) : Prop :=
  R.Defined u → R.Defined v ∧ R.value v = R.value u

variable {R}

theorem RefinedBy.refl (u : Expr K) : R.RefinedBy u u := fun h => ⟨h, rfl⟩

theorem RefinedBy.trans (huv : R.RefinedBy u v) (hvw : R.RefinedBy v w) : R.RefinedBy u w := by
  intro hu
  obtain ⟨hv, hvalue⟩ := huv hu
  obtain ⟨hw, hvalue'⟩ := hvw hv
  exact ⟨hw, hvalue'.trans hvalue⟩

end Reading

/-- The usual reading at an assignment of the symbols. -/
noncomputable def Reading.usual {K : Type} [Literal K] [Exact K] (ρ : String → ℝ) : Reading K where
  symbol := ρ
  value := Expr.value (.usual ρ)
  Defined := Expr.Defined ρ
  value_num := rfl
  value_sym := rfl
  value_call h := Expr.value_call h
  value_add := rfl
  value_sub := rfl
  value_mul := rfl
  value_div := rfl
  value_pow_of_nonneg _ := rfl
  value_pow_of_int h := congrArg (_ ^ ·) h
  defined_num := Iff.rfl
  defined_call h := Expr.defined_call_iff.mp h
  defined_add := Expr.defined_add
  defined_sub := Expr.defined_sub
  defined_mul := Expr.defined_mul
  defined_div h := by
    refine ⟨h.1, h.2.1, h.2.2, h.2.1, isFinite_minusOne, ?_⟩
    rw [Operator.DefinedAt, Expr.value_num, real_minusOne]
    exact .exponent_minusOne h.2.2
  defined_pow h := ⟨h.1, h.2.1⟩
  defined_pow_one h := by
    refine ⟨h, isFinite_one, ?_⟩
    rw [Operator.DefinedAt, Expr.value_num, real_one]
    exact .exponent_one
  pow_add hm hn := by
    obtain ⟨hbase, hfm, hpm⟩ := hm
    obtain ⟨-, hfn, hpn⟩ := hn
    obtain ⟨hfinite, hreal⟩ := Exact.add_spec hfm hfn
    refine ⟨⟨hbase, hfinite, ?_⟩, ?_⟩
    · rw [Operator.DefinedAt, Expr.value_num, hreal]
      exact hpm.add hpn
    · rw [Expr.value_pow, Expr.value_num, hreal]
      exact hpm.rpow_add hpn
  real_pow h _ := (Exact.pow_spec h.1 h.2.1 h.2.2).2

namespace Reading

variable {K : Type} [Literal K] [Exact K] {ρ : String → ℝ}

@[simp] theorem value_usual (e : Expr K) : (usual ρ).value e = e.value (.usual ρ) := rfl

/-- Refinement goes through a call. -/
theorem refinedBy_call {name : String} {args args' : List (Expr K)}
    (h : List.Forall₂ (usual ρ).RefinedBy args args') :
    (usual ρ).RefinedBy (.call name args) (.call name args') := by
  intro hdefined
  obtain ⟨f, u, rfl, hf, hu, hdomain⟩ := Expr.defined_call_iff.mp hdefined
  obtain ⟨u', args', huu', hnil, rfl⟩ := List.forall₂_cons_left_iff.mp h
  obtain rfl := List.forall₂_nil_left_iff.mp hnil
  obtain ⟨hu', hvalue⟩ := huu' hu
  refine ⟨Expr.defined_call_iff.mpr ⟨f, u', rfl, hf, hu', ?_⟩, ?_⟩
  · rwa [← value_usual, hvalue]
  · rw [value_call _ hf, value_call _ hf, hvalue]

/-- Refinement goes through an operation. -/
theorem refinedBy_binary {op : Operator} {u u' v v' : Expr K} (hu : (usual ρ).RefinedBy u u')
    (hv : (usual ρ).RefinedBy v v') :
    (usual ρ).RefinedBy (.binary op u v) (.binary op u' v') := by
  rintro ⟨hdu, hdv, hop⟩
  obtain ⟨hdu', hvalueu⟩ := hu hdu
  obtain ⟨hdv', hvaluev⟩ := hv hdv
  rw [value_usual, value_usual] at hvalueu hvaluev
  refine ⟨⟨hdu', hdv', by rwa [hvalueu, hvaluev]⟩, ?_⟩
  rw [value_usual, value_usual, Expr.value, Expr.value, hvalueu, hvaluev]

end Reading

end DensityKernel
