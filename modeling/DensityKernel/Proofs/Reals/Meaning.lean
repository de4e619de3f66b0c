import DensityKernel.Expr.Basic
import DensityKernel.Proofs.Reals.Literal

/-!
The real value of an expression. Symbols and functions are interpreted by a
`Meaning`; `Meaning.usual` gives the registered functions their usual one. The
value is total, and `Defined` says where it is more than a convention: no
division by zero, no power without a value, and every call registered and
inside the domain of its function.
-/

namespace DensityKernel

/-- What the names in an expression stand for. -/
structure Meaning where
  symbol : String → ℝ
  function : String → List ℝ → ℝ

namespace Operator

/-- The operation on real numbers. -/
noncomputable def onReals : Operator → ℝ → ℝ → ℝ
  | .add => (· + ·)
  | .sub => (· - ·)
  | .mul => (· * ·)
  | .div => (· / ·)
  | .pow => (· ^ ·)

/-- The operation has a value. -/
def DefinedAt : Operator → ℝ → ℝ → Prop
  | .div, _, y => y ≠ 0
  | .pow, x, y => PowerDefined x y
  | _, _, _ => True

end Operator

/-- A call is registered, and its argument in the domain. -/
def CallDefined (name : String) (xs : List ℝ) : Prop :=
  ∃ f x, xs = [x] ∧ Elementary.lookup? name 1 = some f ∧ f.DefinedAt x

/-- The registered functions under their usual meaning; any other call is zero. -/
noncomputable def usualFunction (name : String) (xs : List ℝ) : ℝ :=
  match xs, Elementary.lookup? name xs.length with
  | [x], some f => f.onReal x
  | _, _ => 0

/-- The usual functions at an assignment of the symbols. -/
noncomputable def Meaning.usual (ρ : String → ℝ) : Meaning :=
  ⟨ρ, usualFunction⟩

@[simp] theorem Meaning.usual_symbol (ρ : String → ℝ) (name : String) :
    (Meaning.usual ρ).symbol name = ρ name := rfl

theorem usualFunction_of_lookup {name : String} {f : Elementary} {x : ℝ}
    (h : Elementary.lookup? name 1 = some f) : usualFunction name [x] = f.onReal x := by
  simp [usualFunction, h]

namespace Expr

open DensityKernel.Literal

variable {K : Type} [Literal K] [Valued K]

mutual

/-- The value under a meaning of the names. -/
noncomputable def value (M : Meaning) : Expr K → ℝ
  | .num x => real x
  | .sym name => M.symbol name
  | .call name args => M.function name (values M args)
  | .binary op u v => op.onReals (u.value M) (v.value M)

noncomputable def values (M : Meaning) : List (Expr K) → List ℝ
  | [] => []
  | a :: args => a.value M :: values M args

end

mutual

/-- The expression has a value at an assignment of the symbols. -/
def Defined (ρ : String → ℝ) : Expr K → Prop
  | .num x => isFinite x = true
  | .sym _ => True
  | .call name args => AllDefined ρ args ∧ CallDefined name (values (.usual ρ) args)
  | .binary op u v =>
    u.Defined ρ ∧ v.Defined ρ ∧ op.DefinedAt (u.value (.usual ρ)) (v.value (.usual ρ))

def AllDefined (ρ : String → ℝ) : List (Expr K) → Prop
  | [] => True
  | a :: args => a.Defined ρ ∧ AllDefined ρ args

end

/-! ### Values of the operations -/

section Values

variable {M : Meaning} {u v : Expr K}

@[simp] theorem value_num (x : K) : (num x).value M = real x := rfl

@[simp] theorem value_sym (name : String) : (sym name : Expr K).value M = M.symbol name := rfl

@[simp] theorem value_add : (add u v).value M = u.value M + v.value M := rfl

@[simp] theorem value_sub : (sub u v).value M = u.value M - v.value M := rfl

@[simp] theorem value_mul : (mul u v).value M = u.value M * v.value M := rfl

@[simp] theorem value_div : (div u v).value M = u.value M / v.value M := rfl

@[simp] theorem value_pow : (pow u v).value M = u.value M ^ v.value M := rfl

@[simp] theorem value_zero : (zero : Expr K).value M = 0 := real_zero

@[simp] theorem value_one : (one : Expr K).value M = 1 := real_one

@[simp] theorem value_negate : u.negate.value M = -u.value M := by
  simp [negate]

end Values

/-! ### Definedness of the operations -/

section Defined

variable {ρ : String → ℝ} {u v : Expr K}

@[simp] theorem defined_num {x : K} : (num x).Defined ρ ↔ isFinite x = true := Iff.rfl

@[simp] theorem defined_sym {name : String} : (sym name : Expr K).Defined ρ := trivial

@[simp] theorem defined_add : (add u v).Defined ρ ↔ u.Defined ρ ∧ v.Defined ρ :=
  ⟨fun h => ⟨h.1, h.2.1⟩, fun h => ⟨h.1, h.2, trivial⟩⟩

@[simp] theorem defined_sub : (sub u v).Defined ρ ↔ u.Defined ρ ∧ v.Defined ρ :=
  ⟨fun h => ⟨h.1, h.2.1⟩, fun h => ⟨h.1, h.2, trivial⟩⟩

@[simp] theorem defined_mul : (mul u v).Defined ρ ↔ u.Defined ρ ∧ v.Defined ρ :=
  ⟨fun h => ⟨h.1, h.2.1⟩, fun h => ⟨h.1, h.2, trivial⟩⟩

@[simp] theorem defined_div :
    (div u v).Defined ρ ↔ u.Defined ρ ∧ v.Defined ρ ∧ v.value (.usual ρ) ≠ 0 := Iff.rfl

@[simp] theorem defined_pow : (pow u v).Defined ρ ↔
    u.Defined ρ ∧ v.Defined ρ ∧ PowerDefined (u.value (.usual ρ)) (v.value (.usual ρ)) := Iff.rfl

@[simp] theorem defined_zero : (zero : Expr K).Defined ρ := isFinite_zero

@[simp] theorem defined_one : (one : Expr K).Defined ρ := isFinite_one

@[simp] theorem defined_negate : u.negate.Defined ρ ↔ u.Defined ρ := by
  simp [negate]

/-- A call has one argument, which is defined and in the domain of the function. -/
theorem defined_call_iff {name : String} {args : List (Expr K)} :
    (call name args).Defined ρ ↔
      ∃ f u, args = [u] ∧ Elementary.lookup? name 1 = some f ∧ u.Defined ρ ∧
        f.DefinedAt (u.value (.usual ρ)) := by
  constructor
  · rintro ⟨hargs, f, x, hvalues, hlookup, hx⟩
    match args, hvalues with
    | [u], hvalues =>
      obtain rfl : u.value (.usual ρ) = x := by simpa [values] using hvalues
      exact ⟨f, u, rfl, hlookup, hargs.1, hx⟩
  · rintro ⟨f, u, rfl, hlookup, hu, hx⟩
    exact ⟨⟨hu, trivial⟩, f, _, rfl, hlookup, hx⟩

theorem value_call {name : String} {f : Elementary} (h : Elementary.lookup? name 1 = some f) :
    (call name [u]).value (.usual ρ) = f.onReal (u.value (.usual ρ)) :=
  usualFunction_of_lookup h

end Defined

/-! ### Literals zero and one -/

section Literals

variable {M : Meaning} {ρ : String → ℝ} {u : Expr K}

omit [Valued K] in
theorem eq_num_of_isZero (h : u.isZero = true) : ∃ x, u = num x ∧ Literal.isZero x = true := by
  cases u with
  | num x => exact ⟨x, rfl, h⟩
  | sym | call | binary => exact absurd h (by simp [isZero])

omit [Valued K] in
theorem eq_num_of_isOne (h : u.isOne = true) : ∃ x, u = num x ∧ Literal.isOne x = true := by
  cases u with
  | num x => exact ⟨x, rfl, h⟩
  | sym | call | binary => exact absurd h (by simp [isOne])

@[simp] theorem isZero_one : (one : Expr K).isZero = false := by
  rw [one, isZero, Bool.eq_false_iff]
  intro h
  simpa using (isZero_iff.mp h).2

@[simp] theorem isOne_one : (one : Expr K).isOne = true :=
  isOne_iff.mpr ⟨isFinite_one, real_one⟩

theorem value_of_isZero (h : u.isZero = true) : u.value M = 0 := by
  obtain ⟨x, rfl, hx⟩ := eq_num_of_isZero h
  exact (isZero_iff.mp hx).2

theorem defined_of_isZero (h : u.isZero = true) : u.Defined ρ := by
  obtain ⟨x, rfl, hx⟩ := eq_num_of_isZero h
  exact (isZero_iff.mp hx).1

theorem defined_of_isOne (h : u.isOne = true) : u.Defined ρ := by
  obtain ⟨x, rfl, hx⟩ := eq_num_of_isOne h
  exact (isOne_iff.mp hx).1

end Literals

/-! ### Induction -/

/-- Induction over expressions: for a call, the statement holds of every argument. -/
@[elab_as_elim, induction_eliminator]
theorem induct {K : Type} {motive : Expr K → Prop} (num : ∀ x, motive (.num x))
    (sym : ∀ name, motive (.sym name))
    (call : ∀ name args, (∀ a ∈ args, motive a) → motive (.call name args))
    (binary : ∀ op u v, motive u → motive v → motive (.binary op u v)) (e : Expr K) : motive e :=
  Expr.rec (motive_1 := motive) (motive_2 := fun args => ∀ a ∈ args, motive a) num sym call binary
    (by simp) (fun _ _ ha hargs => List.forall_mem_cons.mpr ⟨ha, hargs⟩) e

end Expr

end DensityKernel
