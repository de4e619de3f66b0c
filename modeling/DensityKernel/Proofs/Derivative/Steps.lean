import DensityKernel.Expr.Derivative
import DensityKernel.Proofs.Outcome

/-!
What a successful differentiation has done, one statement for each shape of
expression. Everything that is proved about derivatives goes through these
statements and not through the definition of `derive`.
-/

namespace DensityKernel.Expr

variable {K : Type} [Literal K]

/-- The rule of an operation whose operands are both differentiated. -/
def operationDerivative : Operator → (u v du dv : Expr K) → Expr K
  | .add, _, _, du, dv => plus du dv
  | .sub, _, _, du, dv => minus du dv
  | .mul, u, v, du, dv => productDerivative u v du dv
  | .div, u, v, du, dv => quotientDerivative u v du dv
  | .pow, u, v, du, dv => exponentialDerivative u v du dv

variable {name : String} {u v d : Expr K}

/-- A number and a symbol are differentiated without fail. -/
theorem derive_leaf :
    (∀ x : K, derive name (.num x) = .ok zero) ∧
      ∀ s, derive name (.sym s : Expr K) = .ok (if s = name then one else zero) :=
  ⟨fun x => by rw [derive], fun s => by rw [derive]⟩

/-- The derivative of an operation: either both operands are differentiated, or
the exponent of a power does not mention the variable and is left alone. -/
theorem derive_binary_iff {op : Operator} :
    derive name (.binary op u v) = .ok d ↔
      (∃ du dv, derive name u = .ok du ∧ derive name v = .ok dv ∧
          (op = .pow → v.mentions name = true) ∧ d = operationDerivative op u v du dv) ∨
        (op = .pow ∧ v.mentions name = false ∧
          ∃ du, derive name u = .ok du ∧ d = powerDerivative u v du) := by
  have hboth : ∀ {rule : Expr K → Expr K → Expr K},
      ((do let du ← derive name u; let dv ← derive name v; .ok (rule du dv)) : Except Error _)
          = .ok d ↔
        ∃ du dv, derive name u = .ok du ∧ derive name v = .ok dv ∧ d = rule du dv := by
    intro rule
    simp only [bind_eq_ok_iff, Except.ok.injEq]
    constructor
    · rintro ⟨du, hu, dv, hv, rfl⟩
      exact ⟨du, dv, hu, hv, rfl⟩
    · rintro ⟨du, dv, hu, hv, rfl⟩
      exact ⟨du, hu, dv, hv, rfl⟩
  cases op with
  | add | sub | mul | div => simp [derive, hboth, operationDerivative]
  | pow =>
    cases hv : v.mentions name with
    | true => simp [derive, hboth, operationDerivative, hv]
    | false =>
      rw [derive, hv, if_neg (by simp), bind_eq_ok_iff]
      constructor
      · rintro ⟨du, hu, h⟩
        exact .inr ⟨rfl, rfl, du, hu, (Except.ok.inj h).symm⟩
      · rintro (⟨-, -, -, -, h, -⟩ | ⟨-, -, du, hu, rfl⟩)
        · exact absurd (h rfl) (by simp)
        · exact ⟨du, hu, rfl⟩

/-- A call is differentiated when it is registered with one argument and the
argument is differentiated: the chain rule, or zero for a literal zero. -/
theorem derive_call_iff {f : String} {args : List (Expr K)} :
    derive name (.call f args) = .ok d ↔
      ∃ g u du, args = [u] ∧ Elementary.lookup? f 1 = some g ∧ derive name u = .ok du ∧
        d = if du.isZero then zero else times (g.slope u) du := by
  have harity : ∀ {n g}, Elementary.lookup? f n = some g → n = 1 := by
    intro n g h
    by_cases hn : n = 1
    · exact hn
    · simp [Elementary.lookup?, hn] at h
  constructor
  · intro h
    cases hg : Elementary.lookup? f args.length with
    | none => simp [derive, hg] at h
    | some g =>
      obtain ⟨u, rfl⟩ := List.length_eq_one_iff.mp (harity hg)
      simp only [derive, hg, deriveArgs, bind_eq_ok_iff, Except.ok.injEq] at h
      obtain ⟨_, ⟨du, hu, _, rfl, rfl⟩, rfl⟩ := h
      exact ⟨g, u, du, rfl, hg, hu, by simp [callDerivative]⟩
  · rintro ⟨g, u, du, rfl, hg, hu, rfl⟩
    have hargs : deriveArgs name [u] = .ok [du] := by
      simp only [deriveArgs, bind_eq_ok_iff, Except.ok.injEq]
      exact ⟨du, hu, [], rfl, rfl⟩
    simp only [derive, List.length_singleton, hg, hargs, bind_eq_ok_iff, Except.ok.injEq]
    exact ⟨[du], rfl, by simp [callDerivative]⟩

end DensityKernel.Expr
