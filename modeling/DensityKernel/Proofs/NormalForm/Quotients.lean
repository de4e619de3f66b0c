import DensityKernel.Literal.Double
import DensityKernel.Proofs.Expr.Hereditary
import DensityKernel.Proofs.NormalForm.Nodes
import DensityKernel.Proofs.NormalForm.Settling

/-!
Quotients in normal forms. Only a rule for quotients could leave one, and it leaves one
only over a literal whose reciprocal is not finite; no other rule makes a quotient
(`ClosedIn`), though one may give back an operand that is a quotient. So after a single
pass every quotient that is left is of that kind (`divisionFree_pass`), and it does not
matter which way a run of passes ends (`simplify_eliminates_quotients`).
-/

namespace DensityKernel

variable {K : Type}

/-! ### The quotients of an expression -/

namespace Expr

mutual

/-- All quotients, each as its numerator with its denominator. -/
def quotients : Expr K → List (Expr K × Expr K)
  | .num _ => []
  | .sym _ => []
  | .call _ args => quotientsArgs args
  | .binary op u v => (if op = .div then [(u, v)] else []) ++ (u.quotients ++ v.quotients)

def quotientsArgs : List (Expr K) → List (Expr K × Expr K)
  | [] => []
  | a :: args => a.quotients ++ quotientsArgs args

end

variable {name : String} {args : List (Expr K)} {op : Operator} {u v : Expr K}
  {q : Expr K × Expr K}

@[simp] theorem mem_quotients_call :
    q ∈ (call name args).quotients ↔ ∃ a ∈ args, q ∈ a.quotients := by
  rw [quotients]
  induction args with
  | nil => simp [quotientsArgs]
  | cons a args ih => rw [quotientsArgs, List.mem_append, ih, List.exists_mem_cons_iff]

@[simp] theorem mem_quotients_binary :
    q ∈ (binary op u v).quotients ↔
      (op = .div ∧ q = (u, v)) ∨ q ∈ u.quotients ∨ q ∈ v.quotients := by
  rw [quotients, List.mem_append, List.mem_append]
  split_ifs with hdiv <;> simp [hdiv]

end Expr

namespace NormalForm

open DensityKernel.Expr

variable [Literal K] {u v e r : Expr K}

/-- The only denominators that stay: literals without a finite reciprocal. -/
def Uninvertible (v : Expr K) : Prop :=
  ∃ n, v = .num n ∧ Literal.isFinite (Literal.one / n) = false

/-- No quotient is left, except over such a literal. -/
def DivisionFree (e : Expr K) : Prop :=
  ∀ q ∈ e.quotients, Uninvertible q.2

theorem divisionFree_call_iff {name : String} {args : List (Expr K)} :
    DivisionFree (.call name args) ↔ ∀ a ∈ args, DivisionFree a := by
  constructor
  · exact fun h a ha q hq => h q (mem_quotients_call.mpr ⟨a, ha, hq⟩)
  · intro h q hq
    obtain ⟨a, ha, hmem⟩ := mem_quotients_call.mp hq
    exact h a ha q hmem

theorem divisionFree_div_iff :
    DivisionFree (.div u v) ↔ Uninvertible v ∧ DivisionFree u ∧ DivisionFree v := by
  simp [DivisionFree, or_imp, forall_and]

theorem closedIn_divisionFree : ClosedIn (fun _ : K => True) DivisionFree where
  num := iff_of_true (List.forall_mem_nil _) trivial
  binary hop h q hq := by
    rcases mem_quotients_binary.mp hq with ⟨hdiv, -⟩ | hq | hq
    · exact absurd hdiv hop
    · exact h.1 q hq
    · exact h.2 q hq
  of_binary h :=
    ⟨fun q hq => h q (mem_quotients_binary.mpr (.inr (.inl hq))),
      fun q hq => h q (mem_quotients_binary.mpr (.inr (.inr hq)))⟩
  call _ hu := divisionFree_call_iff.mpr (List.forall_mem_singleton.mpr hu)
  of_call := divisionFree_call_iff.mp

/-! ### One quotient -/

/-- What a quotient becomes: a product with the reciprocal of a literal, or one with a power,
unless its value is a literal or its numerator. It stays as it is only over a literal without a
finite reciprocal. -/
inductive QuotientBecomes (u v : Expr K) : Expr K → Prop
  | literal {x y : K} (hu : u = .num x) (hv : v = .num y)
    (hfinite : Literal.isFinite (x / y) = true) : QuotientBecomes u v (.num (x / y))
  | numerator (hone : v.isOne = true) : QuotientBecomes u v u
  | zero (hu : u.isZero = true) (hv : v.isZero = false) : QuotientBecomes u v Expr.zero
  | reciprocal {n : K} (hv : v = .num n) (hfinite : Literal.isFinite (Literal.one / n) = true) :
    QuotientBecomes u v (.mul (.num (Literal.one / n)) u)
  | power (hv : v.literal? = none) (hone : u.isOne = false) :
    QuotientBecomes u v (.mul u (.pow v (.num Literal.minusOne)))
  | powerAlone (hv : v.literal? = none) (hone : u.isOne = true) :
    QuotientBecomes u v (.pow v (.num Literal.minusOne))
  | quotient (hv : Uninvertible v) : QuotientBecomes u v (.div u v)

theorem QuotientBecomes.divisionFree (h : QuotientBecomes u v e) (hu : DivisionFree u)
    (hv : DivisionFree v) : DivisionFree e := by
  have hnum : ∀ x : K, DivisionFree (.num x) := fun _ => List.forall_mem_nil _
  have hpower : DivisionFree (.pow v (.num Literal.minusOne)) :=
    closedIn_divisionFree.power hv trivial
  cases h with
  | literal | zero => exact hnum _
  | numerator => exact hu
  | reciprocal => exact closedIn_divisionFree.scaled trivial hu
  | power => exact closedIn_divisionFree.binary nofun ⟨hu, hpower⟩
  | powerAlone => exact hpower
  | quotient hstays => exact divisionFree_div_iff.mpr ⟨hstays, hu, hv⟩

/-- What is free of division is left alone by the rule for quotients. -/
theorem inverted_of_divisionFree (he : DivisionFree e) : inverted e = e := by
  cases e with
  | num | sym | call => rfl
  | binary op u v =>
    cases op with
    | add | sub | mul | pow => rfl
    | div =>
      obtain ⟨n, rfl, hinfinite⟩ := (divisionFree_div_iff.mp he).1
      rw [inverted, invertDenominator, hinfinite]
      rfl

theorem quotientBecomes_inverted (u v : Expr K) : QuotientBecomes u v (inverted (.div u v)) := by
  cases v with
  | num n =>
    rw [inverted, invertDenominator]
    cases hfinite : Literal.isFinite (Literal.one / n) with
    | true => exact .reciprocal rfl hfinite
    | false => exact .quotient ⟨n, rfl, hfinite⟩
  | sym | call | binary =>
    show QuotientBecomes u _ (if u.isOne then .pow _ _ else .mul u _)
    split_ifs with hone
    · exact .powerAlone rfl hone
    · exact .power rfl (Bool.eq_false_iff.mpr hone)

/-! ### Passes -/

omit [Literal K] in
/-- What every rule keeps is kept by rules that are tried one after the other. -/
theorem applyRules_keeps {p : Expr K → Prop} {rules : List (Expr K → Option (Expr K))}
    (hrules : ∀ rule ∈ rules, ∀ {e e'}, p e → rule e = some e' → p e') (he : p e) :
    p (applyRules rules e) := by
  induction rules generalizing e with
  | nil => exact he
  | cons rule rules ih =>
    obtain ⟨hrule, hrest⟩ := List.forall_mem_cons.mp hrules
    have hfirst : p ((rule e).getD e) := by
      cases happlied : rule e with
      | none => exact he
      | some e' => exact hrule he happlied
    exact ih hrest hfirst

variable [DecidableEq K] [Spelling K] {domain : Domain}

/-- **The rules for a quotient**, whose numerator they may give back. -/
theorem quotientBecomes_applyRules (hu : DivisionFree u) :
    QuotientBecomes u v (applyRules (rules domain .div) (.div u v)) := by
  rw [applyRules_div]
  rcases foldLiterals_cases .div u v with hnone | ⟨x, y, hx, hy, hfinite, hsome⟩
  · rw [hnone, Option.getD_none]
    split_ifs with hone hzero
    · rw [inverted_of_divisionFree hu]
      exact .numerator hone
    · rw [Bool.and_eq_true, Bool.not_eq_true'] at hzero
      exact .zero hzero.1 hzero.2
    · exact quotientBecomes_inverted u v
  · rw [hsome, Option.getD_some]
    exact .literal hx hy hfinite

/-- **After one pass** quotients are left only over literals without a finite reciprocal. -/
theorem divisionFree_pass (domain : Domain) (e : Expr K) : DivisionFree (pass domain e) := by
  have hrule : ∀ op, ∀ rule ∈ rules domain op, ∀ {e e' : Expr K}, DivisionFree e →
      rule e = some e' → DivisionFree e' := fun op rule hmem e e' he happlied =>
    (closedIn_divisionFree.rule supplied_all hmem he happlied).resolve_right not_leaves_all
  induction e with
  | num | sym => exact List.forall_mem_nil _
  | call name args ih =>
    have hargs : DivisionFree (.call name (passArgs domain args)) := by
      refine divisionFree_call_iff.mpr fun a' ha' => ?_
      obtain ⟨a, ha, rfl⟩ := mem_passArgs_iff.mp ha'
      exact ih a ha
    rw [pass_call]
    cases happlied : foldCall (.call name (passArgs domain args)) with
    | none => exact hargs
    | some e' => exact closedIn_divisionFree.foldCall supplied_all happlied
  | binary op u v ihu ihv =>
    rw [pass]
    by_cases hdiv : op = .div
    · subst hdiv
      exact (quotientBecomes_applyRules ihu).divisionFree ihu ihv
    · exact applyRules_keeps (hrule op) (closedIn_divisionFree.binary hdiv ⟨ihu, ihv⟩)

end NormalForm

open NormalForm

variable [Literal K] [DecidableEq K] [Spelling K]

/-- **Simplification eliminates quotients.** Wherever in a normal form there still is one, its
denominator is a literal whose reciprocal is not finite. Each pass turns every other quotient into
a product with the reciprocal of a literal or with a power, if it does not find its value to be a
literal or its numerator. -/
theorem Expr.simplify_eliminates_quotients (domain : Domain) (e : Expr K) :
    (∀ q ∈ (e.simplify domain).quotients,
      ∃ n, q.2 = .num n ∧ Literal.isFinite (Literal.one / n) = false) ∧
    ∀ u v : Expr K,
      QuotientBecomes (pass domain u) (pass domain v) (pass domain (.div u v)) := by
  refine ⟨settle_of_forall (divisionFree_pass domain) _ [] e, fun u v => ?_⟩
  rw [NormalForm.pass]
  exact quotientBecomes_applyRules (divisionFree_pass domain u)

/-- There are quotients that stay: zero has no finite reciprocal. -/
example : let e : Expr Double := .div (.sym "ra") (.num Literal.zero)
    e.simplify .densities = e := by
  decide +kernel

end DensityKernel
