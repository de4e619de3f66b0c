import DensityKernel.Proofs.C.Chain
import Mathlib.Algebra.BigOperators.Group.List.Basic
import Mathlib.Data.Option.NAry

/-!
When C groups a text as the expression is grouped. A divisor is written
without parentheses although its text may itself have a slash: this happens to
a reciprocal under a quotient, and to a quotient or a reciprocal of which the
reciprocal stands alone or is the only divisor of a product. A term in which
none of this occurs is `grouped`, and C reads in its text the value of the
expression (`value?_asRead`).
-/

namespace DensityKernel.C

open Literal

/-! ### Grouped terms -/

namespace Term

variable {K : Type}

/-- Its text has a slash outside of all parentheses, and gets none as a divisor. -/
def isQuotient : Term K → Bool
  | .quotient .. | .reciprocal .. => true
  | _ => false

/-- Whether a divisor is a root, and its base. -/
def divisor? : Term K → Option (Bool × Term K)
  | .reciprocal root base => some (root, base)
  | _ => none

/-- The divisor is no quotient that would be taken apart after a slash. -/
def staysWhole (root : Bool) (base : Term K) : Bool :=
  root || !base.isQuotient

/-- The only divisor of a product, if there is just one, is not taken apart;
several divisors have parentheses around them. -/
def divisorsStayWhole (fs : List (Term K)) : Bool :=
  match fs.filterMap divisor? with
  | [(root, base)] => staysWhole root base
  | _ => true

mutual

/-- C takes no divisor apart. -/
def grouped : Term K → Bool
  | .literal _ | .symbol _ => true
  | .call _ args => allGrouped args
  | .sum u v | .difference u v | .power u v => u.grouped && v.grouped
  | .quotient u v => u.grouped && v.grouped && !v.isDivisor
  | .reciprocal root base => base.grouped && staysWhole root base
  | .product fs => factorsGrouped fs && divisorsStayWhole fs

def allGrouped : List (Term K) → Bool
  | [] => true
  | a :: args => a.grouped && allGrouped args

/-- The factors of a product are grouped, and so are the bases of its divisors. -/
def factorsGrouped : List (Term K) → Bool
  | [] => true
  | .reciprocal _ base :: fs => base.grouped && factorsGrouped fs
  | f :: fs => f.grouped && factorsGrouped fs

end

end Term

/-! ### Products of values that may be missing -/

section Outcomes

/-- A product has a value if all its factors have one. -/
noncomputable local instance productMonoid : CommMonoid (Option ℝ) where
  mul := Option.map₂ (· * ·)
  one := some 1
  mul_assoc _ _ _ := Option.map₂_assoc mul_assoc
  mul_comm _ _ := Option.map₂_comm mul_comm
  one_mul x := by
    show Option.map₂ (· * ·) (some 1) x = x
    cases x <;> simp
  mul_one x := by
    show Option.map₂ (· * ·) x (some 1) = x
    cases x <;> simp

/-- One over a value, if that is not zero. -/
noncomputable def inverse? (y : Option ℝ) : Option ℝ :=
  y.bind (Operator.div.result? 1)

theorem inverse?_zero : inverse? (some 0) = none :=
  result?_div_zero

theorem inverse?_some {y : ℝ} (hy : y ≠ 0) : inverse? (some y) = some y⁻¹ :=
  (result?_div hy).trans (congrArg some (one_div y))

theorem bind_times (x y : Option ℝ) :
    (x.bind fun a => y.bind (Joint.times.operator.result? a)) = x * y := by
  cases x with
  | none => rfl
  | some a =>
    cases y with
    | none => rfl
    | some b => exact if_pos trivial

theorem bind_divided (x y : Option ℝ) :
    (x.bind fun a => y.bind (Joint.divided.operator.result? a)) = x * inverse? y := by
  cases x with
  | none => rfl
  | some a =>
    cases y with
    | none => rfl
    | some b =>
      show Operator.div.result? a b = some a * inverse? (some b)
      by_cases hb : b = 0
      · rw [hb, result?_div_zero, inverse?_zero]
        rfl
      · rw [result?_div hb, inverse?_some hb, div_eq_mul_inv]
        rfl

theorem inverse?_one : inverse? 1 = 1 :=
  (inverse?_some one_ne_zero).trans (congrArg some inv_one)

theorem inverse?_mul (x y : Option ℝ) : inverse? (x * y) = inverse? x * inverse? y := by
  cases x with
  | none => rfl
  | some a =>
    cases y with
    | none =>
      show none = inverse? (some a) * none
      rw [mul_comm]
      rfl
    | some b =>
      show inverse? (some (a * b)) = _
      by_cases ha : a = 0
      · rw [ha, zero_mul, inverse?_zero]
        rfl
      · by_cases hb : b = 0
        · rw [hb, mul_zero, inverse?_zero, mul_comm]
          rfl
        · rw [inverse?_some (mul_ne_zero ha hb), inverse?_some ha, inverse?_some hb, mul_inv]
          rfl

theorem map_neg (x : Option ℝ) : x.map (- ·) = some (-1) * x := by
  cases x with
  | none => rfl
  | some a => exact congrArg some (neg_one_mul a).symm

theorem inverse?_prod (l : List (Option ℝ)) : inverse? l.prod = (l.map inverse?).prod := by
  induction l with
  | nil => exact inverse?_one
  | cons x l ih => rw [List.prod_cons, inverse?_mul, ih, List.map_cons, List.prod_cons]

/-! ### Values of chains -/

variable {K : Type} [Literal K] [Valued K] {ρ : String → ℝ}

namespace Chain

variable {c d : Chain K} {cs ds : List (Chain K)}

theorem value?_times_step {head e : Expr K} {steps : List (Joint × Expr K)} :
    (Chain.mk head (steps ++ [(.times, e)])).expr.value? ρ =
      (Chain.mk head steps).expr.value? ρ * e.value? ρ := by
  rw [value?_step, bind_times]

theorem value?_divided_step {head e : Expr K} {steps : List (Joint × Expr K)} :
    (Chain.mk head (steps ++ [(.divided, e)])).expr.value? ρ =
      (Chain.mk head steps).expr.value? ρ * inverse? (e.value? ρ) := by
  rw [value?_step, bind_divided]

/-- A chain may stand after an asterisk as it is. -/
theorem value?_join_times :
    (c.join .times d).expr.value? ρ = c.expr.value? ρ * d.expr.value? ρ := by
  obtain ⟨head, steps⟩ := d
  induction steps using List.reverseRecOn with
  | nil => exact value?_times_step
  | append_singleton steps step ih =>
    have hjoin : c.join .times ⟨head, steps ++ [step]⟩ =
        ⟨c.head, (c.join .times ⟨head, steps⟩).steps ++ [step]⟩ := by
      simp [join]
    obtain ⟨j, e⟩ := step
    cases j with
    | times => rw [hjoin, value?_times_step, value?_times_step, ← mul_assoc, ← ih]; rfl
    | divided => rw [hjoin, value?_divided_step, value?_divided_step, ← mul_assoc, ← ih]; rfl

/-- After a slash only a single operand keeps its value. -/
theorem value?_join_divided (hd : d.steps = []) :
    (c.join .divided d).expr.value? ρ = c.expr.value? ρ * inverse? (d.expr.value? ρ) := by
  obtain ⟨head, steps⟩ := d
  obtain rfl : steps = [] := hd
  exact value?_divided_step

theorem value?_times : (c.times cs).expr.value? ρ =
    c.expr.value? ρ * (cs.map fun d => d.expr.value? ρ).prod := by
  induction cs generalizing c with
  | nil => exact (mul_one _).symm
  | cons d cs ih =>
    show ((c.join .times d).times cs).expr.value? ρ = _
    rw [ih, value?_join_times, List.map_cons, List.prod_cons, mul_assoc]

/-- The divisors of a product divide it by all their values. -/
theorem value?_dividedBy_divisor (h : ∀ d, ds = [d] → d.steps = []) :
    (c.dividedBy (divisor ds)).expr.value? ρ =
      c.expr.value? ρ * (ds.map fun d => inverse? (d.expr.value? ρ)).prod := by
  match ds, h with
  | [], _ => exact (mul_one _).symm
  | [d], h =>
    show (c.join .divided d).expr.value? ρ = _
    rw [value?_join_divided (h d rfl), List.map_singleton, List.prod_singleton]
  | d :: d' :: ds, _ =>
    show (c.join .divided (single (times d (d' :: ds)).expr)).expr.value? ρ = _
    rw [value?_join_divided rfl]
    show _ * inverse? ((times d (d' :: ds)).expr.value? ρ) = _
    rw [value?_times, ← List.prod_cons, inverse?_prod, List.map_cons, List.map_map]
    rfl

/-- The coefficient of a product, one if there is none. -/
noncomputable def coefficientValue (ρ : String → ℝ) : Option K → Option ℝ
  | none => 1
  | some x => (Expr.num x).value? ρ

theorem value?_front {coefficient : Option K} :
    (front coefficient cs).expr.value? ρ =
      coefficientValue ρ coefficient * (cs.map fun d => d.expr.value? ρ).prod := by
  cases cs with
  | nil =>
    cases coefficient with
    | none =>
      show (Expr.one : Expr K).value? ρ = 1 * 1
      rw [Expr.one, Expr.value?_num isFinite_one, real_one, mul_one]
      rfl
    | some x => exact (mul_one _).symm
  | cons c cs =>
    rw [List.map_cons, List.prod_cons]
    cases coefficient with
    | none => rw [front, value?_times, coefficientValue, one_mul]
    | some x =>
      rw [front, coefficientValue]
      split
      · next hone =>
        obtain ⟨hfinite, hreal⟩ := isOne_iff.mp hone
        rw [value?_times, Expr.value?_num hfinite, hreal]
        exact (one_mul _).symm
      · split
        · next hminus =>
          obtain ⟨hfinite, hreal⟩ := isMinusOne_iff.mp hminus
          have hnegate : (c.times cs).negate.expr.value? ρ = ((c.times cs).expr.value? ρ).map (- ·) :=
            value?_negated rfl Expr.value?_negate
          rw [hnegate, map_neg, value?_times, Expr.value?_num hfinite, hreal]
        · rw [value?_times, List.map_cons, List.prod_cons]
          rfl

end Chain

/-! ### Values of terms -/

namespace Term

/-- The value of a factor of a product; a divisor counts with its inverse. -/
noncomputable def factorValue (ρ : String → ℝ) : Term K → Option ℝ
  | .reciprocal root base => inverse? ((divisorChain root base base.chain).expr.value? ρ)
  | t => t.chain.expr.value? ρ

theorem factorValue_of_not_divisor {f : Term K} (h : f.isDivisor = false) :
    factorValue ρ f = f.chain.expr.value? ρ := by
  cases f with
  | reciprocal => exact absurd h Bool.noConfusion
  | literal | symbol | call | sum | difference | quotient | power | product => rfl

omit [Valued K] in
theorem divisorChains_of_not_divisor {f : Term K} {fs : List (Term K)} (h : f.isDivisor = false) :
    divisorChains (f :: fs) = divisorChains fs := by
  cases f with
  | reciprocal => exact absurd h Bool.noConfusion
  | literal | symbol | call | sum | difference | quotient | power | product => rfl

/-- The factors and the divisors of a product together are all its factors. -/
theorem prod_factorChains (fs : List (Term K)) :
    ((factorChains fs).map fun d => d.expr.value? ρ).prod *
        ((divisorChains fs).map fun d => inverse? (d.expr.value? ρ)).prod =
      (fs.map (factorValue ρ)).prod := by
  induction fs with
  | nil => exact mul_one _
  | cons f fs ih =>
    rw [List.map_cons, List.prod_cons, ← ih]
    cases hdivisor : f.isDivisor with
    | true =>
      cases f with
      | reciprocal root base => exact mul_left_comm _ _ _
      | literal | symbol | call | sum | difference | quotient | power | product =>
        exact absurd hdivisor Bool.noConfusion
    | false =>
      rw [factorChains, if_neg (Bool.eq_false_iff.mp hdivisor), List.map_cons, List.prod_cons,
        mul_assoc, divisorChains_of_not_divisor hdivisor, factorValue_of_not_divisor hdivisor,
        Chain.expr_enclosed]

/-- With the coefficient in front. -/
theorem prod_splitCoefficient (fs : List (Term K)) :
    Chain.coefficientValue ρ (splitCoefficient fs).1 *
        ((factorChains (splitCoefficient fs).2).map fun d => d.expr.value? ρ).prod *
        ((divisorChains fs).map fun d => inverse? (d.expr.value? ρ)).prod =
      (fs.map (factorValue ρ)).prod := by
  cases fs with
  | nil =>
    rw [mul_assoc]
    exact (one_mul _).trans (prod_factorChains [])
  | cons f fs =>
    rw [mul_assoc]
    cases f with
    | literal x =>
      show (Expr.num x).value? ρ * (((factorChains fs).map fun d => d.expr.value? ρ).prod *
        ((divisorChains fs).map fun d => inverse? (d.expr.value? ρ)).prod) = _
      rw [prod_factorChains]
      rfl
    | symbol | call | sum | difference | quotient | power | reciprocal | product =>
      exact (one_mul _).trans (prod_factorChains _)

omit [Valued K] in
/-- A divisor that stays whole is a single operand. -/
theorem divisorChain_steps {root : Bool} {base : Term K} (h : staysWhole root base = true) :
    (divisorChain root base base.chain).steps = [] := by
  cases root with
  | true => rfl
  | false =>
    cases base with
    | quotient | reciprocal => exact absurd h Bool.noConfusion
    | literal | symbol | call | sum | difference | power | product => rfl

omit [Valued K] in
theorem divisorChains_eq (fs : List (Term K)) : divisorChains fs =
    (fs.filterMap divisor?).map fun d => divisorChain d.1 d.2 d.2.chain := by
  induction fs with
  | nil => rfl
  | cons f fs ih =>
    cases f with
    | reciprocal root base => exact congrArg _ ih
    | literal | symbol | call | sum | difference | quotient | power | product => exact ih

theorem value?_chain_product {fs : List (Term K)} (h : divisorsStayWhole fs = true) :
    (product fs).chain.expr.value? ρ = (fs.map (factorValue ρ)).prod := by
  have hlone : ∀ d, divisorChains fs = [d] → d.steps = [] := by
    intro d hd
    rw [divisorChains_eq] at hd
    rw [divisorsStayWhole] at h
    obtain ⟨⟨root, base⟩, hdivisors, rfl⟩ := List.map_eq_singleton_iff.mp hd
    rw [hdivisors] at h
    exact divisorChain_steps h
  rw [chain_product, Chain.value?_dividedBy_divisor hlone, Chain.value?_front, prod_splitCoefficient]

omit [Valued K] in
theorem denominator_steps {v : Term K} (h : v.isDivisor = false) :
    (v.chain.enclosed v.enclosedAsDenominator).steps = [] := by
  cases v with
  | reciprocal => exact absurd h Bool.noConfusion
  | literal x =>
    rw [chain]
    cases (literal x).enclosedAsDenominator <;> rfl
  | symbol | call | sum | difference | quotient | power | product => rfl

theorem value?_chain_quotient {u v : Term K} (h : v.isDivisor = false) :
    (quotient u v).chain.expr.value? ρ =
      u.chain.expr.value? ρ * inverse? (v.chain.expr.value? ρ) := by
  rw [chain, Chain.value?_join_divided (denominator_steps h), Chain.expr_enclosed, Chain.expr_enclosed]

theorem value?_chain_reciprocal {root : Bool} {base : Term K} (h : staysWhole root base = true) :
    (reciprocal root base).chain.expr.value? ρ = factorValue ρ (.reciprocal root base) := by
  rw [chain, Chain.value?_join_divided (divisorChain_steps h)]
  show (Expr.one : Expr K).value? ρ * _ = _
  rw [Expr.one, Expr.value?_num isFinite_one, real_one]
  exact one_mul _

/-- The text of a grouped term has the product of the values of its factors. -/
theorem value?_chain {t : Term K} (h : t.grouped = true) :
    t.chain.expr.value? ρ = (t.factors.map (factorValue ρ)).prod := by
  cases t with
  | product fs =>
    rw [grouped, Bool.and_eq_true] at h
    exact value?_chain_product h.2
  | reciprocal root base =>
    rw [grouped, Bool.and_eq_true] at h
    exact (value?_chain_reciprocal h.2).trans (mul_one _).symm
  | literal | symbol | call | sum | difference | quotient | power => exact (mul_one _).symm

omit [Literal K] [Valued K] in
theorem factorsGrouped_factors {t : Term K} (h : t.grouped = true) :
    factorsGrouped t.factors = true := by
  cases t with
  | product fs =>
    rw [grouped, Bool.and_eq_true] at h
    exact h.1
  | reciprocal root base =>
    rw [grouped, Bool.and_eq_true] at h
    show (base.grouped && true) = true
    rw [h.1]
    rfl
  | literal | symbol | call | sum | difference | quotient | power =>
    show (_ && true) = true
    rw [h]
    rfl

omit [Literal K] [Valued K] in
theorem factorsGrouped_append (fs gs : List (Term K)) :
    factorsGrouped (fs ++ gs) = (factorsGrouped fs && factorsGrouped gs) := by
  induction fs with
  | nil => rfl
  | cons f fs ih => cases f <;> simp [factorsGrouped, ih, Bool.and_assoc]

/-! ### Values of expressions -/

/-- A power with one of the exponents minus one and minus one half is a divisor. -/
theorem value?_factor_pow {base exponent : Term K} :
    ((Term.pow base exponent).factors.map (factorValue ρ)).prod =
      (base.chain.expr.value? ρ).bind fun x => (exponent.chain.expr.value? ρ).bind
        (Operator.pow.result? x) := by
  have hpower : ((Term.power base exponent).factors.map (factorValue ρ)).prod =
      (base.chain.expr.value? ρ).bind fun x => (exponent.chain.expr.value? ρ).bind
        (Operator.pow.result? x) := (mul_one _).trans Expr.value?_binary
  cases exponent with
  | literal n =>
    rw [Term.pow]
    split
    · next hn =>
      obtain ⟨hfinite, hreal⟩ := isMinusOne_iff.mp hn
      refine (mul_one _).trans ?_
      show inverse? ((base.chain.enclosed base.enclosedAsDivisor).expr.value? ρ) =
        (base.chain.expr.value? ρ).bind fun x => ((Expr.num n).value? ρ).bind
          (Operator.pow.result? x)
      rw [Chain.expr_enclosed, Expr.value?_num hfinite, hreal, inverse?]
      simp only [Option.bind_some, result?_pow_minusOne]
    · split
      · next hn =>
        obtain ⟨hfinite, hreal⟩ := (Valued.eq_iff isFinite_minusHalf).mp hn
        refine (mul_one _).trans ?_
        show inverse? ((Expr.call "sqrt" [base.chain.expr]).value? ρ) =
          (base.chain.expr.value? ρ).bind fun x => ((Expr.num n).value? ρ).bind
            (Operator.pow.result? x)
        rw [Expr.value?_call (f := .sqrt) (by decide), Expr.value?_num hfinite, hreal,
          real_minusHalf, inverse?, Option.bind_assoc]
        simp only [Option.bind_some, result?_pow_minusHalf]
      · exact hpower
  | symbol | call | sum | difference | quotient | power | reciprocal | product => exact hpower

omit [Literal K] [Valued K] in
theorem allGrouped_iff {args : List (Term K)} :
    allGrouped args = true ↔ ∀ a ∈ args, a.grouped = true := by
  induction args with
  | nil => exact ⟨fun _ => nofun, fun _ => rfl⟩
  | cons a args ih => rw [allGrouped, Bool.and_eq_true, ih, List.forall_mem_cons]

omit [Valued K] in
theorem grouped_of_pow {base exponent : Term K}
    (h : factorsGrouped (Term.pow base exponent).factors = true) :
    base.grouped = true ∧ exponent.grouped = true := by
  have hpower : factorsGrouped (Term.power base exponent).factors = true →
      base.grouped = true ∧ exponent.grouped = true := by
    simp [factors, factorsGrouped, grouped]
  have hreciprocal : ∀ root, factorsGrouped (Term.reciprocal root base).factors = true →
      base.grouped = true := by
    simp [factors, factorsGrouped]
  cases exponent with
  | literal n =>
    rw [Term.pow] at h
    split at h
    · exact ⟨hreciprocal _ h, rfl⟩
    · split at h
      · exact ⟨hreciprocal _ h, rfl⟩
      · exact hpower h
  | symbol | call | sum | difference | quotient | power | reciprocal | product => exact hpower h

/-- The value of an expression is the product of the values of its factors. -/
theorem value?_ofExpr {e : Expr K} (h : factorsGrouped (ofExpr e).factors = true) :
    e.value? ρ = ((ofExpr e).factors.map (factorValue ρ)).prod := by
  induction e with
  | num x => exact (mul_one _).symm
  | sym name => exact (mul_one _).symm
  | call name args ih =>
    have hargs : allGrouped (ofExprs args) = true := by
      simpa [ofExpr, factors, factorsGrouped, grouped] using h
    rw [ofExprs_eq_map, allGrouped_iff] at hargs
    have hvalues : args.map (Expr.value? ρ) = (argExprs (ofExprs args)).map (Expr.value? ρ) := by
      rw [ofExprs_eq_map, argExprs_eq_map, List.map_map, List.map_map]
      refine List.map_congr_left fun a ha => ?_
      have hgrouped := hargs (ofExpr a) (List.mem_map_of_mem ha)
      exact (ih a ha (factorsGrouped_factors hgrouped)).trans (value?_chain hgrouped).symm
    exact (Expr.value?_call_congr hvalues).trans (mul_one _).symm
  | binary op u v ihu ihv =>
    have hu : (ofExpr u).grouped = true → (ofExpr u).chain.expr.value? ρ = u.value? ρ := fun hu =>
      (value?_chain hu).trans (ihu (factorsGrouped_factors hu)).symm
    have hv : (ofExpr v).grouped = true → (ofExpr v).chain.expr.value? ρ = v.value? ρ := fun hv =>
      (value?_chain hv).trans (ihv (factorsGrouped_factors hv)).symm
    rw [Expr.value?_binary]
    cases op with
    | add | sub =>
      obtain ⟨hu', hv'⟩ : (ofExpr u).grouped = true ∧ (ofExpr v).grouped = true := by
        simpa [ofExpr, ofOperator, factors, factorsGrouped, grouped] using h
      rw [← hu hu', ← hv hv', ← Expr.value?_binary]
      exact (mul_one _).symm
    | mul =>
      obtain ⟨hu', hv'⟩ := Bool.and_eq_true_iff.mp ((factorsGrouped_append _ _).symm.trans h)
      rw [ihu hu', ihv hv']
      refine (bind_times _ _).trans ?_
      rw [← List.prod_append, ← List.map_append]
      rfl
    | div =>
      obtain ⟨⟨hu', hv'⟩, hdivisor⟩ : ((ofExpr u).grouped = true ∧ (ofExpr v).grouped = true) ∧
          (ofExpr v).isDivisor = false := by
        simpa [ofExpr, ofOperator, factors, factorsGrouped, grouped] using h
      rw [← hu hu', ← hv hv']
      refine (bind_divided _ _).trans ?_
      rw [← value?_chain_quotient hdivisor]
      exact (mul_one _).symm
    | pow =>
      obtain ⟨hu', hv'⟩ := grouped_of_pow h
      rw [← hu hu', ← hv hv']
      exact value?_factor_pow.symm

/-- **A reciprocal under a quotient is taken apart**: C divides by its base. -/
theorem value?_chain_quotient_reciprocal {u base : Term K} {root : Bool}
    (h : staysWhole root base = true) :
    (quotient u (.reciprocal root base)).chain.expr.value? ρ =
      u.chain.expr.value? ρ * factorValue ρ (.reciprocal root base) := by
  have hchain : (quotient u (.reciprocal root base)).chain =
      ((u.chain.enclosed u.enclosedAsFactor).join .divided (.single .one)).join .divided
        (divisorChain root base base.chain) := by
    simp [chain, Chain.enclosed, enclosedAsDenominator, Chain.join, Chain.single]
  rw [hchain, Chain.value?_join_divided (divisorChain_steps h), Chain.value?_join_divided rfl,
    Chain.expr_enclosed]
  show _ * inverse? ((Expr.one : Expr K).value? ρ) * _ = _
  rw [Expr.one, Expr.value?_num isFinite_one, real_one, inverse?_some one_ne_zero, inv_one]
  exact congrArg (· * _) (mul_one _)

end Term

/-- **C reads in the text of a grouped term the value of the expression.** -/
theorem value?_asRead {e : Expr K} (h : (Term.ofExpr e).grouped = true) (ρ : String → ℝ) :
    (asRead e).value? ρ = e.value? ρ :=
  (Term.value?_chain h).trans (Term.value?_ofExpr (Term.factorsGrouped_factors h)).symm

/-- **A quotient by an inverse is read as a quotient by its base.** -/
theorem value?_asRead_div_inverse {u v : Expr K} (hu : (Term.ofExpr u).grouped = true)
    (hv : (Term.ofExpr v).grouped = true) (hwhole : (Term.ofExpr v).isQuotient = false)
    (ρ : String → ℝ) :
    (asRead (.div u (.pow v (.num minusOne)))).value? ρ = (Expr.div u v).value? ρ := by
  have hterm : Term.ofExpr (.div u (.pow v (.num minusOne))) =
      .quotient (Term.ofExpr u) (.reciprocal false (Term.ofExpr v)) := by
    have hone : isMinusOne (minusOne : K) = true :=
      isMinusOne_iff.mpr ⟨isFinite_minusOne, real_minusOne⟩
    simp [Term.ofExpr, Term.ofOperator, Term.pow, hone]
  have hstays : Term.staysWhole false (Term.ofExpr v) = true := by
    simp [Term.staysWhole, hwhole]
  have hdivisor : Term.factorValue ρ (.reciprocal false (Term.ofExpr v)) =
      inverse? ((asRead v).value? ρ) :=
    congrArg (fun e : Expr K => inverse? (e.value? ρ)) (Chain.expr_enclosed _ _)
  rw [asRead, hterm, Term.value?_chain_quotient_reciprocal hstays, hdivisor, Expr.value?_binary,
    ← value?_asRead hu, ← value?_asRead hv]
  exact (bind_divided _ _).symm

end Outcomes

end DensityKernel.C
