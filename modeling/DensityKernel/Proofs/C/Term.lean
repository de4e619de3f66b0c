import DensityKernel.C.Text
import DensityKernel.Proofs.Expr.Nodes
import DensityKernel.Proofs.Expr.Symbols

/-!
The terms of expressions. What passes from the parts of a term to the term holds
of the term of an expression if it holds of its leaves
(`Compositional.ofExpr`). A product is put together from factors, none of which
is a product, and is never empty. In its text the coefficient is set apart from
the other factors (`text_product`).
-/

namespace DensityKernel.C.Term

variable {K : Type}

/-- A factor of a product has a property, or its base has if it is a divisor. No factor is a
product. -/
def Factor (P : Term K → Prop) : Term K → Prop
  | .reciprocal _ base => P base
  | .product _ => False
  | t => P t

theorem Factor.of_reciprocal {P : Term K → Prop} {t : Term K} (h : Factor P t)
    (hP : ∀ {root base}, P base → P (.reciprocal root base)) : P t := by
  cases t with
  | reciprocal root base => exact hP h
  | product fs => exact h.elim
  | literal | symbol | call | sum | difference | quotient | power => exact h

/-- A term has the property if its parts have it. -/
structure Compositional (P : Term K → Prop) : Prop where
  sum : ∀ {u v}, P u → P v → P (.sum u v)
  difference : ∀ {u v}, P u → P v → P (.difference u v)
  quotient : ∀ {u v}, P u → P v → P (.quotient u v)
  power : ∀ {base exponent}, P base → P exponent → P (.power base exponent)
  reciprocal : ∀ {root base}, P base → P (.reciprocal root base)
  product : ∀ {fs}, fs ≠ [] → (∀ f ∈ fs, Factor P f) → P (.product fs)

/-- The literals and symbols of an expression have the property as terms, and so has each of its
calls if the arguments have it. -/
structure Leaves (P : Term K → Prop) (e : Expr K) : Prop where
  literal : ∀ x ∈ e.literals, P (.literal x)
  symbol : ∀ s ∈ e.symbols, P (.symbol s)
  call : ∀ c ∈ e.calls, ∀ args, args.length = c.2 → (∀ a ∈ args, P a) → P (.call c.1 args)

section Leaves

variable {P : Term K → Prop} {u v : Expr K}

theorem Leaves.of_binary {op : Operator} (h : Leaves P (.binary op u v)) :
    Leaves P u ∧ Leaves P v where
  left :=
    { literal := fun x hx => h.literal x (Expr.mem_literals_binary.mpr (.inl hx))
      symbol := (Expr.over_binary.mp h.symbol).1
      call := fun c hc => h.call c (Expr.mem_calls_binary.mpr (.inl hc)) }
  right :=
    { literal := fun x hx => h.literal x (Expr.mem_literals_binary.mpr (.inr hx))
      symbol := (Expr.over_binary.mp h.symbol).2
      call := fun c hc => h.call c (Expr.mem_calls_binary.mpr (.inr hc)) }

theorem Leaves.of_call {name : String} {args : List (Expr K)} (h : Leaves P (.call name args)) :
    ∀ a ∈ args, Leaves P a :=
  fun a ha =>
    { literal := fun x hx => h.literal x (Expr.mem_literals_call.mpr ⟨a, ha, hx⟩)
      symbol := Expr.over_call.mp h.symbol a ha
      call := fun c hc => h.call c (Expr.mem_calls_call.mpr (.inr ⟨a, ha, hc⟩)) }

end Leaves

variable [Literal K]

theorem ofExprs_eq_map (args : List (Expr K)) : ofExprs args = args.map ofExpr := by
  induction args with
  | nil => rfl
  | cons a args ih => rw [ofExprs, ih, List.map_cons]

namespace Compositional

variable {P : Term K → Prop} (hP : Compositional P)

include hP

omit [Literal K] in
theorem of_factors {t : Term K} (hne : t.factors ≠ []) (h : ∀ f ∈ t.factors, Factor P f) : P t := by
  cases t with
  | product fs => exact hP.product hne h
  | literal | symbol | call | sum | difference | quotient | power | reciprocal =>
    exact (h _ List.mem_cons_self).of_reciprocal hP.reciprocal

/-- A power or a reciprocal is a single factor. -/
theorem factors_pow {base exponent : Term K} (hbase : P base) (hexponent : P exponent) :
    (pow base exponent).factors ≠ [] ∧ ∀ f ∈ (pow base exponent).factors, Factor P f := by
  have hpower : ∀ f ∈ (Term.power base exponent).factors, Factor P f :=
    List.forall_mem_singleton.mpr (hP.power hbase hexponent)
  have hreciprocal : ∀ root, ∀ f ∈ (Term.reciprocal root base).factors, Factor P f :=
    fun _ => List.forall_mem_singleton.mpr hbase
  unfold pow
  split
  · split_ifs
    · exact ⟨List.cons_ne_nil _ _, hreciprocal false⟩
    · exact ⟨List.cons_ne_nil _ _, hreciprocal true⟩
    · exact ⟨List.cons_ne_nil _ _, hpower⟩
  · exact ⟨List.cons_ne_nil _ _, hpower⟩

theorem factors_ofExpr {e : Expr K} (h : Leaves P e) :
    (ofExpr e).factors ≠ [] ∧ ∀ f ∈ (ofExpr e).factors, Factor P f := by
  have single : ∀ {t : Term K}, Factor P t → [t] ≠ [] ∧ ∀ f ∈ [t], Factor P f :=
    fun ht => ⟨List.cons_ne_nil _ _, List.forall_mem_singleton.mpr ht⟩
  induction e with
  | num x => exact single (h.literal x (Expr.mem_literals_num.mpr rfl))
  | sym s => exact single (h.symbol s (by simp [Expr.symbols]))
  | call name args ih =>
    refine single (h.call (name, args.length) (Expr.mem_calls_call.mpr (.inl rfl)) _ ?_ ?_)
    · rw [ofExprs_eq_map, List.length_map]
    · rw [ofExprs_eq_map]
      refine List.forall_mem_map.mpr fun a ha => ?_
      obtain ⟨hne, hfactors⟩ := ih a ha (h.of_call a ha)
      exact hP.of_factors hne hfactors
  | binary op u v ihu ihv =>
    obtain ⟨huLeaves, hvLeaves⟩ := h.of_binary
    obtain ⟨hune, hufactors⟩ := ihu huLeaves
    obtain ⟨hvne, hvfactors⟩ := ihv hvLeaves
    have hu := hP.of_factors hune hufactors
    have hv := hP.of_factors hvne hvfactors
    cases op with
    | add => exact single (hP.sum hu hv)
    | sub => exact single (hP.difference hu hv)
    | mul =>
      exact ⟨List.append_ne_nil_of_left_ne_nil hune _,
        List.forall_mem_append.mpr ⟨hufactors, hvfactors⟩⟩
    | div => exact single (hP.quotient hu hv)
    | pow => exact hP.factors_pow hu hv

/-- **The term of an expression has what its leaves have.** -/
theorem ofExpr {e : Expr K} (h : Leaves P e) : P (ofExpr e) := by
  obtain ⟨hne, hfactors⟩ := hP.factors_ofExpr h
  exact hP.of_factors hne hfactors

end Compositional

/-! ### Coefficients -/

omit [Literal K] in
/-- A product is its coefficient and its other factors. -/
theorem splitCoefficient_append (fs : List (Term K)) :
    ((splitCoefficient fs).1.map literal).toList ++ (splitCoefficient fs).2 = fs := by
  cases fs with
  | nil => rfl
  | cons f fs => cases f <;> rfl

omit [Literal K] in
theorem literal_mem_of_mem_splitCoefficient {fs : List (Term K)} {c : K}
    (h : c ∈ (splitCoefficient fs).1) : literal c ∈ fs := by
  rw [← splitCoefficient_append fs, Option.mem_def.mp h]
  exact List.mem_cons_self

omit [Literal K] in
theorem mem_of_mem_splitCoefficient {fs : List (Term K)} {f : Term K}
    (h : f ∈ (splitCoefficient fs).2) : f ∈ fs := by
  rw [← splitCoefficient_append fs]
  exact List.mem_append_right _ h

omit [Literal K] in
/-- The coefficient is no divisor, -/
theorem any_isDivisor_splitCoefficient (fs : List (Term K)) :
    (splitCoefficient fs).2.any isDivisor = fs.any isDivisor := by
  cases fs with
  | nil => rfl
  | cons f fs => cases f <;> rfl

omit [Literal K] in
/-- and is a literal. -/
theorem all_isNumeric_splitCoefficient (fs : List (Term K)) :
    (splitCoefficient fs).2.all isNumeric = allNumeric fs := by
  have hall : ∀ fs : List (Term K), fs.all isNumeric = allNumeric fs := by
    intro fs
    induction fs with
    | nil => rfl
    | cons f fs ih => rw [List.all_cons, ih, allNumeric]
  cases fs with
  | nil => rfl
  | cons f fs => cases f <;> simp [splitCoefficient, allNumeric, isNumeric, hall]

/-- The text of a product, with its coefficient set apart. -/
theorem text_product [Spelling K] (symbols : SymbolMap) (floating : Bool) (fs : List (Term K)) :
    (product fs).text symbols floating = (do
      let divisors ← divisorTexts symbols floating fs
      let floating := floating || dividesLiterals (splitCoefficient fs).2
      let factors ← factorTexts symbols floating (splitCoefficient fs).2
      productText floating (splitCoefficient fs).1 factors (joinDivisors divisors)) := by
  rw [text]
  cases fs with
  | nil => rfl
  | cons f fs => cases f <;> rfl

end DensityKernel.C.Term
