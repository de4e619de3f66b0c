import DensityKernel.Proofs.NormalForm.Local
import DensityKernel.NormalForm.Passes

/-!
What a pass makes of a node whose operands it has gone through: one equation to an operator. Two
finite literals are folded; otherwise a neutral operand is dropped, and what is left is put in
order.
-/

namespace DensityKernel.NormalForm

open DensityKernel.Expr

variable {K : Type} [Literal K]

/-! ### The rules that come last -/

section Last

variable [DecidableEq K] [Spelling K] {u v e : Expr K}

/-- A sum in order; anything else as it is. -/
def collected (e : Expr K) : Expr K :=
  if e.isSum then orderedSum e else e

/-- A product in order; anything else as it is. -/
def arranged : Expr K → Expr K
  | .binary .mul u v => orderedProduct (.mul u v)
  | e => e

/-- A quotient as a product, if it can be one. -/
def inverted (e : Expr K) : Expr K :=
  (invertDenominator e).getD e

/-- A power after the rules for powers. -/
def raised (domain : Domain) (e : Expr K) : Expr K :=
  match domain with
  | .densities =>
    let merged := (powerOfPower e).getD e
    (powerOfProduct merged).getD merged
  | .anywhere => e

theorem getD_collectTerms_eq (e : Expr K) : (collectTerms e).getD e = collected e := by
  simp only [collectTerms, collected]
  split_ifs with hsum heq
  · exact heq.symm
  · rfl
  · rfl

theorem getD_collectFactors_eq (e : Expr K) : (collectFactors e).getD e = arranged e := by
  cases e with
  | num | sym | call => rfl
  | binary op u v =>
    cases op with
    | mul =>
      simp only [collectFactors, arranged]
      split_ifs with heq
      · exact heq.symm
      · rfl
    | add | sub | div | pow => rfl

end Last

/-! ### Nodes -/

section Nodes

variable {op : Operator} {u v e : Expr K}

/-- Only two literals are folded, and the result is one. -/
theorem foldLiterals_cases (op : Operator) (u v : Expr K) :
    foldLiterals (.binary op u v) = none ∨
      ∃ x y, u = .num x ∧ v = .num y ∧ Literal.isFinite (op.onLiterals x y) = true ∧
        foldLiterals (.binary op u v) = some (.num (op.onLiterals x y)) := by
  cases hfold : foldLiterals (.binary op u v) with
  | none => exact .inl rfl
  | some e =>
    obtain ⟨op', x, y, heq, hfinite, rfl⟩ := foldLiterals_eq_some hfold
    obtain ⟨rfl, rfl, rfl⟩ := Expr.binary.inj heq
    exact .inr ⟨x, y, rfl, rfl, hfinite, rfl⟩

/-- A node is folded, or else it is left to the rules after that. -/
theorem applyRules_foldLiterals {rules : List (Expr K → Option (Expr K))}
    (hrules : ∀ x, applyRules rules (.num x) = .num x) :
    applyRules (foldLiterals :: rules) (.binary op u v) =
      (foldLiterals (.binary op u v)).getD (applyRules rules (.binary op u v)) := by
  show applyRules rules ((foldLiterals (.binary op u v)).getD _) = _
  rcases foldLiterals_cases op u v with hnone | ⟨x, y, -, -, -, hsome⟩
  · rw [hnone]
    rfl
  · rw [hsome]
    exact hrules _

variable [DecidableEq K] [Spelling K] {domain : Domain}

theorem applyRules_add : applyRules (rules domain .add) (.add u v) =
    (foldLiterals (.add u v)).getD
      (if u.isZero then collected v else if v.isZero then collected u
        else orderedSum (.add u v)) := by
  refine (applyRules_foldLiterals fun _ => rfl).trans (congrArg _ ?_)
  show (collectTerms ((dropNeutral (.add u v)).getD _)).getD _ = _
  rw [getD_collectTerms_eq, dropNeutral]
  split_ifs <;> rfl

theorem applyRules_sub : applyRules (rules domain .sub) (.sub u v) =
    (foldLiterals (.sub u v)).getD
      (if v.isZero then collected u else if u.isZero then v.negate
        else if u = v then Expr.zero else orderedSum (.sub u v)) := by
  refine (applyRules_foldLiterals fun _ => rfl).trans (congrArg _ ?_)
  show (collectTerms ((dropNeutral (.sub u v)).getD _)).getD _ = _
  rw [getD_collectTerms_eq, dropNeutral]
  split_ifs <;> rfl

theorem applyRules_mul : applyRules (rules domain .mul) (.mul u v) =
    (foldLiterals (.mul u v)).getD
      (if u.isZero || v.isZero then Expr.zero else if u.isOne then arranged v
        else if v.isOne then arranged u else orderedProduct (.mul u v)) := by
  refine (applyRules_foldLiterals fun _ => rfl).trans (congrArg _ ?_)
  show (collectFactors ((dropNeutral (.mul u v)).getD _)).getD _ = _
  rw [getD_collectFactors_eq, dropNeutral]
  split_ifs <;> rfl

theorem applyRules_div : applyRules (rules domain .div) (.div u v) =
    (foldLiterals (.div u v)).getD
      (if v.isOne then inverted u else if u.isZero && !v.isZero then Expr.zero
        else inverted (.div u v)) := by
  refine (applyRules_foldLiterals fun _ => rfl).trans (congrArg _ ?_)
  show inverted ((dropNeutral (.div u v)).getD _) = _
  rw [dropNeutral]
  split_ifs <;> rfl

theorem applyRules_pow : applyRules (rules domain .pow) (.pow u v) =
    (foldLiterals (.pow u v)).getD
      (if v.isOne then raised domain u else if v.isZero || u.isOne then Expr.one
        else raised domain (.pow u v)) := by
  cases domain with
  | densities =>
    refine (applyRules_foldLiterals fun _ => rfl).trans (congrArg _ ?_)
    show raised .densities ((dropNeutral (.pow u v)).getD _) = _
    rw [dropNeutral]
    split_ifs <;> rfl
  | anywhere =>
    refine (applyRules_foldLiterals fun _ => rfl).trans (congrArg _ ?_)
    show (dropNeutral (.pow u v)).getD _ = _
    rw [dropNeutral]
    split_ifs <;> rfl

theorem pass_call (domain : Domain) (name : String) (args : List (Expr K)) :
    pass domain (.call name args) =
      (foldCall (.call name (passArgs domain args))).getD (.call name (passArgs domain args)) := by
  rw [pass]
  rfl

theorem mem_passArgs_iff {args : List (Expr K)} :
    e ∈ passArgs domain args ↔ ∃ a ∈ args, pass domain a = e := by
  induction args with
  | nil => simp [passArgs]
  | cons a args ih => rw [passArgs, List.mem_cons, List.exists_mem_cons_iff, ih, eq_comm]

end Nodes

end DensityKernel.NormalForm
