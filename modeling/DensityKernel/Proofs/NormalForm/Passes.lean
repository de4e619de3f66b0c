import DensityKernel.Proofs.NormalForm.Power
import DensityKernel.Proofs.NormalForm.Terms

/-!
Normal forms keep their meaning. What holds of every rule and goes through every
operation holds of a pass, which applies rules at every node, and of any number
of passes. Refinement is such a relation under the assumption that the rules are
used with.
-/

namespace DensityKernel

open DensityKernel.Expr DensityKernel.Literal

namespace NormalForm

variable {K : Type} [Literal K] [DecidableEq K] [Spelling K]
variable {domain : Domain} {op : Operator} {rule : Expr K → Option (Expr K)} {e e' : Expr K}

/-- The rules that there are. Those for powers that need signs are there only
where densities are assumed. -/
theorem mem_rules (h : rule ∈ rules domain op) :
    rule = foldLiterals ∨ rule = dropNeutral ∨ rule = collectTerms ∨ rule = collectFactors ∨
      rule = invertDenominator ∨
      (domain = .densities ∧ (rule = powerOfPower ∨ rule = powerOfProduct)) := by
  cases op <;> cases domain <;> simp only [rules, List.mem_cons, List.not_mem_nil] at h <;> grind

/-! ### Relations that rewriting respects -/

/-- A relation that goes through every operation and that every rule is in. -/
structure RuleCongruence (domain : Domain) (r : Expr K → Expr K → Prop) : Prop where
  refl : ∀ e, r e e
  trans : ∀ {u v w}, r u v → r v w → r u w
  call : ∀ {name args args'}, List.Forall₂ r args args' → r (.call name args) (.call name args')
  binary : ∀ {op u u' v v'}, r u u' → r v v' → r (.binary op u v) (.binary op u' v')
  rule : ∀ {op rule e e'}, rule ∈ rules domain op → rule e = some e' → r e e'
  foldCall : ∀ {e e'}, foldCall e = some e' → r e e'

namespace RuleCongruence

variable {r : Expr K → Expr K → Prop} (h : RuleCongruence domain r)

include h

theorem applyRules {rules : List (Expr K → Option (Expr K))}
    (hrules : ∀ rule ∈ rules, ∀ {e e'}, rule e = some e' → r e e') (e : Expr K) :
    r e (applyRules rules e) := by
  induction rules generalizing e with
  | nil => exact h.refl e
  | cons rule rules ih =>
    obtain ⟨hrule, hrest⟩ := List.forall_mem_cons.mp hrules
    refine h.trans ?_ (ih hrest ((rule e).getD e))
    cases happlied : rule e with
    | none => exact h.refl e
    | some e' => exact hrule happlied

/-- **One pass stays inside the relation.** -/
theorem pass (e : Expr K) : r e (pass domain e) := by
  induction e with
  | num x => exact h.refl _
  | sym name => exact h.refl _
  | call name args ih =>
    have hargs : List.Forall₂ r args (passArgs domain args) := by
      induction args with
      | nil => exact .nil
      | cons a args ihargs =>
        exact .cons (ih a List.mem_cons_self)
          (ihargs fun b hb => ih b (List.mem_cons_of_mem _ hb))
    exact h.trans (h.call hargs)
      (h.applyRules (List.forall_mem_singleton.mpr fun happlied => h.foldCall happlied) _)
  | binary op u v ihu ihv =>
    exact h.trans (h.binary ihu ihv)
      (h.applyRules (fun rule hrule => fun happlied => h.rule hrule happlied) _)

theorem settle {f : Expr K → Expr K} (hf : ∀ e, r e (f e)) (limit : Nat) (seen : List (Expr K))
    (e : Expr K) : r e (settle f limit seen e) := by
  induction limit generalizing seen e with
  | zero => exact h.refl e
  | succ limit ih =>
    unfold NormalForm.settle
    dsimp only
    split_ifs
    · exact h.refl e
    · exact hf e
    · exact h.trans (hf e) (ih _ _)

/-- **A normal form is related to what it was made from.** -/
theorem simplify (e : Expr K) : r e (e.simplify domain) :=
  h.settle h.pass passLimit [] e

end RuleCongruence

/-! ### Refinement -/

variable [Exact K] {R : Reading K} {ρ : String → ℝ}

/-- Every rule is a refinement, if the rules for powers are. -/
theorem rules_sound
    (hpower : domain = .densities → ∀ {e e'}, powerOfPower e = some e' → R.RefinedBy e e')
    (hproduct : domain = .densities → ∀ {e e'}, powerOfProduct e = some e' → R.RefinedBy e e')
    (hrule : rule ∈ rules domain op) (h : rule e = some e') : R.RefinedBy e e' := by
  rcases mem_rules hrule with rfl | rfl | rfl | rfl | rfl | ⟨hdomain, rfl | rfl⟩
  · exact foldLiterals_sound h
  · exact dropNeutral_sound h
  · exact collectTerms_sound h
  · exact collectFactors_sound h
  · exact invertDenominator_sound h
  · exact hpower hdomain h
  · exact hproduct hdomain h

/-- **Refinement is kept by every rule and goes through every operation.** -/
theorem refinement (hρ : Admissible domain ρ) :
    RuleCongruence (K := K) domain (Reading.usual ρ).RefinedBy where
  refl := .refl
  trans := .trans
  call := Reading.refinedBy_call
  binary := Reading.refinedBy_binary
  rule := rules_sound (fun hdomain => powerOfPower_sound (hdomain ▸ hρ))
    (fun hdomain => powerOfProduct_sound (hdomain ▸ hρ))
  foldCall := foldCall_sound

end NormalForm

open NormalForm

/-- **Normal forms keep their meaning.** Where an expression is defined, its
normal form is defined and has the same value. -/
theorem Expr.simplify_refines {K : Type} [Literal K] [Exact K] [DecidableEq K] [Spelling K]
    {domain : Domain} {ρ : String → ℝ} (hρ : Admissible domain ρ) {e : Expr K}
    (hdefined : e.Defined ρ) :
    (e.simplify domain).Defined ρ ∧ (e.simplify domain).value (.usual ρ) = e.value (.usual ρ) :=
  (refinement hρ).simplify e hdefined

/-- The root of a square, with a negative scalar product of gradients. -/
theorem Expr.simplify_root_of_square_refines :
    let ρ : String → ℝ := fun s =>
      if s = "pi" then Real.pi else if s = "e" then Real.exp 1 else if s = "gab" then -3 else 1
    let root : Expr ExactNumber := pow (pow (sym "gab") (num two)) (num half)
    (root.simplify .densities).Defined ρ ∧ (root.simplify .densities).value (.usual ρ) = 3 := by
  intro ρ root
  have hρ : Admissible .densities ρ := by
    refine ⟨rfl, rfl, fun v hv => ?_⟩
    cases v with
    | gab => simp [Variable.isNonNegative] at hv
    | ra | rb | ga | gb => simp [ρ, Variable.name]
  have hsquare : ((-3 : ℝ) ^ (2 : ℝ)) = 3 ^ (2 : ℝ) := by norm_num
  have hdefined : root.Defined ρ := by
    refine ⟨⟨trivial, isFinite_two, ⟨fun _ => ⟨2, by simp⟩, fun _ => by simp⟩⟩, isFinite_half, ?_⟩
    exact .of_pos (by simp [ρ, hsquare])
  have hvalue : root.value (.usual ρ) = 3 := by
    rw [value_pow, value_pow, value_sym, value_num, value_num, real_two, real_half]
    exact hsquare ▸ (by rw [← Real.rpow_mul (by norm_num)]; norm_num)
  exact hvalue ▸ simplify_refines hρ hdefined

end DensityKernel
