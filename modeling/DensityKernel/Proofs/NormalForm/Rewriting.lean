import DensityKernel.Proofs.Expr.Hereditary
import Mathlib.Logic.Relation

/-!
Simplification as rewriting. A pass applies rules to the parts of an expression,
one after the other, so a normal form is reached by steps that each change one part
with one rule (`rewrites_simplify`). A property that some of the literals have is
lost in one of these steps, or not at all (`HereditaryIn.simplify`).
-/

namespace DensityKernel

open DensityKernel.Expr

namespace NormalForm

variable {K : Type}

/-- One part of an expression is replaced by a related one. -/
inductive Inside (r : Expr K → Expr K → Prop) : Expr K → Expr K → Prop
  | here {e e' : Expr K} (h : r e e') : Inside r e e'
  | argument {name : String} {front back : List (Expr K)} {a a' : Expr K} (h : Inside r a a') :
    Inside r (.call name (front ++ a :: back)) (.call name (front ++ a' :: back))
  | left {op : Operator} {u u' v : Expr K} (h : Inside r u u') :
    Inside r (.binary op u v) (.binary op u' v)
  | right {op : Operator} {u v v' : Expr K} (h : Inside r v v') :
    Inside r (.binary op u v) (.binary op u v')

variable [Literal K] [DecidableEq K] [Spelling K] {domain : Domain} {e e' : Expr K}

/-- A rule makes `e'` of `e`. -/
inductive Applies (domain : Domain) (e e' : Expr K) : Prop
  | rule {op : Operator} {rule : Expr K → Option (Expr K)} (hrule : rule ∈ rules domain op)
    (h : rule e = some e') : Applies domain e e'
  | foldCall (h : foldCall e = some e') : Applies domain e e'

/-- Any number of rules are applied to parts of an expression. -/
def Rewrites (domain : Domain) : Expr K → Expr K → Prop :=
  Relation.ReflTransGen (Inside (Applies domain))

/-- What is rewritten on its own is rewritten as a part. -/
theorem Rewrites.inside {f : Expr K → Expr K} {a a' : Expr K}
    (hf : ∀ {a a'}, Inside (Applies domain) a a' → Inside (Applies domain) (f a) (f a'))
    (h : Rewrites domain a a') : Rewrites domain (f a) (f a') := by
  induction h with
  | refl => exact .refl
  | tail _ hstep ih => exact ih.tail (hf hstep)

/-- Arguments are rewritten one by one. -/
theorem rewrites_call {name : String} {args args' : List (Expr K)}
    (h : List.Forall₂ (Rewrites domain) args args') (front : List (Expr K)) :
    Rewrites domain (.call name (front ++ args)) (.call name (front ++ args')) := by
  induction h generalizing front with
  | nil => exact .refl
  | @cons a a' args args' ha _ ih =>
    have hfirst : Rewrites domain (.call name (front ++ a :: args))
        (.call name (front ++ a' :: args)) :=
      Rewrites.inside (f := fun a => .call name (front ++ a :: args)) .argument ha
    have hrest := ih (front ++ [a'])
    rw [List.append_assoc, List.append_assoc, List.singleton_append, List.singleton_append] at hrest
    exact hfirst.trans hrest

theorem ruleCongruence_rewrites : RuleCongruence (K := K) domain (Rewrites domain) where
  refl _ := .refl
  trans := .trans
  call h := rewrites_call h []
  binary {_ _ u' v _} hu hv :=
    (Rewrites.inside (f := (.binary _ · v)) .left hu).trans
      (Rewrites.inside (f := (.binary _ u' ·)) .right hv)
  rule hrule happlied := .single (.here (.rule hrule happlied))
  foldCall happlied := .single (.here (.foldCall happlied))

/-- **A normal form is reached by rewriting.** -/
theorem rewrites_simplify (e : Expr K) : Rewrites domain e (e.simplify domain) :=
  ruleCongruence_rewrites.simplify e

/-- What is lost on the way is lost in a step. -/
theorem exists_step_of_lost {α : Type} {r : α → α → Prop} {p : α → Prop} {a b : α}
    (h : Relation.ReflTransGen r a b) (ha : p a) (hb : ¬p b) :
    ∃ c d, Relation.ReflTransGen r a c ∧ p c ∧ r c d ∧ ¬p d ∧ Relation.ReflTransGen r d b := by
  induction h using Relation.ReflTransGen.head_induction_on with
  | refl => exact absurd ha hb
  | @head a c hstep hrest ih =>
    by_cases hc : p c
    · obtain ⟨d, d', hd, hpd, hstep', hlost, hend⟩ := ih hc
      exact ⟨d, d', .head hstep hd, hpd, hstep', hlost, hend⟩
    · exact ⟨a, c, .refl, ha, hstep, hc, hrest⟩

end NormalForm

namespace HereditaryIn

open NormalForm

variable {K : Type} [Literal K] [DecidableEq K] [Spelling K] {P : K → Prop} {Q : Expr K → Prop}
  (hQ : HereditaryIn P Q) (hP : Supplied P) {domain : Domain} {e e' : Expr K}

include hQ hP

/-- A step that loses the property combines numbers to one outside of `P`. -/
theorem inside_leaves (h : Inside (Applies domain) e e') (he : Q e) (he' : ¬Q e') :
    Inside (Leaves P) e e' := by
  induction h with
  | here happlied =>
    cases happlied with
    | rule hrule happlied => exact .here ((hQ.closedIn.rule hP hrule he happlied).resolve_left he')
    | foldCall happlied => exact absurd (hQ.closedIn.foldCall hP happlied) he'
  | @argument name front back a a' _ ih =>
    refine .argument (ih (hQ.of_call he a (by simp)) fun ha' => he' (hQ.call_congr ?_ he))
    have hsame : ∀ args : List (Expr K), List.Forall₂ (fun a a' => Q a → Q a') args args :=
      fun args => List.forall₂_same.mpr fun _ _ => id
    exact List.rel_append (hsame front) (.cons (fun _ => ha') (hsame back))
  | left _ ih =>
    obtain ⟨hu, hv⟩ := hQ.binary.mp he
    exact .left (ih hu fun hu' => he' (hQ.binary.mpr ⟨hu', hv⟩))
  | right _ ih =>
    obtain ⟨hu, hv⟩ := hQ.binary.mp he
    exact .right (ih hv fun hv' => he' (hQ.binary.mpr ⟨hu, hv'⟩))

/-- **Where a normal form loses a property of its literals**, there is a first step that loses it,
and that step combines numbers to one outside of `P`. -/
theorem simplify (he : Q e) (hlost : ¬Q (e.simplify domain)) :
    ∃ t t', Rewrites domain e t ∧ Q t ∧ Inside (Leaves P) t t' ∧ ¬Q t' ∧
      Rewrites domain t' (e.simplify domain) := by
  obtain ⟨t, t', hbefore, ht, hstep, ht', hafter⟩ :=
    exists_step_of_lost (rewrites_simplify e) he hlost
  exact ⟨t, t', hbefore, ht, hQ.inside_leaves hP hstep ht ht', ht', hafter⟩

end HereditaryIn

end DensityKernel
