import DensityKernel.Proofs.C.Chain
import DensityKernel.Proofs.C.Literal

/-!
The rendered text of a term spells the chain of the term. Each kind of term has
a lemma from the texts of its parts; the texts of a product are those of its
factors and divisors, none of which is a product.
-/

namespace DensityKernel.C

open Literal

variable {K : Type} [Literal K] [Valued K] [Spelling K] {symbols : SymbolMap}

/-! ### Pieces of texts -/

section Pieces

variable {text : String} {c : Chain K} {level : Level}

theorem toList_enclosed (wrap : Bool) (text : String) :
    (enclosed wrap text).toList = if wrap then '(' :: (text.toList ++ [')']) else text.toList := by
  cases wrap with
  | false => rfl
  | true =>
    show ("(" ++ text ++ ")").toList = _
    rw [String.toList_append, String.toList_append]
    rfl

theorem withoutMinus?_eq_some_iff {text rest : String} :
    withoutMinus? text = some rest ↔ text.toList = '-' :: rest.toList := by
  rw [withoutMinus?]
  constructor
  · intro h
    split at h
    · next cs hcs =>
      cases h
      rw [hcs, String.toList_ofList]
    · exact absurd h (by simp)
  · intro h
    simp [h]

/-- Texts with asterisks between them spell the product of their chains, with
or without a sign of the first one. -/
theorem spells_intercalate {P : List Char → Chain K → Prop} {texts : List String}
    {cs : List (Chain K)} (hjoin : ∀ {as bs c d}, P as c → SpellsChain symbols .unary bs d →
      P (as ++ '*' :: bs) (c.join .times d))
    (hc : P text.toList c)
    (h : List.Forall₂ (fun t d => SpellsChain symbols .unary (String.toList t) d) texts cs) :
    P (String.intercalate "*" (text :: texts)).toList (c.times cs) := by
  induction h generalizing text c with
  | nil => exact hc
  | @cons t d texts cs hd _ ih =>
    have hjoined : P (text ++ "*" ++ t).toList (c.join .times d) := by
      rw [String.toList_append, String.toList_append, List.append_assoc]
      exact hjoin hc hd
    exact ih hjoined

/-- The text after the slash spells the chain of the divisor. -/
theorem spells_joinDivisors {texts : List String} {cs : List (Chain K)}
    (h : List.Forall₂ (fun t d => SpellsChain symbols .unary (String.toList t) d) texts cs) :
    Option.Rel (fun t d => SpellsChain symbols .unary (String.toList t) d) (joinDivisors texts)
      (Chain.divisor cs) := by
  cases h with
  | nil => exact .none
  | cons hd hrest =>
    cases hrest with
    | nil => exact .some hd
    | cons hd' hrest =>
      refine .some (.single ?_)
      have hjoined := (spells_intercalate (fun hc => hc.join .times) hd
        (.cons hd' hrest)).spells.additive.parens.unary
      rwa [String.toList_append, String.toList_append]

theorem spells_dividedBy {divisor : Option String} {d : Option (Chain K)}
    (hc : SpellsSigned symbols text.toList c)
    (hd : Option.Rel (fun t d => SpellsChain symbols .unary (String.toList t) d) divisor d) :
    SpellsSigned symbols (text ++ (divisor.map ("/" ++ ·)).getD "").toList (c.dividedBy d) := by
  cases hd with
  | none =>
    rw [String.toList_append]
    exact (List.append_nil text.toList).symm ▸ hc
  | some hd =>
    have hjoin := hc.join .divided hd
    rw [String.toList_append, Option.map_some, Option.getD_some, String.toList_append]
    exact hjoin

end Pieces

/-! ### Terms -/

omit [Valued K] [Spelling K] in
/-- Sums and differences have parentheses wherever other terms may have them. -/
theorem enclosed_of_sum {t : Term K} (h : t.enclosedAfterMinus = true) :
    t.enclosedAsFactor = true ∧ t.enclosedAsDenominator = true ∧ t.enclosedAsDivisor = true ∧
      t.mergesMinus = false := by
  cases t with
  | sum | difference => exact ⟨rfl, rfl, rfl, rfl⟩
  | literal | symbol | call | quotient | power | reciprocal | product =>
    exact absurd h Bool.false_ne_true

/-- A text spells a term. -/
structure Spelled (symbols : SymbolMap) (t : Term K) (cs : List Char) : Prop where
  sum : Spells symbols .additive cs t.chain.expr
  /-- Only sums and differences need parentheses in a product. -/
  product : t.enclosedAfterMinus = false → SpellsChain symbols .unary cs t.chain
  /-- A minus that is merged with the plus before it leaves the negated value. -/
  merged : t.mergesMinus = true → ∀ ds, cs = '-' :: ds → ∃ d : Chain K,
    SpellsChain symbols .primary ds d ∧ ∀ ρ, t.chain.expr.value? ρ = (d.expr.value? ρ).map (- ·)
  /-- The factors of a product have no signs of their own. -/
  factor : t.enclosedAsFactor = false → t.isDivisor = false → (∀ fs, t ≠ .product fs) →
    SpellsChain symbols .primary cs t.chain

namespace Spelled

variable {t : Term K} {cs : List Char} {e : Expr K}

theorem of_primary (h : Spells symbols .primary cs e) (hchain : t.chain = .single e) :
    Spelled symbols t cs where
  sum := by
    rw [hchain]
    exact h.unary.multiplicative.additive
  product _ := by
    rw [hchain]
    exact .single h.unary
  merged _ ds hcs := by
    subst hcs
    exact absurd rfl h.ne_minus
  factor _ _ _ := by
    rw [hchain]
    exact .single h

theorem of_chain (h : SpellsChain symbols .unary cs t.chain) (hmerges : t.mergesMinus = false)
    (hfactor : t.enclosedAsFactor = true ∨ t.isDivisor = true) : Spelled symbols t cs where
  sum := h.spells.additive
  product _ := h
  merged hmerged := absurd (hmerged.symm.trans hmerges) (by decide)
  factor hopen hdivisor _ := by
    rcases hfactor with hclosed | hdivides
    · exact absurd (hopen.symm.trans hclosed) (by decide)
    · exact absurd (hdivisor.symm.trans hdivides) (by decide)

theorem of_signed (h : SpellsSigned symbols cs t.chain)
    (hfactor : t.enclosedAsFactor = true ∨ ∃ fs, t = .product fs) : Spelled symbols t cs where
  sum := h.unary.spells.additive
  product _ := h.unary
  merged _ ds hcs := by
    subst hcs
    exact h.stripped
  factor hopen _ hproduct := by
    rcases hfactor with hclosed | ⟨fs, rfl⟩
    · exact absurd (hopen.symm.trans hclosed) (by decide)
    · exact absurd rfl (hproduct fs)

theorem of_sum (h : Spells symbols .additive cs t.chain.expr)
    (ht : t.enclosedAfterMinus = true) : Spelled symbols t cs where
  sum := h
  product hproduct := absurd (hproduct.symm.trans ht) (by decide)
  merged hmerges := absurd (hmerges.symm.trans (enclosed_of_sum ht).2.2.2) (by decide)
  factor hopen := absurd (hopen.symm.trans (enclosed_of_sum ht).1) (by decide)

/-- A text in parentheses, where sums have them, spells the enclosed chain. -/
theorem enclosed {text : String} (h : Spelled symbols t text.toList) {wrap : Bool}
    (hwrap : t.enclosedAfterMinus = true → wrap = true) :
    SpellsChain symbols .unary (C.enclosed wrap text).toList (t.chain.enclosed wrap) := by
  rw [toList_enclosed]
  cases wrap with
  | false => exact h.product (Bool.eq_false_iff.mpr fun hsum => absurd (hwrap hsum) (by decide))
  | true => exact .single h.sum.parens.unary

end Spelled

/-- The text of a term, in both styles of literals, spells it. -/
def Rendered (symbols : SymbolMap) (t : Term K) : Prop :=
  ∀ floating, ∃ text, t.text symbols floating = .ok text ∧ Spelled symbols t text.toList

namespace Rendered

variable {t u v base exponent : Term K}

theorem symbol {name : String} (h : IsOperand (symbols.resolve name).toList) :
    Rendered symbols (.symbol name : Term K) := by
  intro floating
  refine ⟨_, rfl, .of_primary (e := .sym name) ?_ rfl⟩
  obtain ⟨ts, haccess, hlex⟩ := h.lexes
  refine ⟨ts, _, hlex, .operand haccess, fun σ => ?_⟩
  rw [Tree.value?, Expr.value?_sym, String.ofList_toList]

theorem sum (hu : Rendered symbols u) (hv : Rendered symbols v) :
    Rendered symbols (.sum u v) := by
  intro floating
  obtain ⟨left, hleft, hspellsu⟩ := hu floating
  obtain ⟨right, hright, hspellsv⟩ := hv floating
  refine ⟨sumText v left right, by simp only [Term.text, hleft, hright]; rfl, .of_sum ?_ rfl⟩
  show Spells symbols .additive _ (Expr.add u.chain.expr v.chain.expr)
  rw [sumText]
  split
  · next rest hmerges hrest =>
    obtain ⟨d, hd, hvalue⟩ := hspellsv.merged hmerges _ (withoutMinus?_eq_some_iff.mp hrest)
    have hmark : ('-', Operator.sub) ∈ termMarks := by decide
    have hminus := hspellsu.sum.plus hmark hd.unary.spells
    rw [String.toList_append, String.toList_append, List.append_assoc]
    refine hminus.congr fun ρ => ?_
    rw [Expr.value?_binary, Expr.value?_binary, hvalue ρ]
    cases u.chain.expr.value? ρ with
    | none => rfl
    | some x => cases d.expr.value? ρ <;> simp [Operator.result?, Operator.DefinedAt,
        Operator.onReals, sub_eq_add_neg]
  · have hplus := hspellsu.sum.add hspellsv.sum
    rwa [String.toList_append, String.toList_append, List.append_assoc]

theorem difference (hu : Rendered symbols u) (hv : Rendered symbols v) :
    Rendered symbols (.difference u v) := by
  intro floating
  obtain ⟨left, hleft, hspellsu⟩ := hu floating
  obtain ⟨right, hright, hspellsv⟩ := hv floating
  refine ⟨differenceText v left right, by simp only [Term.text, hleft, hright]; rfl, .of_sum ?_ rfl⟩
  show Spells symbols .additive _ (Expr.sub u.chain.expr v.chain.expr)
  have hsum : v.enclosedAfterMinus = true →
      (v.enclosedAfterMinus || (withoutMinus? right).isSome) = true := fun hsum => by rw [hsum]; rfl
  have hmark : ('-', Operator.sub) ∈ termMarks := by decide
  have hminus := hspellsu.sum.plus hmark (hspellsv.enclosed hsum).spells
  rw [differenceText, String.toList_append, String.toList_append, List.append_assoc]
  refine hminus.congr fun ρ => ?_
  rw [Expr.value?_binary, Expr.value?_binary, Chain.expr_enclosed]

theorem quotient (hu : Rendered symbols u) (hv : Rendered symbols v) :
    Rendered symbols (.quotient u v) := by
  intro floating
  obtain ⟨left, hleft, hspellsu⟩ := hu (floating || u.isNumeric)
  obtain ⟨right, hright, hspellsv⟩ := hv (floating || v.isNumeric)
  refine ⟨C.enclosed u.enclosedAsFactor left ++ "/" ++ C.enclosed v.enclosedAsDenominator right,
    by simp only [Term.text, hleft, hright]; rfl, .of_chain ?_ rfl (.inl rfl)⟩
  have hjoin := (hspellsu.enclosed fun hsum => (enclosed_of_sum hsum).1).join .divided
    (hspellsv.enclosed fun hsum => (enclosed_of_sum hsum).2.1)
  rw [String.toList_append, String.toList_append, List.append_assoc]
  exact hjoin

/-- C calls each elementary function by its name. -/
theorem functionOf?_cName (f : Elementary) :
    ∃ g, functionOf? f.cName.toList = some g ∧ g.result? = f.result? := by
  cases f with
  | log => exact ⟨.ln, by decide, rfl⟩
  | exp | ln | sqrt | cbrt | sin | cos | tan | atan | sinh | cosh | tanh | asinh | erf | abs =>
    exact ⟨_, by decide, rfl⟩

theorem isWord_cName (f : Elementary) : isWord f.cName.toList = true := by
  cases f <;> decide

theorem spells_function (f : Elementary) {text : String} {e e' : Expr K}
    (h : Spells symbols .additive text.toList e)
    (hvalue : ∀ ρ, e'.value? ρ = (e.value? ρ).bind f.result?) :
    Spells symbols .primary (f.cName ++ "(" ++ text ++ ")").toList e' := by
  obtain ⟨g, hg, hresult⟩ := functionOf?_cName f
  have hcall := h.call (isWord_cName f) hg fun ρ => by rw [hresult]; exact hvalue ρ
  rw [String.toList_append, String.toList_append, String.toList_append, List.append_assoc,
    List.append_assoc]
  exact hcall

theorem call {name : String} {args : List (Term K)} {f : Elementary}
    (hf : Elementary.lookup? name args.length = some f) (h : ∀ a ∈ args, Rendered symbols a) :
    Rendered symbols (.call name args) := by
  have hlength : args.length = 1 := by
    by_contra hne
    simp [Elementary.lookup?, hne] at hf
  obtain ⟨a, rfl⟩ := List.length_eq_one_iff.mp hlength
  intro floating
  obtain ⟨text, htext, hspells⟩ := h a List.mem_cons_self floating
  refine ⟨f.cName ++ "(" ++ text ++ ")",
    by simp only [Term.text, Term.argTexts, hf, htext]; rfl, .of_primary ?_ rfl⟩
  exact spells_function f hspells.sum fun ρ => Expr.value?_call hf

theorem power (hbase : Rendered symbols base) (hexponent : Rendered symbols exponent) :
    Rendered symbols (.power base exponent) := by
  intro floating
  obtain ⟨text, htext, hspells⟩ := hbase floating
  obtain ⟨text', htext', hspells'⟩ := hexponent floating
  have hpow : Spells symbols .primary ("pow(" ++ text ++ ", " ++ text' ++ ")").toList
      (.pow base.chain.expr exponent.chain.expr) := by
    have hcall := hspells.sum.pow hspells'.sum
    simpa using hcall
  cases exponent with
  | literal n =>
    by_cases hn : eq n half = true
    · refine ⟨"sqrt(" ++ text ++ ")",
        by simp only [Term.text, htext, bind, Except.bind, if_pos hn], .of_primary ?_ rfl⟩
      obtain ⟨hfinite, hreal⟩ := (Valued.eq_iff isFinite_half).mp hn
      refine spells_function .sqrt hspells.sum fun ρ => ?_
      show (Expr.pow base.chain.expr (.num n)).value? ρ = _
      rw [Expr.value?_binary, Expr.value?_num hfinite, hreal, real_half]
      simp only [Option.bind_some, result?_pow_half]
    · have hliteral : literalText floating n = .ok text' := htext'
      exact ⟨_, by simp only [Term.text, htext, hliteral, bind, Except.bind, if_neg hn],
        .of_primary hpow rfl⟩
  | symbol | call | sum | difference | quotient | power | reciprocal | product =>
    refine ⟨_, ?_, .of_primary hpow rfl⟩
    rw [Term.text, htext]
    simp only [bind, Except.bind, htext']

end Rendered

end DensityKernel.C
