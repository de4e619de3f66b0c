import DensityKernel.Proofs.C.Text

/-!
Literals, divisors and products. With them the text of every expression spells
its chain, provided that its literals are finite and read back, its calls
registered and its symbols operands of C (`render_spells`).
-/

namespace DensityKernel.C

open Literal

variable {K : Type} [Literal K] [Valued K] [Spelling K] {symbols : SymbolMap}

/-! ### Divisors -/

theorem spells_divisorText {base : Term K} {text : String} (root : Bool)
    (h : Spelled symbols base text.toList) :
    SpellsChain symbols .unary (divisorText root base text).toList
      (Term.divisorChain root base base.chain) := by
  cases root with
  | true =>
    have hsqrt : Spells symbols .primary ("sqrt(" ++ text ++ ")").toList
        (.call "sqrt" [base.chain.expr]) :=
      Rendered.spells_function .sqrt h.sum fun ρ => Expr.value?_call (by decide)
    exact .single hsqrt.unary
  | false => exact h.enclosed fun hsum => (enclosed_of_sum hsum).2.2.1

variable [SpelledInC K]

theorem spells_float_one : Spells symbols .primary "1.0".toList (.one : Expr K) :=
  spells_one (by decide)

theorem Rendered.reciprocal {root : Bool} {base : Term K} (h : Rendered symbols base) :
    Rendered symbols (.reciprocal root base) := by
  intro floating
  obtain ⟨text, htext, hspells⟩ := h floating
  refine ⟨"1.0/" ++ divisorText root base text, by simp only [Term.text, htext]; rfl,
    .of_chain ?_ rfl (.inr rfl)⟩
  have hjoin := (SpellsChain.single (spells_float_one (K := K)).unary).join .divided
    (spells_divisorText root hspells)
  rw [String.toList_append]
  exact hjoin

/-! ### Literals -/

theorem spells_signed_literal {x : K} {text : String} {floating : Bool} (hx : RoundTrips x)
    (htext : literalText floating x = .ok text) :
    SpellsSigned symbols text.toList (.single (.num x)) := by
  cases hnegative : isNegative x with
  | false => exact .plain (.single (spells_literal hx hnegative htext))
  | true =>
    obtain ⟨t, z, hlist, hspells, hvalue⟩ := spells_negative_literal hx hnegative htext
    rw [hlist]
    exact .minus (.single hspells) rfl hvalue

theorem exists_literalText {x : K} (hx : RoundTrips x) (floating : Bool) :
    ∃ text, literalText floating x = .ok text := by
  obtain ⟨text, -, htext, -⟩ := literalText_spec hx.1 floating
  exact ⟨text, htext⟩

theorem Rendered.literal {x : K} (hx : RoundTrips x) : Rendered symbols (.literal x) := by
  intro floating
  obtain ⟨text, htext⟩ := exists_literalText hx floating
  refine ⟨text, htext, ?_⟩
  cases hnegative : isNegative x with
  | false => exact .of_primary (spells_literal hx hnegative htext) rfl
  | true => exact .of_signed (spells_signed_literal hx htext) (.inl hnegative)

/-! ### Products -/

/-- A factor of a product: its text spells it, and it is no product itself. -/
def FactorRendered (symbols : SymbolMap) : Term K → Prop
  | .literal x => RoundTrips x
  | .reciprocal _ base => Rendered symbols base
  | .product _ => False
  | t => Rendered symbols t

theorem FactorRendered.rendered {t : Term K} (h : FactorRendered symbols t) :
    Rendered symbols t := by
  cases t with
  | literal x => exact .literal h
  | reciprocal root base => exact .reciprocal h
  | product fs => exact h.elim
  | symbol | call | sum | difference | quotient | power => exact h

omit [SpelledInC K] in
theorem divisorTexts_spec {fs : List (Term K)} (h : ∀ f ∈ fs, FactorRendered symbols f)
    (floating : Bool) : ∃ texts, Term.divisorTexts symbols floating fs = .ok texts ∧
      List.Forall₂ (fun t d => SpellsChain symbols .unary (String.toList t) d) texts
        (Term.divisorChains fs) := by
  induction fs with
  | nil => exact ⟨[], rfl, .nil⟩
  | cons f fs ih =>
    obtain ⟨hf, hfs⟩ := List.forall_mem_cons.mp h
    obtain ⟨texts, htexts, hspells⟩ := ih hfs
    cases f with
    | reciprocal root base =>
      obtain ⟨text, htext, hbase⟩ := (show Rendered symbols base from hf) floating
      exact ⟨divisorText root base text :: texts,
        by simp only [Term.divisorTexts, htext, htexts]; rfl,
        .cons (spells_divisorText root hbase) hspells⟩
    | literal | symbol | call | sum | difference | quotient | power | product =>
      exact ⟨texts, htexts, hspells⟩

omit [SpelledInC K] in
/-- The text of a factor in its place has no sign of its own. -/
theorem FactorRendered.spells {f : Term K} {text : String} (h : FactorRendered symbols f)
    (hdivisor : f.isDivisor = false) (hspells : Spelled symbols f text.toList) :
    SpellsChain symbols .primary (enclosed f.enclosedAsFactor text).toList
      (f.chain.enclosed f.enclosedAsFactor) := by
  rw [toList_enclosed]
  cases hwrap : f.enclosedAsFactor with
  | true => exact .single hspells.sum.parens
  | false =>
    refine hspells.factor hwrap hdivisor fun fs hproduct => ?_
    subst hproduct
    exact h

theorem factorTexts_spec {fs : List (Term K)} (h : ∀ f ∈ fs, FactorRendered symbols f)
    (floating : Bool) : ∃ texts, Term.factorTexts symbols floating fs = .ok texts ∧
      List.Forall₂ (fun t d => SpellsChain symbols .primary (String.toList t) d) texts
        (Term.factorChains fs) := by
  induction fs with
  | nil => exact ⟨[], rfl, .nil⟩
  | cons f fs ih =>
    obtain ⟨hf, hfs⟩ := List.forall_mem_cons.mp h
    obtain ⟨texts, htexts, hspells⟩ := ih hfs
    rw [Term.factorTexts, Term.factorChains]
    cases hdivisor : f.isDivisor with
    | true => exact ⟨texts, htexts, hspells⟩
    | false =>
      obtain ⟨text, htext, hf'⟩ := hf.rendered floating
      exact ⟨enclosed f.enclosedAsFactor text :: texts, by rw [htext, htexts]; rfl,
        .cons (hf.spells hdivisor hf') hspells⟩

section Texts

variable {coefficient : Option K} {texts : List String} {cs : List (Chain K)}
  {divisor : Option String} {d : Option (Chain K)}

/-- The coefficient and the factors after it. -/
theorem leadText_spec (floating : Bool) {f : String} {c : Chain K}
    (hx : ∀ x ∈ coefficient, RoundTrips x)
    (hc : SpellsChain symbols .primary f.toList c)
    (hcs : List.Forall₂ (fun t d => SpellsChain symbols .unary (String.toList t) d) texts cs) :
    ∃ lead, leadText floating coefficient = .ok lead ∧
      SpellsSigned symbols (lead ++ String.intercalate "*" (f :: texts)).toList
        (Chain.front coefficient (c :: cs)) := by
  have hfactors : SpellsChain symbols .primary (String.intercalate "*" (f :: texts)).toList
      (c.times cs) := spells_intercalate (fun h => h.join .times) hc hcs
  cases coefficient with
  | none =>
    refine ⟨"", rfl, ?_⟩
    rw [String.empty_append]
    exact .plain hfactors
  | some x =>
    rw [leadText, Chain.front]
    by_cases hone : isOne x = true
    · refine ⟨"", if_pos hone, ?_⟩
      rw [String.empty_append, if_pos hone]
      exact .plain hfactors
    · rw [if_neg hone, if_neg hone]
      by_cases hminus : isMinusOne x = true
      · refine ⟨"-", if_pos hminus, ?_⟩
        rw [String.toList_append, if_pos hminus]
        exact .minus hfactors rfl fun ρ => Expr.value?_negate
      · rw [if_neg hminus, if_neg hminus]
        obtain ⟨text, htext⟩ := exists_literalText (hx x rfl) floating
        refine ⟨text ++ "*", by rw [htext]; rfl, ?_⟩
        have hliteral : SpellsSigned symbols text.toList (.single (.num x)) :=
          spells_signed_literal (hx x rfl) htext
        rw [← String.intercalate_cons_cons]
        exact spells_intercalate (fun h => h.join .times) hliteral (.cons hc.unary hcs)

/-- The text of one in front of a slash is also that of a literal one, and with a
minus that of a literal minus one. -/
theorem spells_unit {x : K} (hx : RoundTrips x) :
    (isOne x = true → SpellsSigned symbols "1.0".toList (.single (.num x))) ∧
      (isMinusOne x = true → SpellsSigned symbols "-1.0".toList (.single (.num x))) := by
  have hone : ∀ ρ, (Expr.one : Expr K).value? ρ = some 1 := fun ρ => by
    rw [Expr.one, Expr.value?_num isFinite_one, real_one]
  constructor
  · intro h
    refine .plain (.single (spells_float_one.congr fun ρ => ?_))
    rw [hone, Expr.value?_num hx.1, (isOne_iff.mp h).2]
  · intro h
    refine .minus (d := .single .one) (.single spells_float_one) rfl fun ρ => ?_
    show (Expr.num x).value? ρ = ((Expr.one : Expr K).value? ρ).map (- ·)
    rw [hone, Expr.value?_num hx.1, (isMinusOne_iff.mp h).2]
    rfl

omit [SpelledInC K] in
theorem spells_divided {front t : String} {c d : Chain K} (hfront : SpellsSigned symbols front.toList c)
    (hd : SpellsChain symbols .unary t.toList d) :
    SpellsSigned symbols (front ++ "/" ++ t).toList (c.dividedBy (some d)) := by
  have hsome : Option.Rel (fun t d => SpellsChain symbols .unary (String.toList t) d)
      (some t) (some d) := .some hd
  have h := spells_dividedBy hfront hsome
  rwa [Option.map_some, Option.getD_some, ← String.append_assoc] at h

/-- The text of a product without factors is that of its coefficient. -/
theorem spells_coefficient (hx : ∀ x ∈ coefficient, RoundTrips x) (floating : Bool)
    (hd : Option.Rel (fun t d => SpellsChain symbols .unary (String.toList t) d) divisor d) :
    ∃ text, productText floating coefficient [] divisor = .ok text ∧
      SpellsSigned symbols text.toList ((Chain.front coefficient []).dividedBy d) := by
  have hunit : "1.0/" = "1.0" ++ "/" := by decide
  have hminusUnit : "-1.0/" = "-1.0" ++ "/" := by decide
  cases coefficient with
  | none =>
    cases hd with
    | none => exact ⟨_, rfl, .plain (.single (spells_one (by decide)))⟩
    | @some t d hd =>
      refine ⟨"1.0/" ++ t, rfl, ?_⟩
      rw [hunit]
      exact spells_divided (.plain (.single spells_float_one)) hd
  | some x =>
    have hx := hx x rfl
    cases hd with
    | none =>
      obtain ⟨text, htext⟩ := exists_literalText hx floating
      exact ⟨text, htext, spells_signed_literal hx htext⟩
    | @some t d hd =>
      rw [productText]
      by_cases hminus : isMinusOne x = true
      · rw [if_pos hminus]
        refine ⟨"-1.0/" ++ t, rfl, ?_⟩
        rw [hminusUnit]
        exact spells_divided ((spells_unit hx).2 hminus) hd
      · rw [if_neg hminus]
        by_cases hone : isOne x = true
        · rw [if_pos hone]
          refine ⟨"1.0/" ++ t, rfl, ?_⟩
          rw [hunit]
          exact spells_divided ((spells_unit hx).1 hone) hd
        · rw [if_neg hone]
          obtain ⟨text, htext⟩ := exists_literalText hx true
          have hfloat : floatText x = .ok text := htext
          refine ⟨text ++ "/" ++ t, by rw [hfloat]; rfl, ?_⟩
          exact spells_divided (spells_signed_literal hx htext) hd

theorem productText_spec (hx : ∀ x ∈ coefficient, RoundTrips x)
    (hcs : List.Forall₂ (fun t d => SpellsChain symbols .primary (String.toList t) d) texts cs)
    (hd : Option.Rel (fun t d => SpellsChain symbols .unary (String.toList t) d) divisor d)
    (floating : Bool) : ∃ text, productText floating coefficient texts divisor = .ok text ∧
      SpellsSigned symbols text.toList ((Chain.front coefficient cs).dividedBy d) := by
  cases hcs with
  | nil => exact spells_coefficient hx floating hd
  | cons hc hcs =>
    obtain ⟨lead, hlead, hspells⟩ := leadText_spec floating hx hc
      (hcs.imp fun _ _ h => h.unary)
    exact ⟨_, by rw [productText, hlead]; rfl, spells_dividedBy hspells hd⟩

end Texts

omit [SpelledInC K] in
/-- The coefficient of a product is read back, and the other factors are rendered. -/
theorem splitCoefficient_spec {fs : List (Term K)} (h : ∀ f ∈ fs, FactorRendered symbols f) :
    (∀ x ∈ (Term.splitCoefficient fs).1, RoundTrips x) ∧
      ∀ f ∈ (Term.splitCoefficient fs).2, FactorRendered symbols f :=
  ⟨fun x hx => h (.literal x) (Term.literal_mem_of_mem_splitCoefficient hx),
    fun f hf => h f (Term.mem_of_mem_splitCoefficient hf)⟩

theorem Rendered.product {fs : List (Term K)} (h : ∀ f ∈ fs, FactorRendered symbols f) :
    Rendered symbols (.product fs) := by
  intro floating
  obtain ⟨hcoefficient, hrest⟩ := splitCoefficient_spec h
  obtain ⟨divisors, hdivisors, hspellsDivisors⟩ := divisorTexts_spec h floating
  obtain ⟨factors, hfactors, hspellsFactors⟩ := factorTexts_spec hrest
    (floating || Term.dividesLiterals (Term.splitCoefficient fs).2)
  obtain ⟨text, htext, hspells⟩ := productText_spec hcoefficient hspellsFactors
    (spells_joinDivisors hspellsDivisors)
    (floating || Term.dividesLiterals (Term.splitCoefficient fs).2)
  refine ⟨text, ?_, .of_signed ?_ (.inr ⟨fs, rfl⟩)⟩
  · rw [Term.text_product, hdivisors]
    simp only [bind, Except.bind, hfactors, htext]
  · rwa [Term.chain_product]

/-! ### Expressions -/

mutual

/-- The literals are finite and read back, the calls registered, and the
symbols operands of C. -/
def Renderable (symbols : SymbolMap) : Expr K → Prop
  | .num x => RoundTrips x
  | .sym name => IsOperand (symbols.resolve name).toList
  | .call name args =>
    (∃ f, Elementary.lookup? name args.length = some f) ∧ AllRenderable symbols args
  | .binary _ u v => Renderable symbols u ∧ Renderable symbols v

def AllRenderable (symbols : SymbolMap) : List (Expr K) → Prop
  | [] => True
  | a :: args => Renderable symbols a ∧ AllRenderable symbols args

end

omit [SpelledInC K] in
theorem allRenderable_iff {args : List (Expr K)} :
    AllRenderable symbols args ↔ ∀ a ∈ args, Renderable symbols a := by
  induction args with
  | nil => exact ⟨fun _ => nofun, fun _ => trivial⟩
  | cons a args ih => rw [AllRenderable, ih, List.forall_mem_cons]

theorem rendered_of_factors {t : Term K} (h : ∀ f ∈ t.factors, FactorRendered symbols f) :
    Rendered symbols t := by
  cases t with
  | product fs => exact .product h
  | literal | symbol | call | sum | difference | quotient | power | reciprocal =>
    exact (h _ List.mem_cons_self).rendered

omit [SpelledInC K] in
/-- A reciprocal or a power is a single factor. -/
theorem factorRendered_pow {base exponent : Term K} (hbase : Rendered symbols base)
    (hexponent : Rendered symbols exponent) :
    ∀ f ∈ (Term.pow base exponent).factors, FactorRendered symbols f := by
  have hpower : ∀ f ∈ (Term.power base exponent).factors, FactorRendered symbols f := by
    intro f hf
    obtain rfl := List.mem_singleton.mp hf
    exact hbase.power hexponent
  have hreciprocal : ∀ root, ∀ f ∈ (Term.reciprocal root base).factors,
      FactorRendered symbols f := by
    intro root f hf
    obtain rfl := List.mem_singleton.mp hf
    exact hbase
  cases exponent with
  | literal n =>
    rw [Term.pow]
    split
    · exact hreciprocal false
    · split
      · exact hreciprocal true
      · exact hpower
  | symbol | call | sum | difference | quotient | power | reciprocal | product => exact hpower

/-- **The factors of a rendered expression are rendered.** -/
theorem factorRendered_ofExpr {e : Expr K} (h : Renderable symbols e) :
    ∀ f ∈ (Term.ofExpr e).factors, FactorRendered symbols f := by
  induction e with
  | num x =>
    intro f hf
    obtain rfl := List.mem_singleton.mp hf
    exact h
  | sym name =>
    intro f hf
    obtain rfl := List.mem_singleton.mp hf
    exact Rendered.symbol h
  | call name args ih =>
    intro f hf
    obtain rfl := List.mem_singleton.mp hf
    obtain ⟨⟨g, hg⟩, hargs⟩ := h
    have hlookup : Elementary.lookup? name (args.map Term.ofExpr).length = some g := by
      rwa [List.length_map]
    have hrendered : ∀ a ∈ args.map Term.ofExpr, Rendered symbols a := by
      intro a ha
      obtain ⟨u, hu, rfl⟩ := List.mem_map.mp ha
      exact rendered_of_factors (ih u hu (allRenderable_iff.mp hargs u hu))
    show Rendered symbols (.call name (Term.ofExprs args))
    rw [Term.ofExprs_eq_map]
    exact .call hlookup hrendered
  | binary op u v ihu ihv =>
    obtain ⟨hu, hv⟩ := h
    have hu' := rendered_of_factors (ihu hu)
    have hv' := rendered_of_factors (ihv hv)
    cases op with
    | add =>
      intro f hf
      obtain rfl := List.mem_singleton.mp hf
      exact hu'.sum hv'
    | sub =>
      intro f hf
      obtain rfl := List.mem_singleton.mp hf
      exact hu'.difference hv'
    | mul =>
      intro f hf
      rcases List.mem_append.mp hf with hf | hf
      · exact ihu hu f hf
      · exact ihv hv f hf
    | div =>
      intro f hf
      obtain rfl := List.mem_singleton.mp hf
      exact hu'.quotient hv'
    | pow => exact factorRendered_pow hu' hv'

/-- **Rendering succeeds, and C reads the text as the grouped expression.** -/
theorem render_spells {e : Expr K} (h : Renderable symbols e) :
    ∃ text, render symbols e = .ok text ∧ Spells symbols .additive text.toList (asRead e) := by
  obtain ⟨text, htext, hspells⟩ := rendered_of_factors (factorRendered_ofExpr h) false
  exact ⟨text, htext, hspells.sum⟩

end DensityKernel.C
