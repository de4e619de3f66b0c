import DensityKernel.Proofs.NormalForm.Settling
import DensityKernel.Proofs.NormalForm.Lighter

/-!
What a pass makes of a tree is lighter, or it is a tree that passes leave alone. At every node
there is a rule that makes the node lighter, or the node is a normal form already as far as its
operands are; a pass that changes a tree without making it lighter only brings factors and terms
into their order, and does this everywhere at once.
-/

namespace DensityKernel.NormalForm

open DensityKernel.Expr

variable {K : Type} [Literal K] [DecidableEq K] [Spelling K]

/-- A tree that passes leave alone, also where its factors and terms become those of a node around
it. -/
structure Normal (domain : Domain) (e : Expr K) : Prop where
  fixed : pass domain e = e
  arranged : arranged e = e
  factors : ∀ f ∈ nonLiterals (factors e), pass domain f = f ∧ TidyParts domain f
  parts : TidyParts domain e

/-- A tree is lighter than another one, or it is at most as heavy, and normal under a condition. -/
def Advances (domain : Domain) (condition : Prop) (e r : Expr K) : Prop :=
  r.weight.Below e.weight ∨ r.weight.AtMost e.weight ∧ (condition → Normal domain r)

variable {domain : Domain} {op : Operator} {u v e r : Expr K}

/-! ### Trees that are normal -/

theorem normal_num (domain : Domain) (x : K) : Normal domain (.num x) where
  fixed := rfl
  arranged := rfl
  factors := nofun
  parts := by
    intro t ht
    obtain rfl := List.mem_singleton.mp ht
    exact nofun

omit [DecidableEq K] [Spelling K] in
/-- A product that is a sum is its only factor. -/
theorem eq_of_isSum_buildProduct {c : K} {fs : List (Expr K)}
    (h : (buildProduct c fs).isSum = true) : ∃ f ∈ fs, buildProduct c fs = f := by
  induction fs using List.reverseRecOn with
  | nil => cases h
  | append_singleton fs f _ =>
    by_cases hfs : fs = []
    · subst hfs
      refine ⟨f, List.mem_singleton_self f, ?_⟩
      rw [List.nil_append, buildProduct, List.foldl_nil] at h ⊢
      split_ifs at h ⊢
      · rfl
      · cases h
    · rw [buildProduct_concat hfs] at h
      cases h

/-- A node that its rules leave as it is, over operands that a pass leaves as they are. -/
theorem pass_of_fixed (hu : Normal domain u) (hv : Normal domain v)
    (h : applyRules (rules domain op) (.binary op u v) = .binary op u v) :
    pass domain (.binary op u v) = .binary op u v := by
  rw [pass, hu.fixed, hv.fixed, h]

omit [DecidableEq K] [Spelling K] in
/-- Signs do not change what the terms multiply. -/
theorem rests_terms (sign sign' : K) (e : Expr K) :
    (terms sign e).map Term.rest = (terms sign' e).map Term.rest := by
  induction e generalizing sign sign' with
  | num | sym | call => rfl
  | binary op u v ihu ihv =>
    cases op with
    | add => rw [terms, terms, List.map_append, List.map_append, ihu sign sign', ihv sign sign']
    | sub =>
      rw [terms, terms, List.map_append, List.map_append, ihu sign sign', ihv (-sign) (-sign')]
    | mul =>
      show [(Term.ofExpr sign (.mul u v)).rest] = [(Term.ofExpr sign' (.mul u v)).rest]
      rw [ofExpr_mul, ofExpr_mul]
    | div | pow => rfl

theorem tidyParts_sum (hop : op = .add ∨ op = .sub) (hu : Normal domain u) (hv : Normal domain v) :
    TidyParts domain (.binary op u v) := by
  intro t ht r hr
  rcases hop with rfl | rfl <;> rcases List.mem_append.mp ht with ht | ht
  · exact hu.parts t ht r hr
  · exact hv.parts t ht r hr
  · exact hu.parts t ht r hr
  · have hmem : t.rest ∈ (terms Literal.one v).map Term.rest := by
      rw [rests_terms Literal.one (-Literal.one)]
      exact List.mem_map_of_mem ht
    obtain ⟨t', ht', heq⟩ := List.mem_map.mp hmem
    exact hv.parts t' ht' r (heq ▸ hr)

section Neutral

variable [Neutral K]

/-- Neither sum nor product. -/
theorem normal_single (hfixed : pass domain e = e) (htidy : TidyFactor e)
    (hterms : terms Literal.one e = [⟨Literal.one, some e⟩]) (harranged : arranged e = e) :
    Normal domain e := by
  have hparts : TidyParts domain e := by
    intro t ht r hr
    rw [hterms] at ht
    obtain rfl := List.mem_singleton.mp ht
    obtain rfl := Option.some.inj hr
    refine ⟨[e], by simp, ⟨List.forall_mem_singleton.mpr htidy, List.pairwise_singleton _ _⟩,
      List.forall_mem_singleton.mpr hfixed, ?_⟩
    rw [buildProduct, if_pos Neutral.isOne_one, List.foldl_nil]
  refine ⟨hfixed, harranged, fun f hf => ?_, hparts⟩
  rw [htidy.alone] at hf
  obtain rfl := List.mem_singleton.mp (List.mem_filter.mp hf).1
  exact ⟨hfixed, hparts⟩

theorem normal_of_collected (h : CollectedAs domain r) : Normal domain r := by
  obtain ⟨ts, rfl, hlength, htidy⟩ := h
  have hsum := isSum_buildSum hlength
  have hparts : TidyParts domain (buildSum ts) := by
    intro t ht r hr
    rw [htidy.terms_buildSum (List.ne_nil_of_length_pos (by omega))] at ht
    exact htidy.part t ht r hr
  have hfixed := pass_buildSum htidy hlength
  generalize buildSum ts = r at hsum hparts hfixed
  cases r with
  | num | sym | call => cases hsum
  | binary op u v =>
    cases op with
    | mul | div | pow => cases hsum
    | add | sub =>
      refine ⟨hfixed, rfl, fun f hf => ?_, hparts⟩
      obtain rfl := List.mem_singleton.mp (List.mem_filter.mp hf).1
      exact ⟨hfixed, hparts⟩

theorem normal_of_arranged (h : ArrangedFrom (.mul u v) r) (hu : Normal domain u)
    (hv : Normal domain v) : Normal domain r := by
  obtain ⟨c, fs, rfl, hne, hc, htidy, hmem⟩ := h
  have hfactors : ∀ f ∈ fs, pass domain f = f ∧ TidyParts domain f := by
    intro f hf
    obtain ⟨hf, hliteral⟩ := List.mem_filter.mp (hmem f hf)
    rcases List.mem_append.mp hf with hf | hf
    · exact hu.factors f (List.mem_filter.mpr ⟨hf, hliteral⟩)
    · exact hv.factors f (List.mem_filter.mpr ⟨hf, hliteral⟩)
  have hbuilt : factors (buildProduct c fs) = lead c ++ fs := factors_buildProduct hne htidy.alone
  have hfixed := pass_buildProduct htidy hne hc fun f hf => (hfactors f hf).1
  refine ⟨hfixed, ?_, ?_, ?_⟩
  · unfold arranged
    split
    · rename_i heq
      exact (congrArg orderedProduct heq.symm).trans (orderedProduct_of_factors htidy hc hbuilt)
    · rfl
  · rw [hbuilt, nonLiterals_lead htidy.nonLiteral]
    exact hfactors
  · by_cases hsum : (buildProduct c fs).isSum = true
    · obtain ⟨f, hf, heq⟩ := eq_of_isSum_buildProduct hsum
      rw [heq]
      exact (hfactors f hf).2
    · intro t ht r hr
      rw [terms_of_factors htidy hne hbuilt (Bool.eq_false_iff.mpr hsum)] at ht
      obtain rfl := List.mem_singleton.mp ht
      obtain rfl := Option.some.inj hr
      exact ⟨fs, hne, htidy, fun f hf => (hfactors f hf).1, rfl⟩

omit [DecidableEq K] in
/-- A power with an exponent other than zero and one stays as it is. -/
theorem tidyFactor_pow (hone : ¬v.isOne = true) (hzero : ¬v.isZero = true) :
    TidyFactor (.pow u v) := by
  cases v with
  | num n => exact ⟨rfl, rfl, if_neg hone, Bool.eq_false_iff.mpr hzero⟩
  | sym | call | binary => exact ⟨rfl, rfl, if_pos Neutral.isOne_one, Neutral.isZero_one⟩

end Neutral

/-! ### Nodes -/

theorem advances_fold {p : Prop}
    (h : foldLiterals (.binary op u v) = none → Advances domain p (.binary op u v) r) :
    Advances domain p (.binary op u v) ((foldLiterals (.binary op u v)).getD r) := by
  rcases foldLiterals_cases op u v with hnone | ⟨x, y, -, -, -, hsome⟩
  · rw [hnone]
    exact h hnone
  · rw [hsome]
    exact .inl (literal_below _ op _ _)

theorem Advances.atMost {p : Prop} (h : Advances domain p e r) : r.weight.AtMost e.weight := by
  rcases h with hbelow | ⟨hle, -⟩
  · exact hbelow.atMost
  · exact hle

/-- The arguments of a call, like its operands, get lighter together or stay as they are. -/
theorem advances_args {args : List (Expr K)}
    (h : ∀ a ∈ args, Advances domain True a (pass domain a)) :
    weightArgs (passArgs domain args) < weightArgs args ∨
      weightArgs (passArgs domain args) ≤ weightArgs args ∧
        passArgs domain (passArgs domain args) = passArgs domain args := by
  induction args with
  | nil => exact .inr ⟨le_rfl, rfl⟩
  | cons a args ih =>
    obtain ⟨ha, hargs⟩ := List.forall_mem_cons.mp h
    have hle := ha.atMost.bare
    rw [passArgs, weightArgs, weightArgs, passArgs]
    rcases ih hargs with hlt | ⟨hle', hfixed⟩
    · exact .inl (by omega)
    rcases ha with hbelow | ⟨-, hnormal⟩
    · have hlt := hbelow.bare
      exact .inl (by omega)
    · exact .inr ⟨by omega, by rw [(hnormal trivial).fixed, hfixed]⟩

variable [Neutral K]

theorem advances_orderedSum (hop : op = .add ∨ op = .sub) (u v : Expr K) :
    Advances domain (Normal domain u ∧ Normal domain v) (.binary op u v)
      (orderedSum (.binary op u v)) := by
  have hsum : (Expr.binary op u v).isSum = true := by
    rcases hop with rfl | rfl <;> rfl
  rcases orderedSum_weight hsum with hbelow | ⟨hle, hcollected⟩
  · exact .inl hbelow
  · exact .inr ⟨hle, fun h =>
      normal_of_collected (hcollected domain (tidyParts_sum hop h.1 h.2))⟩

theorem advances_add (u v : Expr K) :
    Advances domain (Normal domain u ∧ Normal domain v) (.add u v)
      (applyRules (rules domain .add) (.add u v)) := by
  rw [applyRules_add]
  refine advances_fold fun _ => ?_
  split_ifs
  · exact .inl ((collected_atMost v).trans_below (Weight.right_below_sum u.weight v.weight))
  · exact .inl ((collected_atMost u).trans_below (Weight.left_below_sum u.weight v.weight))
  · exact advances_orderedSum (.inl rfl) u v

theorem advances_sub (u v : Expr K) :
    Advances domain (Normal domain u ∧ Normal domain v) (.sub u v)
      (applyRules (rules domain .sub) (.sub u v)) := by
  rw [applyRules_sub]
  refine advances_fold fun _ => ?_
  split_ifs
  · exact .inl ((collected_atMost u).trans_below (Weight.left_below_sum u.weight v.weight))
  · refine .inl ?_
    have hu := u.weight.bounds
    have hv := v.weight.bounds
    rw [Expr.negate, weight_binary, weight_binary, weight_num]
    constructor <;>
      simp only [Weight.ofOperator, Weight.sum, Weight.product, Weight.literal] <;> omega
  · exact .inl (literal_below _ .sub _ _)
  · exact advances_orderedSum (.inr rfl) u v

theorem advances_mul (u v : Expr K) :
    Advances domain (Normal domain u ∧ Normal domain v) (.mul u v)
      (applyRules (rules domain .mul) (.mul u v)) := by
  rw [applyRules_mul]
  refine advances_fold fun _ => ?_
  split_ifs
  · exact .inl (literal_below _ .mul _ _)
  · exact .inr ⟨(arranged_atMost v).trans (Weight.right_atMost_product u.weight v.weight),
      fun h => h.2.arranged.symm ▸ h.2⟩
  · exact .inr ⟨(arranged_atMost u).trans (Weight.left_atMost_product u.weight v.weight),
      fun h => h.1.arranged.symm ▸ h.1⟩
  · rcases orderedProduct_weight u v with hbelow | ⟨hle, harranged⟩
    · exact .inl hbelow
    · exact .inr ⟨hle, fun h => normal_of_arranged harranged h.1 h.2⟩

theorem advances_div (u v : Expr K) :
    Advances domain (Normal domain u ∧ Normal domain v) (.div u v)
      (applyRules (rules domain .div) (.div u v)) := by
  have hbelow : u.weight.Below (Expr.div u v).weight := by
    have hu := u.weight.bounds
    rw [weight_binary]
    constructor <;> simp only [Weight.ofOperator, Weight.single] <;> omega
  rw [applyRules_div]
  refine advances_fold fun hnone => ?_
  split_ifs with hone hzero
  · rcases inverted_cases u with hlighter | heq
    · exact .inl (hlighter.atMost.trans_below hbelow)
    · rw [heq]
      exact .inl hbelow
  · exact .inl (literal_below _ .div _ _)
  · rcases inverted_cases (.div u v) with hlighter | heq
    · exact .inl hlighter
    · rw [heq]
      refine .inr ⟨.refl _, fun hnormal => normal_single ?_ ?_ rfl rfl⟩
      · obtain ⟨hu, hv⟩ := hnormal
        exact pass_of_fixed hu hv (by rw [applyRules_div, hnone, Option.getD_none,
          if_neg hone, if_neg hzero, heq])
      · exact ⟨rfl, rfl, if_pos Neutral.isOne_one, Neutral.isZero_one⟩

theorem advances_pow (u v : Expr K) :
    Advances domain (Normal domain u ∧ Normal domain v) (.pow u v)
      (applyRules (rules domain .pow) (.pow u v)) := by
  have hbelow : u.weight.Below (Expr.pow u v).weight := by
    have hu := u.weight.bounds
    have hv := v.weight.bounds
    rw [weight_binary]
    constructor <;> simp only [Weight.ofOperator, Weight.single] <;> omega
  rw [applyRules_pow]
  refine advances_fold fun hnone => ?_
  split_ifs with hone hone'
  · rcases raised_cases domain u with hlighter | heq
    · exact .inl (hlighter.atMost.trans_below hbelow)
    · rw [heq]
      exact .inl hbelow
  · exact .inl (literal_below _ .pow _ _)
  · rcases raised_cases domain (.pow u v) with hlighter | heq
    · exact .inl hlighter
    · rw [heq]
      refine .inr ⟨.refl _, fun hnormal => normal_single ?_ ?_ rfl rfl⟩
      · obtain ⟨hu, hv⟩ := hnormal
        exact pass_of_fixed hu hv (by rw [applyRules_pow, hnone, Option.getD_none,
          if_neg hone, if_neg hone', heq])
      · exact tidyFactor_pow hone fun hzero => hone' (by rw [hzero, Bool.true_or])

theorem advances_node (op : Operator) (u v : Expr K) :
    Advances domain (Normal domain u ∧ Normal domain v) (.binary op u v)
      (applyRules (rules domain op) (.binary op u v)) := by
  cases op with
  | add => exact advances_add u v
  | sub => exact advances_sub u v
  | mul => exact advances_mul u v
  | div => exact advances_div u v
  | pow => exact advances_pow u v

/-! ### Trees -/

theorem advances_call {name : String} {args : List (Expr K)}
    (h : ∀ a ∈ args, Advances domain True a (pass domain a)) :
    Advances domain True (.call name args) (pass domain (.call name args)) := by
  have hargs := advances_args h
  have hle : (Expr.call name (passArgs domain args)).weight.AtMost
      (Expr.call name args).weight := by
    simp only [weight]
    constructor <;> simp only [Weight.single] <;> omega
  rw [pass_call]
  cases happlied : foldCall (.call name (passArgs domain args)) with
  | some r => exact .inl ((foldCall_below happlied).trans_atMost hle)
  | none =>
    rw [Option.getD_none]
    rcases hargs with hlt | ⟨-, hfixed⟩
    · refine .inl ?_
      simp only [weight]
      constructor <;> simp only [Weight.single] <;> omega
    · refine .inr ⟨hle, fun _ => normal_single ?_
        ⟨rfl, rfl, if_pos Neutral.isOne_one, Neutral.isZero_one⟩ rfl rfl⟩
      rw [pass_call, hfixed, happlied, Option.getD_none]

/-- **Every pass makes a tree lighter or normal.** -/
theorem advances_pass (e : Expr K) : Advances domain True e (pass domain e) := by
  induction e with
  | num x => exact .inr ⟨.refl _, fun _ => normal_num domain x⟩
  | sym name =>
    exact .inr ⟨.refl _, fun _ => normal_single rfl
      ⟨rfl, rfl, if_pos Neutral.isOne_one, Neutral.isZero_one⟩ rfl rfl⟩
  | call name args ih => exact advances_call ih
  | binary op u v ihu ihv =>
    have hnode : Advances domain (Normal domain (pass domain u) ∧ Normal domain (pass domain v))
        (.binary op (pass domain u) (pass domain v)) (pass domain (.binary op u v)) :=
      advances_node op _ _
    have hlighter : (pass domain u).weight.Below u.weight ∨
        (pass domain v).weight.Below v.weight →
          (pass domain (.binary op u v)).weight.Below (Expr.binary op u v).weight := by
      intro hbelow
      have hoperands := Weight.ofOperator_below op ihu.atMost ihv.atMost hbelow
      rw [← weight_binary, ← weight_binary] at hoperands
      exact hnode.atMost.trans_below hoperands
    have hoperands := Weight.ofOperator_atMost op ihu.atMost ihv.atMost
    rw [← weight_binary, ← weight_binary] at hoperands
    rcases ihu with hu | ⟨-, hu⟩
    · exact .inl (hlighter (.inl hu))
    rcases ihv with hv | ⟨-, hv⟩
    · exact .inl (hlighter (.inr hv))
    rcases hnode with hlt | ⟨hle, hnormal⟩
    · exact .inl (hlt.trans_atMost hoperands)
    · exact .inr ⟨hle.trans hoperands, fun _ => hnormal ⟨hu trivial, hv trivial⟩⟩

/-- **Passes settle**: each but the last makes the tree lighter. -/
theorem settles_pass (domain : Domain) : Settles (pass (K := K) domain) fun e => e.weight.bare where
  le e := (advances_pass e).atMost.bare
  fixed e heq := by
    rcases (advances_pass e : Advances domain True e (pass domain e)) with hlt | ⟨-, hnormal⟩
    · exact absurd heq hlt.bare.ne
    · exact (hnormal trivial).fixed

end DensityKernel.NormalForm
