import DensityKernel.Proofs.NormalForm.Factors
import DensityKernel.Proofs.NormalForm.Nodes
import DensityKernel.Proofs.NormalForm.Terms

/-!
Products and sums that are in order. Factors with different bases, sorted by the texts of these,
are put together to the product that they come from (`orderedProduct_of_factors`), and so are
terms with different rests (`orderedSum_of_terms`). A pass rebuilds such a tree factor by factor
and term by term, so it leaves the tree as it is, although it does not leave all subtrees as they
are: the term `2 * (x * y)` of a sum is taken for `2 * x * y` and written as before
(`pass_buildProduct`, `pass_buildSum`).
-/

namespace DensityKernel.NormalForm

open DensityKernel.Expr

/-- Zero, one and minus one are neutral operands, exactly. -/
class Neutral (K : Type) [Literal K] : Prop where
  isOne_one : Literal.isOne (Literal.one : K) = true
  eq_one : ∀ {x : K}, Literal.isOne x = true → x = Literal.one
  isZero_one : Literal.isZero (Literal.one : K) = false
  isZero_zero : Literal.isZero (Literal.zero : K) = true
  one_mul : ∀ x : K, Literal.one * x = x
  zero_add : ∀ {x : K}, Literal.isZero x = false → Literal.zero + x = x
  neg_neg : ∀ x : K, - -x = x
  minus_one_mul_neg : ∀ {x : K}, Literal.isNegative x = true → -Literal.one * -x = x
  isZero_neg : ∀ x : K, Literal.isZero (-x) = Literal.isZero x
  cancels_of_isZero : ∀ {x : K}, Literal.isZero x = true →
    Literal.cancels x (Literal.magnitude x) = true

/-! ### Building products -/

section Building

variable {K : Type}

theorem sortByText_of_pairwise {α : Type} {entries : List (String × α)}
    (h : entries.Pairwise fun a b => a.1 ≤ b.1) : sortByText entries = entries.map (·.2) := by
  rw [sortByText, List.mergeSort_of_pairwise]
  exact h.imp fun hle => decide_eq_true hle

theorem factors_foldl {fs : List (Expr K)} (h : ∀ f ∈ fs, factors f = [f]) (u : Expr K) :
    factors (fs.foldl .mul u) = factors u ++ fs := by
  induction fs generalizing u with
  | nil => simp
  | cons f fs ih =>
    obtain ⟨hf, hfs⟩ := List.forall_mem_cons.mp h
    rw [List.foldl_cons, ih hfs, factors, hf, List.append_assoc, List.singleton_append]

variable [Literal K] {fs : List (Expr K)} {g : Expr K} {c : K}

/-- The coefficient in front of a product, unless it is one. -/
def lead (c : K) : List (Expr K) :=
  if Literal.isOne c then [] else [.num c]

theorem factors_buildProduct (hne : fs ≠ []) (h : ∀ f ∈ fs, factors f = [f]) :
    factors (buildProduct c fs) = lead c ++ fs := by
  obtain ⟨f, fs, rfl⟩ := List.exists_cons_of_ne_nil hne
  obtain ⟨hf, hfs⟩ := List.forall_mem_cons.mp h
  rw [buildProduct, factors_foldl hfs, lead]
  split_ifs <;> simp [factors, hf]

theorem buildProduct_concat (hne : fs ≠ []) :
    buildProduct c (fs ++ [g]) = .mul (buildProduct c fs) g := by
  obtain ⟨f, fs, rfl⟩ := List.exists_cons_of_ne_nil hne
  rw [List.cons_append, buildProduct, List.foldl_append]
  rfl

theorem buildProduct_of_isOne [Neutral K] (hne : fs ≠ []) (hc : Literal.isOne c = true) :
    buildProduct c fs = buildProduct Literal.one fs := by
  obtain ⟨f, fs, rfl⟩ := List.exists_cons_of_ne_nil hne
  rw [buildProduct, buildProduct, if_pos hc, if_pos Neutral.isOne_one]

theorem nonLiterals_lead (h : ∀ f ∈ fs, f.literal? = none) : nonLiterals (lead c ++ fs) = fs := by
  have hlead : nonLiterals (lead c) = [] := by
    rw [lead]
    split_ifs <;> rfl
  rw [nonLiterals, List.filter_append, ← nonLiterals, ← nonLiterals, hlead, List.nil_append]
  exact List.filter_eq_self.mpr fun f hf => by rw [h f hf]; rfl

theorem coefficient_lead (h : ∀ f ∈ fs, f.literal? = none) (start : K) :
    coefficient start (lead c ++ fs) = if Literal.isOne c then start else start * c := by
  have hfs : fs.filterMap literal? = [] := List.filterMap_eq_nil_iff.mpr h
  rw [coefficient, List.filterMap_append, hfs, List.append_nil, lead]
  split_ifs <;> rfl

/-- What is no literal is no zero and no one either. -/
theorem not_neutral {e : Expr K} (h : e.literal? = none) : e.isZero = false ∧ e.isOne = false := by
  cases e with
  | num x => cases h
  | sym | call | binary => exact ⟨rfl, rfl⟩

/-- A product with a factor that is no literal is none. -/
theorem literal?_buildProduct (hne : fs ≠ []) (h : ∀ f ∈ fs, f.literal? = none) :
    (buildProduct c fs).literal? = none := by
  induction fs using List.reverseRecOn with
  | nil => exact absurd rfl hne
  | append_singleton fs f _ =>
    by_cases hfs : fs = []
    · subst hfs
      rw [List.nil_append, buildProduct, List.foldl_nil]
      split_ifs
      · exact h f (by simp)
      · rfl
    · rw [buildProduct_concat hfs]
      rfl

end Building

/-! ### Factors in order -/

section Factors

variable {K : Type} [Literal K] [Spelling K]

/-- The group of a single factor. -/
def powerGroup (f : Expr K) : PowerGroup K :=
  ⟨(splitPower f).1, (splitPower f).1.text, (splitPower f).2⟩

/-- A factor that stays as it is when it is alone with its base. -/
structure TidyFactor (f : Expr K) : Prop where
  alone : factors f = [f]
  nonLiteral : f.literal? = none
  factor : (powerGroup f).factor = f
  exponent : Literal.isZero (powerGroup f).exponent = false

/-- Factors with different bases, sorted by the texts of these. -/
structure TidyFactors (fs : List (Expr K)) : Prop where
  each : ∀ f ∈ fs, TidyFactor f
  ordered : fs.Pairwise fun f g =>
    (powerGroup f).text ≤ (powerGroup g).text ∧ (powerGroup f).base ≠ (powerGroup g).base

variable {fs : List (Expr K)} {groups : List (PowerGroup K)} {new : PowerGroup K} {e f g : Expr K}
  {c : K}

theorem TidyFactors.alone (h : TidyFactors fs) : ∀ f ∈ fs, factors f = [f] :=
  fun f hf => (h.each f hf).alone

theorem TidyFactors.nonLiteral (h : TidyFactors fs) : ∀ f ∈ fs, f.literal? = none :=
  fun f hf => (h.each f hf).nonLiteral

theorem TidyFactors.of_concat (h : TidyFactors (fs ++ [g])) : TidyFactors fs :=
  ⟨fun f hf => h.each f (List.mem_append_left _ hf), (List.pairwise_append.mp h.ordered).1⟩

variable [DecidableEq K]

theorem gatherPowers_concat (fs : List (Expr K)) (f : Expr K) :
    gatherPowers (fs ++ [f]) = addPower (powerGroup f) (gatherPowers fs) := by
  rw [gatherPowers, List.foldl_append]
  rfl

omit [Spelling K] in
theorem addPower_of_ne (h : ∀ g ∈ groups, ¬(g.text = new.text ∧ g.base = new.base)) :
    addPower new groups = groups ++ [new] := by
  induction groups with
  | nil => rfl
  | cons g groups ih =>
    obtain ⟨hg, hgroups⟩ := List.forall_mem_cons.mp h
    rw [addPower, if_neg hg, ih hgroups, List.cons_append]

/-- Different bases are not taken together. -/
theorem gatherPowers_of_pairwise
    (h : fs.Pairwise fun f g => (powerGroup f).base ≠ (powerGroup g).base) :
    gatherPowers fs = fs.map powerGroup := by
  induction fs using List.reverseRecOn with
  | nil => rfl
  | append_singleton fs f ih =>
    obtain ⟨hfs, -, hf⟩ := List.pairwise_append.mp h
    rw [gatherPowers_concat, ih hfs, addPower_of_ne, List.map_append]
    · rfl
    · intro g hg
      obtain ⟨f', hf', rfl⟩ := List.mem_map.mp hg
      exact fun heq => hf f' hf' f (List.mem_singleton_self f) heq.2

/-- **Tidy factors are put together to the product that they come from.** -/
theorem orderedProduct_of_factors [Neutral K] (h : TidyFactors fs) (hc : Literal.isZero c = false)
    (he : factors e = lead c ++ fs) : orderedProduct e = buildProduct c fs := by
  have hcoefficient : coefficient Literal.one (factors e) = c := by
    rw [he, coefficient_lead h.nonLiteral]
    split_ifs with hone
    · exact (Neutral.eq_one hone).symm
    · exact Neutral.one_mul c
  have hgroups : (gatherPowers fs).filter (fun group => !Literal.isZero group.exponent) =
      fs.map powerGroup := by
    rw [gatherPowers_of_pairwise (h.ordered.imp And.right), List.filter_eq_self]
    intro group hgroup
    obtain ⟨f, hf, rfl⟩ := List.mem_map.mp hgroup
    rw [(h.each f hf).exponent]
    rfl
  have hsorted : sortByText ((fs.map powerGroup).map fun group => (group.text, group.factor)) =
      fs := by
    rw [sortByText_of_pairwise, List.map_map, List.map_map]
    · exact (List.map_congr_left fun f hf => (h.each f hf).factor).trans (List.map_id fs)
    · rw [List.map_map]
      exact List.pairwise_map.mpr (h.ordered.imp And.left)
  unfold orderedProduct
  dsimp only
  rw [hcoefficient, hc, if_neg Bool.false_ne_true, he, nonLiterals_lead h.nonLiteral, hgroups,
    hsorted]

variable {domain : Domain} {u v : Expr K}

/-- A product with tidy factors is put in order at its node. -/
theorem applyRules_mul_of_factors [Neutral K] (h : TidyFactors fs) (hc : Literal.isZero c = false)
    (hfactors : factors (.mul u v) = lead c ++ fs)
    (hu : ∀ x, u = .num x → Literal.isZero x = false ∧ Literal.isOne x = false)
    (hv : v.literal? = none) :
    applyRules (rules domain .mul) (.mul u v) = buildProduct c fs := by
  have hfold : foldLiterals (.mul u v) = none := by
    rcases foldLiterals_cases .mul u v with hnone | ⟨x, y, -, rfl, -⟩
    · exact hnone
    · cases hv
  have hvs := not_neutral hv
  have hus : u.isZero = false ∧ u.isOne = false := by
    cases u with
    | num x => exact hu x rfl
    | sym | call | binary => exact ⟨rfl, rfl⟩
  rw [applyRules_mul, hfold, Option.getD_none, hus.1, hus.2, hvs.1, hvs.2]
  exact orderedProduct_of_factors h hc hfactors

/-- **A pass leaves a tidy product as it is** if it leaves the factors. -/
theorem pass_buildProduct [Neutral K] (h : TidyFactors fs) (hne : fs ≠ [])
    (hc : Literal.isZero c = false) (hfixed : ∀ f ∈ fs, pass domain f = f) :
    pass domain (buildProduct c fs) = buildProduct c fs := by
  induction fs using List.reverseRecOn with
  | nil => exact absurd rfl hne
  | append_singleton fs g ih =>
    have hg : pass domain g = g := hfixed g (List.mem_append_right _ (List.mem_singleton_self g))
    have hgliteral : g.literal? = none :=
      h.nonLiteral g (List.mem_append_right _ (List.mem_singleton_self g))
    by_cases hfs : fs = []
    · subst hfs
      rw [List.nil_append, buildProduct, List.foldl_nil]
      split_ifs with hone
      · exact hg
      · show applyRules (rules domain .mul) (.mul (.num c) (pass domain g)) = _
        rw [hg, applyRules_mul_of_factors h hc ?_ ?_ hgliteral, List.nil_append, buildProduct,
          if_neg hone, List.foldl_nil]
        · rw [factors, lead, if_neg hone, h.alone g (by simp)]
          rfl
        · rintro x ⟨⟩
          exact ⟨hc, Bool.eq_false_iff.mpr hone⟩
    · have hfront := ih h.of_concat hfs fun f hf => hfixed f (List.mem_append_left _ hf)
      have hliteral : (buildProduct c fs).literal? = none :=
        literal?_buildProduct hfs h.of_concat.nonLiteral
      rw [buildProduct_concat hfs]
      show applyRules (rules domain .mul)
        (.mul (pass domain (buildProduct c fs)) (pass domain g)) = _
      rw [hfront, hg, applyRules_mul_of_factors h hc ?_ ?_ hgliteral, buildProduct_concat hfs]
      · rw [← buildProduct_concat hfs, factors_buildProduct (by simp) h.alone]
      · intro x hx
        rw [hx] at hliteral
        cases hliteral

end Factors

/-! ### Terms in order -/

section Parts

variable {K : Type} [Literal K] [DecidableEq K] [Spelling K] {domain : Domain}

/-- What a term of a normal form multiplies: a tidy product that a pass leaves as it is. -/
def IsPart (domain : Domain) (r : Expr K) : Prop :=
  ∃ fs, fs ≠ [] ∧ TidyFactors fs ∧ (∀ f ∈ fs, pass domain f = f) ∧
    r = buildProduct Literal.one fs

variable {fs : List (Expr K)} {e r : Expr K} {c sign : K}

omit [DecidableEq K] [Spelling K] in
/-- The term that a product is. -/
theorem ofExpr_mul (sign : K) (u v : Expr K) :
    Term.ofExpr sign (.mul u v) =
      ⟨coefficient sign (factors (.mul u v)),
        if nonLiterals (factors (.mul u v)) = [] then none
        else some (buildProduct Literal.one (nonLiterals (factors (.mul u v))))⟩ := by
  simp only [Term.ofExpr]
  cases nonLiterals (factors (.mul u v)) <;> rfl

omit [DecidableEq K] in
/-- The only term of an expression with tidy factors that is no sum. -/
theorem terms_of_factors [Neutral K] (h : TidyFactors fs) (hne : fs ≠ [])
    (he : factors e = lead c ++ fs) (hsum : e.isSum = false) :
    terms sign e = [⟨if Literal.isOne c then sign else sign * c,
      some (buildProduct Literal.one fs)⟩] := by
  have hcoefficient :
      coefficient sign (factors e) = if Literal.isOne c then sign else sign * c := by
    rw [he, coefficient_lead h.nonLiteral]
  have hrest : nonLiterals (factors e) = fs := by rw [he, nonLiterals_lead h.nonLiteral]
  -- a single factor stands for itself
  have hself : factors e = [e] → e.literal? = none →
      [(⟨sign, some e⟩ : Term K)] = [⟨if Literal.isOne c then sign else sign * c,
        some (buildProduct Literal.one fs)⟩] := by
    intro hfactors hliteral
    rw [hfactors] at hcoefficient hrest
    have hfs : fs = [e] := by
      rw [← hrest, nonLiterals, List.filter_cons_of_pos (by rw [hliteral]; rfl)]
      rfl
    rw [← hcoefficient, hfs, buildProduct, if_pos Neutral.isOne_one, coefficient]
    simp [hliteral]
  cases e with
  | num x => exact absurd hrest.symm hne
  | sym | call => exact hself rfl rfl
  | binary op u v =>
    cases op with
    | add | sub => cases hsum
    | div | pow => exact hself rfl rfl
    | mul =>
      show [Term.ofExpr sign (.mul u v)] = _
      rw [ofExpr_mul, hrest, hcoefficient, if_neg hne]

omit [DecidableEq K] [Spelling K] in
theorem isSum_buildProduct (hone : Literal.isOne c = false) :
    (buildProduct c fs).isSum = false := by
  induction fs using List.reverseRecOn with
  | nil => rfl
  | append_singleton fs f _ =>
    by_cases hfs : fs = []
    · subst hfs
      rw [List.nil_append, buildProduct, hone]
      rfl
    · rw [buildProduct_concat hfs]
      rfl

/-- A part with a coefficient is one term, and so is the product that a pass makes of it. -/
theorem terms_part [Neutral K] (hr : IsPart domain r) (hc : Literal.isZero c = false)
    (hbare : r.isSum = true → Literal.isOne c = false) (sign : K) :
    let term : Term K := ⟨if Literal.isOne c then sign else sign * c, some r⟩
    terms sign (buildProduct c [r]) = [term] ∧
      terms sign (pass domain (buildProduct c [r])) = [term] ∧
        (pass domain (buildProduct c [r])).literal? = none := by
  obtain ⟨fs, hne, htidy, hfixed, rfl⟩ := hr
  have hpart : pass domain (buildProduct Literal.one fs) = buildProduct Literal.one fs :=
    pass_buildProduct htidy hne Neutral.isZero_one hfixed
  have hfactors : factors (buildProduct c [buildProduct Literal.one fs]) = lead c ++ fs := by
    have hone : factors (buildProduct Literal.one fs) = fs := by
      rw [factors_buildProduct hne htidy.alone, lead, if_pos Neutral.isOne_one, List.nil_append]
    rw [buildProduct, List.foldl_nil, lead]
    split_ifs
    · exact hone
    · rw [factors, hone]
      rfl
  have hsum : (buildProduct c [buildProduct Literal.one fs]).isSum = false := by
    rw [Bool.eq_false_iff]
    intro hsum
    cases hone : Literal.isOne c with
    | false => rw [isSum_buildProduct hone] at hsum; cases hsum
    | true =>
      rw [buildProduct, List.foldl_nil, if_pos hone] at hsum
      rw [hbare hsum] at hone
      cases hone
  have hpass : pass domain (buildProduct c [buildProduct Literal.one fs]) = buildProduct c fs := by
    cases hone : Literal.isOne c with
    | true => rw [buildProduct, List.foldl_nil, if_pos hone, buildProduct_of_isOne hne hone, hpart]
    | false =>
      rw [buildProduct, List.foldl_nil, hone, if_neg Bool.false_ne_true] at hfactors ⊢
      show applyRules (rules domain .mul) (.mul (.num c) (pass domain _)) = _
      rw [hpart]
      refine applyRules_mul_of_factors htidy hc hfactors ?_
        (literal?_buildProduct hne htidy.nonLiteral)
      rintro x ⟨⟩
      exact ⟨hc, hone⟩
  have hpassed : (buildProduct c fs).isSum = false := by
    cases hone : Literal.isOne c with
    | false => exact isSum_buildProduct hone
    | true =>
      rw [buildProduct, List.foldl_nil, if_pos hone, ← buildProduct_of_isOne hne hone] at hsum
      exact hsum
  rw [hpass]
  exact ⟨terms_of_factors htidy hne hfactors hsum,
    terms_of_factors htidy hne (factors_buildProduct hne htidy.alone) hpassed,
    literal?_buildProduct hne htidy.nonLiteral⟩

/-- At most a constant, which comes first, and terms that do not cancel, with different rests,
sorted by the texts of these. -/
structure OrderedTerms (ts : List (Term K)) : Prop where
  constant : ∀ t ∈ ts, t.rest = none → Literal.isZero t.coefficient = false
  kept : ∀ t ∈ ts, t.rest ≠ none →
    Literal.cancels t.coefficient (Literal.magnitude t.coefficient) = false
  ordered : ts.Pairwise fun t t' =>
    ∃ r', t'.rest = some r' ∧ ∀ r ∈ t.rest, r.text ≤ r'.text ∧ r ≠ r'

/-- A sum has a coefficient in front, so that it is not taken for terms of its own. -/
def Term.Marked (t : Term K) : Prop :=
  ∀ r ∈ t.rest, r.isSum = true → Literal.isOne t.coefficient = false

/-- A term as it is added to a sum, or subtracted. -/
def Term.unsigned (t : Term K) : Term K :=
  if Literal.isNegative t.coefficient then { t with coefficient := -t.coefficient } else t

/-- Terms in order with tidy parts. -/
structure TidyTerms (domain : Domain) (ts : List (Term K)) : Prop extends OrderedTerms ts where
  part : ∀ t ∈ ts, ∀ r ∈ t.rest, IsPart domain r
  first : ∀ t ∈ ts.head?, t.Marked
  later : ∀ t ∈ ts.tail, t.unsigned.Marked

variable {ts : List (Term K)} {t : Term K} {u v : Expr K}

omit [DecidableEq K] in
theorem OrderedTerms.isZero [Neutral K] (h : OrderedTerms ts) (ht : t ∈ ts) :
    Literal.isZero t.coefficient = false := by
  by_cases hrest : t.rest = none
  · exact h.constant t ht hrest
  · rw [Bool.eq_false_iff]
    intro hzero
    have hkept := h.kept t ht hrest
    rw [Neutral.cancels_of_isZero hzero] at hkept
    cases hkept

theorem TidyTerms.of_concat (h : TidyTerms domain (ts ++ [t])) : TidyTerms domain ts where
  constant t ht := h.constant t (List.mem_append_left _ ht)
  kept t ht := h.kept t (List.mem_append_left _ ht)
  ordered := (List.pairwise_append.mp h.ordered).1
  part t ht := h.part t (List.mem_append_left _ ht)
  first t ht := h.first t (by rw [List.head?_append, ht]; rfl)
  later t ht := by
    cases ts with
    | nil => cases ht
    | cons => exact h.later t (List.mem_append_left _ ht)

/-- The group of a single term. -/
def likeTerm (t : Term K) : Option (LikeTerms K) :=
  t.rest.map fun r => ⟨r, r.text, t.coefficient, Literal.magnitude t.coefficient⟩

omit [Spelling K] in
theorem addTerm_of_ne {groups : List (LikeTerms K)} {text : String}
    (h : ∀ g ∈ groups, ¬(g.text = text ∧ g.rest = r)) :
    addTerm r text c groups = groups ++ [⟨r, text, c, Literal.magnitude c⟩] := by
  induction groups with
  | nil => rfl
  | cons g groups ih =>
    obtain ⟨hg, hgroups⟩ := List.forall_mem_cons.mp h
    rw [addTerm, if_neg hg, ih hgroups, List.cons_append]

theorem gatherTerms_concat (ts : List (Term K)) (t : Term K) :
    gatherTerms (ts ++ [t]) = gather (gatherTerms ts) t := by
  rw [gatherTerms_eq, List.foldl_append]
  rfl

/-- Different rests are not taken together. -/
theorem gatherTerms_of_pairwise
    (h : ts.Pairwise fun t t' => ∀ r ∈ t.rest, ∀ r' ∈ t'.rest, r ≠ r') :
    gatherTerms ts = ts.filterMap likeTerm := by
  induction ts using List.reverseRecOn with
  | nil => rfl
  | append_singleton ts t ih =>
    obtain ⟨hts, -, ht⟩ := List.pairwise_append.mp h
    rw [gatherTerms_concat, ih hts, List.filterMap_append, gather]
    cases hrest : t.rest with
    | none => simp [likeTerm, hrest]
    | some r =>
      dsimp only
      rw [addTerm_of_ne]
      · simp [likeTerm, hrest]
      · rintro g hg ⟨-, hr⟩
        obtain ⟨t', ht', hg⟩ := List.mem_filterMap.mp hg
        obtain ⟨r', hr', rfl⟩ := Option.map_eq_some_iff.mp hg
        exact ht t' ht' t (List.mem_singleton_self t) r' hr' r hrest hr

omit [DecidableEq K] [Spelling K] in
theorem foldl_constant_of_rests (h : ∀ t ∈ ts, t.rest ≠ none) (start : K) :
    ts.foldl (fun sum t => if t.rest.isNone then sum + t.coefficient else sum) start = start := by
  induction ts generalizing start with
  | nil => rfl
  | cons t ts ih =>
    obtain ⟨ht, hts⟩ := List.forall_mem_cons.mp h
    rw [List.foldl_cons, if_neg (by simpa using ht), ih hts]

/-- **Terms in order are put together to the sum that they come from.** -/
theorem orderedSum_of_terms [Neutral K] (h : OrderedTerms ts) (hne : ts ≠ [])
    (he : terms Literal.one e = ts) : orderedSum e = buildSum ts := by
  have hgroups : (gatherTerms ts).filter (fun g => !Literal.cancels g.sum g.scale) =
      ts.filterMap likeTerm := by
    rw [gatherTerms_of_pairwise, List.filter_eq_self]
    · intro g hg
      obtain ⟨t, ht, hg⟩ := List.mem_filterMap.mp hg
      obtain ⟨r, hr, rfl⟩ := Option.map_eq_some_iff.mp hg
      rw [h.kept t ht (by rw [hr]; exact Option.some_ne_none r)]
      rfl
    · refine h.ordered.imp fun ⟨r', hr', hle⟩ r hr r'' hr'' => ?_
      obtain rfl := Option.some.inj (hr'.symm.trans hr'')
      exact (hle r hr).2
  have hsorted : sortByText ((ts.filterMap likeTerm).map
      fun g => (g.text, (⟨g.sum, some g.rest⟩ : Term K))) = ts.filter fun t => t.rest.isSome := by
    rw [sortByText_of_pairwise]
    · rw [List.map_map, List.map_filterMap, ← List.filterMap_eq_filter]
      refine List.filterMap_congr fun t _ => ?_
      obtain ⟨x, rest⟩ := t
      cases rest <;> rfl
    · refine List.pairwise_map.mpr (List.pairwise_filterMap.mpr (h.ordered.imp ?_))
      rintro t t' ⟨r', hr', hle⟩ g hg g' hg'
      obtain ⟨r, hr, rfl⟩ := Option.map_eq_some_iff.mp hg
      obtain ⟨r'', hr'', rfl⟩ := Option.map_eq_some_iff.mp hg'
      obtain rfl := Option.some.inj (hr'.symm.trans hr'')
      exact (hle r hr).1
  unfold orderedSum
  dsimp only
  rw [he, hgroups, hsorted]
  obtain ⟨⟨x, rest⟩, ts, rfl⟩ := List.exists_cons_of_ne_nil hne
  have hothers : ∀ t ∈ ts, t.rest ≠ none := by
    intro t ht hnone
    obtain ⟨r', hr', -⟩ := (List.pairwise_cons.mp h.ordered).1 t ht
    rw [hnone] at hr'
    cases hr'
  have hkept : ts.filter (fun t => t.rest.isSome) = ts :=
    List.filter_eq_self.mpr fun t ht => Option.isSome_iff_ne_none.mpr (hothers t ht)
  rw [constantPart, List.foldl_cons, foldl_constant_of_rests hothers]
  cases rest with
  | none =>
    have hx := h.constant ⟨x, none⟩ List.mem_cons_self rfl
    rw [Option.isNone_none, if_pos rfl, Neutral.zero_add hx, hx, if_neg Bool.false_ne_true,
      List.filter_cons_of_neg (by simp), hkept]
  | some r =>
    rw [Option.isNone_some, if_neg Bool.false_ne_true, if_pos Neutral.isZero_zero,
      List.filter_cons_of_pos (by simp), hkept]

omit [DecidableEq K] [Spelling K] in
theorem buildSum_concat (hne : ts ≠ []) (t : Term K) :
    buildSum (ts ++ [t]) = appendTerm (buildSum ts) t := by
  obtain ⟨t', ts, rfl⟩ := List.exists_cons_of_ne_nil hne
  rw [List.cons_append, buildSum, List.foldl_append]
  rfl

/-- A sum of two different operands that are no zeros is put in order at its node. -/
theorem applyRules_sum {op : Operator} (hop : op = .add ∨ op = .sub) (hu : u.isZero = false)
    (hv : v.literal? = none) (huv : u ≠ v) :
    applyRules (rules domain op) (.binary op u v) = orderedSum (.binary op u v) := by
  have hfold : foldLiterals (.binary op u v) = none := by
    rcases foldLiterals_cases op u v with hnone | ⟨x, y, -, rfl, -⟩
    · exact hnone
    · cases hv
  have hvs : v.isZero = false := (not_neutral hv).1
  rcases hop with rfl | rfl
  · rw [applyRules_add, hfold, Option.getD_none, hu, hvs]
    rfl
  · rw [applyRules_sub, hfold, Option.getD_none, hu, hvs, if_neg huv]
    rfl

omit [DecidableEq K] [Spelling K] in
/-- A term is added or subtracted with a coefficient that gives it back. -/
theorem appendTerm_eq [Neutral K] (hc : Literal.isZero c = false)
    (hmarked : (⟨c, some r⟩ : Term K).unsigned.Marked) :
    ∃ (op : Operator) (sign d : K), (op = .add ∨ op = .sub) ∧ Literal.isZero d = false ∧
      (r.isSum = true → Literal.isOne d = false) ∧
      (if Literal.isOne d then sign else sign * d) = c ∧
      (∀ u v : Expr K, terms Literal.one (.binary op u v) =
        terms Literal.one u ++ terms sign v) ∧
      ∀ sum, appendTerm sum ⟨c, some r⟩ = .binary op sum (buildProduct d [r]) := by
  cases hnegative : Literal.isNegative c with
  | false =>
    rw [Term.unsigned, hnegative] at hmarked
    refine ⟨.add, Literal.one, c, .inl rfl, hc, hmarked r rfl, ?_,
      fun _ _ => rfl, fun sum => by rw [appendTerm, hnegative]; rfl⟩
    split_ifs with hone
    · exact (Neutral.eq_one hone).symm
    · exact Neutral.one_mul c
  | true =>
    rw [Term.unsigned, hnegative] at hmarked
    refine ⟨.sub, -Literal.one, -c, .inr rfl, (Neutral.isZero_neg c).trans hc,
      hmarked r rfl, ?_, fun _ _ => rfl,
      fun sum => by rw [appendTerm, hnegative]; rfl⟩
    split_ifs with hone
    · rw [← Neutral.eq_one hone, Neutral.neg_neg]
    · exact Neutral.minus_one_mul_neg hnegative

/-- Every term after the first one has a rest. -/
theorem TidyTerms.last (h : TidyTerms domain (ts ++ [t])) (hts : ts ≠ []) :
    ∃ r, t.rest = some r ∧ IsPart domain r ∧ t.unsigned.Marked ∧
      ∀ t' ∈ ts, ∀ r' ∈ t'.rest, r' ≠ r := by
  have hcross := (List.pairwise_append.mp h.ordered).2.2
  obtain ⟨t₀, ht₀⟩ := List.exists_mem_of_ne_nil ts hts
  obtain ⟨r, hr, -⟩ := hcross t₀ ht₀ t (List.mem_singleton_self t)
  refine ⟨r, hr, h.part t (List.mem_append_right _ (List.mem_singleton_self t)) r hr,
    h.later t ?_, fun t' ht' r' hr' => ?_⟩
  · rw [List.tail_append_of_ne_nil hts]
    exact List.mem_append_right _ (List.mem_singleton_self t)
  obtain ⟨r'', hr'', hle⟩ := hcross t' ht' t (List.mem_singleton_self t)
  obtain rfl := Option.some.inj (hr.symm.trans hr'')
  exact (hle r' hr').2

/-- The first term of a sum. -/
theorem TidyTerms.terms_head [Neutral K] (h : TidyTerms domain [t]) :
    terms Literal.one t.toExpr = [t] ∧ terms Literal.one (pass domain t.toExpr) = [t] := by
  have hzero := h.isZero (List.mem_singleton_self t)
  obtain ⟨x, rest⟩ := t
  cases rest with
  | none =>
    have hx : Literal.one * x = x := Neutral.one_mul x
    have hterms : terms Literal.one (.num x) = [(⟨x, none⟩ : Term K)] :=
      congrArg (fun y => [(⟨y, none⟩ : Term K)]) hx
    exact ⟨hterms, hterms⟩
  | some r =>
    have hpart : IsPart domain r := h.part _ (List.mem_singleton_self _) r rfl
    have hx : (if Literal.isOne x then Literal.one else Literal.one * x) = x := by
      split_ifs with hone
      · exact (Neutral.eq_one hone).symm
      · exact Neutral.one_mul x
    obtain ⟨hterms, hpassed, -⟩ := terms_part hpart hzero (h.first _ rfl r rfl) Literal.one
    rw [hx] at hterms hpassed
    exact ⟨hterms, hpassed⟩

/-- **A tidy sum has the terms that it was built from.** -/
theorem TidyTerms.terms_buildSum [Neutral K] (h : TidyTerms domain ts) (hne : ts ≠ []) :
    terms Literal.one (buildSum ts) = ts := by
  induction ts using List.reverseRecOn with
  | nil => exact absurd rfl hne
  | append_singleton ts t ih =>
    by_cases hts : ts = []
    · subst hts
      exact h.terms_head.1
    have hc := h.isZero (List.mem_append_right _ (List.mem_singleton_self t))
    obtain ⟨x, rest⟩ := t
    obtain ⟨r, rfl, hpart, hmarked, -⟩ := h.last hts
    obtain ⟨op, sign, d, -, hzero, hbare, hx, hterms, happended⟩ := appendTerm_eq hc hmarked
    rw [buildSum_concat hts, happended, hterms, ih h.of_concat hts,
      (terms_part hpart hzero hbare sign).1, hx]

/-- What a pass makes of a tidy sum has the same terms. -/
theorem TidyTerms.terms_pass [Neutral K] (h : TidyTerms domain ts) (hne : ts ≠ []) :
    terms Literal.one (pass domain (buildSum ts)) = ts ∧
      (2 ≤ ts.length → pass domain (buildSum ts) = buildSum ts) := by
  induction ts using List.reverseRecOn with
  | nil => exact absurd rfl hne
  | append_singleton ts t ih =>
    by_cases hts : ts = []
    · subst hts
      exact ⟨h.terms_head.2, fun hlength => absurd hlength (by simp)⟩
    suffices hpass : pass domain (buildSum (ts ++ [t])) = buildSum (ts ++ [t]) from
      ⟨by rw [hpass, h.terms_buildSum hne], fun _ => hpass⟩
    obtain ⟨hfront, -⟩ := ih h.of_concat hts
    have hc := h.isZero (List.mem_append_right _ (List.mem_singleton_self t))
    obtain ⟨x, rest⟩ := t
    obtain ⟨r, rfl, hpart, hmarked, hother⟩ := h.last hts
    obtain ⟨op, sign, d, hop, hzero, hbare, hx, hterms, happended⟩ := appendTerm_eq hc hmarked
    obtain ⟨-, hpassed, hliteral⟩ := terms_part hpart hzero hbare sign
    have hbuilt : buildSum (ts ++ [⟨x, some r⟩]) =
        .binary op (buildSum ts) (buildProduct d [r]) := by
      rw [buildSum_concat hts, happended]
    rw [hbuilt]
    show applyRules (rules domain op)
      (.binary op (pass domain (buildSum ts)) (pass domain (buildProduct d [r]))) = _
    rw [← hbuilt]
    rw [applyRules_sum hop ?_ hliteral ?_]
    · exact orderedSum_of_terms h.toOrderedTerms hne (by rw [hterms, hfront, hpassed, hx])
    · cases hsum : pass domain (buildSum ts) with
      | sym | call | binary => rfl
      | num z =>
        rw [hsum] at hfront
        have hmem : (⟨Literal.one * z, none⟩ : Term K) ∈ ts :=
          hfront ▸ List.mem_singleton_self _
        rw [Neutral.one_mul] at hmem
        exact h.constant _ (List.mem_append_left _ hmem) rfl
    · -- the new term is none of the terms so far
      intro heq
      have hone := (terms_part hpart hzero hbare Literal.one).2.1
      rw [← heq, hfront] at hone
      exact hother ⟨if Literal.isOne d then Literal.one else Literal.one * d, some r⟩
        (hone ▸ List.mem_singleton_self _) r rfl rfl

/-- **A pass leaves a tidy sum as it is.** -/
theorem pass_buildSum [Neutral K] (h : TidyTerms domain ts) (hlength : 2 ≤ ts.length) :
    pass domain (buildSum ts) = buildSum ts :=
  (h.terms_pass (List.ne_nil_of_length_pos (by omega))).2 hlength

end Parts

end DensityKernel.NormalForm
