import DensityKernel.Proofs.NormalForm.Factors
import DensityKernel.Proofs.NormalForm.Weight

/-!
Putting a product or a sum in order. Where factors of one base or like terms are taken together,
or something is dropped, the tree becomes lighter. Where nothing of this happens, the factors or
terms are the ones from before in another order, and they are tidy now.
-/

namespace DensityKernel.NormalForm

open DensityKernel.Expr

variable {K : Type}

/-! ### Factors in order -/

section Factors

theorem factors_of_mem (e : Expr K) : ∀ f ∈ factors e, factors f = [f] := by
  induction e using factors.induct with
  | case1 u v ihu ihv =>
    rw [factors]
    exact List.forall_mem_append.mpr ⟨ihu, ihv⟩
  | case2 e hne =>
    have hself : factors e = [e] := by
      rw [factors]
      exact hne
    rw [hself]
    exact List.forall_mem_singleton.mpr hself

variable [Literal K]

theorem PowerGroup.weight_factor (group : PowerGroup K) :
    group.base.weight.bare ≤ group.factor.weight.bare ∧
      group.factor.weight.bare ≤ 2 * group.base.weight.bare + 2 := by
  rw [PowerGroup.factor]
  split_ifs
  · omega
  · rw [weight_binary, weight_num]
    simp only [Weight.ofOperator, Weight.single, Weight.literal]
    omega

variable [Spelling K] {fs : List (Expr K)}

theorem map_powerGroup (h : ∀ f ∈ fs, (powerGroup f).factor = f) :
    (fs.map powerGroup).map (·.factor) = fs := by
  rw [List.map_map]
  exact (List.map_congr_left h).trans (List.map_id fs)

/-- Tidy factors in the order of the texts of their bases. -/
theorem tidyFactors_sortByText (halone : ∀ f ∈ fs, factors f = [f] ∧ f.literal? = none)
    (hfactors : ∀ f ∈ fs, (powerGroup f).factor = f)
    (hexponents : ∀ f ∈ fs, Literal.isZero (powerGroup f).exponent = false)
    (hbases : fs.Pairwise fun f g => (powerGroup f).base ≠ (powerGroup g).base) :
    TidyFactors (sortByText (fs.map fun f => ((powerGroup f).text, f))) := by
  have hperm : (sortByText (fs.map fun f => ((powerGroup f).text, f))).Perm fs := by
    simpa using sortByText_map_perm (fun f => (powerGroup f).text) id fs
  constructor
  · intro f hf
    have hmem := hperm.mem_iff.mp hf
    exact ⟨(halone f hmem).1, (halone f hmem).2, hfactors f hmem, hexponents f hmem⟩
  · exact (pairwise_sortByText _ fs).and
      ((hperm.pairwise_iff fun {_ _} hne => hne.symm).mpr hbases)

/-- A tidy product of factors of a given one. -/
def ArrangedFrom (e r : Expr K) : Prop :=
  ∃ c fs, r = buildProduct c fs ∧ fs ≠ [] ∧ Literal.isZero c = false ∧ TidyFactors fs ∧
    ∀ f ∈ fs, f ∈ nonLiterals (factors e)

variable [DecidableEq K]

omit [Spelling K] in
/-- Factors of one base are lighter together. -/
theorem addPower_cases (new : PowerGroup K) (groups : List (PowerGroup K)) :
    load ((addPower new groups).map (·.factor)) <
        load (groups.map (·.factor)) + (new.factor.weight.bare + 3) ∨
      addPower new groups = groups ++ [new] ∧
        ∀ g ∈ groups, ¬(g.text = new.text ∧ g.base = new.base) := by
  induction groups with
  | nil => exact .inr ⟨rfl, nofun⟩
  | cons g groups ih =>
    rw [addPower]
    split_ifs with heq
    · refine .inl ?_
      have hg := g.weight_factor
      have hnew := new.weight_factor
      have hsum := PowerGroup.weight_factor { g with exponent := new.exponent + g.exponent }
      rw [← heq.2] at hnew
      simp only [List.map_cons, load_cons] at hsum ⊢
      omega
    · rcases ih with hlt | ⟨hadded, hne⟩
      · refine .inl ?_
        simp only [List.map_cons, load_cons]
        omega
      · refine .inr ⟨by rw [hadded, List.cons_append], ?_⟩
        exact List.forall_mem_cons.mpr ⟨heq, hne⟩

variable [Neutral K]

omit [DecidableEq K] in
/-- A factor is the factor of its group, unless its exponent is one. -/
theorem factor_powerGroup (f : Expr K) :
    (powerGroup f).factor = f ∨ (powerGroup f).factor.weight.bare < f.weight.bare := by
  unfold powerGroup splitPower
  split
  · rename_i base n
    unfold PowerGroup.factor
    dsimp only
    split_ifs
    · refine .inr ?_
      rw [weight_binary, weight_num]
      simp only [Weight.ofOperator, Weight.single, Weight.literal]
      omega
    · exact .inl rfl
  · exact .inl (if_pos Neutral.isOne_one)

/-- The groups of some factors are lighter than the factors, unless these have different bases. -/
theorem gatherPowers_cases (fs : List (Expr K)) :
    load ((gatherPowers fs).map (·.factor)) < load fs ∨
      gatherPowers fs = fs.map powerGroup ∧ (∀ f ∈ fs, (powerGroup f).factor = f) ∧
        fs.Pairwise fun f g => (powerGroup f).base ≠ (powerGroup g).base := by
  induction fs using List.reverseRecOn with
  | nil => exact .inr ⟨rfl, nofun, .nil⟩
  | append_singleton fs f ih =>
    have hle : load ((gatherPowers fs).map (·.factor)) ≤ load fs := by
      rcases ih with hlt | ⟨hgroups, hfactors, -⟩
      · exact hlt.le
      · rw [hgroups, map_powerGroup hfactors]
    have hf : (powerGroup f).factor.weight.bare ≤ f.weight.bare := by
      rcases factor_powerGroup f with heq | hlt
      · rw [heq]
      · exact hlt.le
    rw [gatherPowers_concat, load_append, load_cons, load_nil]
    rcases addPower_cases (powerGroup f) (gatherPowers fs) with hlt | ⟨hadded, hne⟩
    · exact .inl (by omega)
    rw [hadded, List.map_append, List.map_singleton, load_append, load_cons, load_nil]
    rcases ih with hlt | ⟨hgroups, hfactors, hbases⟩
    · exact .inl (by omega)
    rcases factor_powerGroup f with heq | hlt
    · refine .inr ⟨by rw [hgroups, List.map_append]; rfl,
        List.forall_mem_append.mpr ⟨hfactors, List.forall_mem_singleton.mpr heq⟩, ?_⟩
      refine List.pairwise_append.mpr ⟨hbases, List.pairwise_singleton _ _, ?_⟩
      rintro g hg f' hf' hbase
      obtain rfl := List.mem_singleton.mp hf'
      exact hne _ (hgroups ▸ List.mem_map_of_mem hg) ⟨congrArg Expr.text hbase, hbase⟩
    · exact .inl (by omega)

/-- **A product in order is lighter than its factors, or its factors are tidy.** -/
theorem orderedProduct_cases (e : Expr K) :
    orderedProduct e = zero ∨
      ∃ fs, orderedProduct e = buildProduct (coefficient Literal.one (factors e)) fs ∧
        Literal.isZero (coefficient Literal.one (factors e)) = false ∧
          (load fs < load (nonLiterals (factors e)) ∨
            TidyFactors fs ∧ fs.Perm (nonLiterals (factors e))) := by
  unfold orderedProduct
  dsimp only
  split_ifs with hzero
  · exact .inl rfl
  refine .inr ⟨_, rfl, Bool.eq_false_iff.mpr hzero, ?_⟩
  have halone : ∀ f ∈ nonLiterals (factors e), factors f = [f] ∧ f.literal? = none := by
    intro f hf
    obtain ⟨hmem, hliteral⟩ := List.mem_filter.mp hf
    exact ⟨factors_of_mem e f hmem, Option.isNone_iff_eq_none.mp hliteral⟩
  generalize nonLiterals (factors e) = fs at halone
  rw [load_perm (sortByText_map_perm _ _ _)]
  rcases gatherPowers_cases fs with hlt | ⟨hgroups, hfactors, hbases⟩
  · refine .inl (lt_of_le_of_lt ?_ hlt)
    rcases load_filter_cases _ _ (gatherPowers fs) with hdropped | hkept
    · exact hdropped.le
    · rw [hkept]
  rcases load_filter_cases _ _ (gatherPowers fs) with hdropped | hkept
  · rw [hgroups, map_powerGroup hfactors] at hdropped
    exact .inl (hgroups ▸ hdropped)
  refine .inr ?_
  have hexponents : ∀ f ∈ fs, Literal.isZero (powerGroup f).exponent = false := by
    intro f hf
    have hgroup := List.filter_eq_self.mp hkept _ (hgroups ▸ List.mem_map_of_mem hf)
    simpa using hgroup
  have hentries : (gatherPowers fs).map (fun group => (group.text, group.factor)) =
      fs.map fun f => ((powerGroup f).text, f) := by
    rw [hgroups, List.map_map]
    exact List.map_congr_left fun f hf => Prod.ext rfl (hfactors f hf)
  rw [hkept, hentries]
  refine ⟨tidyFactors_sortByText halone hfactors hexponents hbases, ?_⟩
  simpa using sortByText_map_perm (fun f => (powerGroup f).text) id fs

/-- **Putting a product in order makes it lighter**, unless it is tidy then. -/
theorem orderedProduct_weight (u v : Expr K) :
    (orderedProduct (.mul u v)).weight.Below (Expr.mul u v).weight ∨
      (orderedProduct (.mul u v)).weight.AtMost (Expr.mul u v).weight ∧
        ArrangedFrom (.mul u v) (orderedProduct (.mul u v)) := by
  rcases orderedProduct_cases (.mul u v) with hzero | ⟨fs, hordered, hc, hfs⟩
  · rw [hzero]
    exact .inl (literal_below _ .mul u v)
  rw [hordered]
  by_cases hne : fs = []
  · subst hne
    exact .inl (literal_below _ .mul u v)
  obtain ⟨hbare, hled⟩ := weight_factors (.mul u v)
  obtain ⟨hbare', hled', hterm'⟩ :=
    weight_buildProduct (c := coefficient Literal.one (factors (.mul u v))) hne
  have hterm : (Expr.mul u v).weight.term = (Expr.mul u v).weight.led := by
    rw [weight_binary]
    rfl
  -- without literals there is no coefficient
  have hcoefficient : (if Literal.isOne (coefficient Literal.one (factors (.mul u v))) then 0
      else 5) ≤ 5 * literalCount (factors (.mul u v)) := by
    split_ifs with hone
    · exact Nat.zero_le _
    · refine Nat.le_mul_of_pos_right 5 (Nat.pos_of_ne_zero fun hcount => hone ?_)
      rw [coefficient, List.length_eq_zero_iff.mp hcount]
      exact Neutral.isOne_one
  rcases hfs with hlt | ⟨htidy, hperm⟩
  · exact .inl ⟨by omega, by omega, by omega⟩
  · rw [load_perm hperm] at hbare' hled' hterm'
    exact .inr ⟨⟨by omega, by omega, by omega⟩, _, fs, rfl, hne, hc, htidy,
      fun f hf => hperm.mem_iff.mp hf⟩

theorem arranged_atMost (e : Expr K) : (arranged e).weight.AtMost e.weight := by
  unfold arranged
  split
  · rename_i u v
    rcases orderedProduct_weight u v with hbelow | ⟨hle, -⟩
    · exact hbelow.atMost
    · exact hle
  · exact .refl _

end Factors

/-! ### Terms in order -/

section Terms

/-- The terms that are no constants. -/
def varying (ts : List (Term K)) : List (Term K) :=
  ts.filter fun t => t.rest.isSome

theorem termLoad_varying (ts : List (Term K)) :
    termLoad ts = termLoad (varying ts) + 6 * ts.countP (·.rest.isNone) ∧
      ts.length = (varying ts).length + ts.countP (·.rest.isNone) := by
  induction ts with
  | nil => exact ⟨rfl, rfl⟩
  | cons t ts ih =>
    obtain ⟨hload, hlength⟩ := ih
    rw [varying] at hload hlength ⊢
    obtain ⟨x, rest⟩ := t
    cases rest with
    | none =>
      have ht : Term.load (⟨x, none⟩ : Term K) = 6 := rfl
      simp [ht]
      omega
    | some r =>
      simp
      omega

variable [Literal K]

/-- The constants among some terms, as one term. -/
def constants (ts : List (Term K)) : List (Term K) :=
  if Literal.isZero (constantPart ts) then [] else [⟨constantPart ts, none⟩]

theorem length_constants [Neutral K] (ts : List (Term K)) :
    (constants ts).length ≤ ts.countP (·.rest.isNone) ∧
      termLoad (constants ts) = 6 * (constants ts).length := by
  unfold constants
  split_ifs with hzero
  · exact ⟨Nat.zero_le _, rfl⟩
  · refine ⟨Nat.pos_of_ne_zero fun hcount => hzero ?_, rfl⟩
    have hrests : ∀ t ∈ ts, t.rest ≠ none := fun t ht =>
      by simpa using List.countP_eq_zero.mp hcount t ht
    rw [constantPart, foldl_constant_of_rests hrests]
    exact Neutral.isZero_zero

variable [Spelling K]

/-- The text by which a term is sorted. -/
def Term.text (t : Term K) : String :=
  (t.rest.map Expr.text).getD ""

theorem map_likeTerm (ts : List (Term K)) :
    (ts.filterMap likeTerm).map LikeTerms.term = varying ts := by
  rw [List.map_filterMap, varying, ← List.filterMap_eq_filter]
  refine List.filterMap_congr fun t _ => ?_
  obtain ⟨x, rest⟩ := t
  cases rest <;> rfl

variable [DecidableEq K] {domain : Domain} {ts sorted : List (Term K)} {e : Expr K}

omit [Spelling K] in
/-- Like terms are lighter together. -/
theorem addTerm_cases (r : Expr K) (text : String) (x : K) (groups : List (LikeTerms K)) :
    termLoad ((addTerm r text x groups).map LikeTerms.term) =
        termLoad (groups.map LikeTerms.term) ∨
      addTerm r text x groups = groups ++ [⟨r, text, x, Literal.magnitude x⟩] ∧
        ∀ g ∈ groups, ¬(g.text = text ∧ g.rest = r) := by
  induction groups with
  | nil => exact .inr ⟨rfl, nofun⟩
  | cons g groups ih =>
    rw [addTerm]
    split_ifs with heq
    · exact .inl rfl
    · rcases ih with hmerged | ⟨hadded, hne⟩
      · refine .inl ?_
        rw [List.map_cons, List.map_cons, termLoad_cons, termLoad_cons, hmerged]
      · exact .inr ⟨by rw [hadded, List.cons_append], List.forall_mem_cons.mpr ⟨heq, hne⟩⟩

/-- The groups of some terms are lighter than the terms, unless these have different rests. -/
theorem gatherTerms_cases (ts : List (Term K)) :
    termLoad ((gatherTerms ts).map LikeTerms.term) < termLoad (varying ts) ∨
      gatherTerms ts = ts.filterMap likeTerm ∧
        (varying ts).Pairwise fun t t' => t.rest ≠ t'.rest := by
  induction ts using List.reverseRecOn with
  | nil => exact .inr ⟨rfl, .nil⟩
  | append_singleton ts t ih =>
    obtain ⟨x, rest⟩ := t
    rw [gatherTerms_concat, varying, List.filter_append, ← varying]
    cases rest with
    | none =>
      have hnone : [(⟨x, none⟩ : Term K)].filterMap likeTerm = [] := rfl
      simpa [gather, hnone] using ih
    | some r =>
      have hle : termLoad ((gatherTerms ts).map LikeTerms.term) ≤ termLoad (varying ts) := by
        rcases ih with hlt | ⟨hgroups, -⟩
        · exact hlt.le
        · rw [hgroups, map_likeTerm]
      have hload : termLoad (varying ts ++ [(⟨x, some r⟩ : Term K)].filter (·.rest.isSome)) =
          termLoad (varying ts) + (r.weight.bare + 5) := by
        simp [Term.load]
      rw [hload, gather]
      rcases addTerm_cases r r.text x (gatherTerms ts) with hmerged | ⟨hadded, hne⟩
      · exact .inl (by dsimp only; omega)
      rcases ih with hlt | ⟨hgroups, hrests⟩
      · refine .inl ?_
        dsimp only
        rw [hadded, List.map_append, termLoad_append]
        simp only [List.map_cons, List.map_nil, termLoad_cons, termLoad_nil, LikeTerms.term,
          Term.load]
        omega
      · refine .inr ⟨by dsimp only; rw [hadded, hgroups, List.filterMap_append]; rfl, ?_⟩
        refine List.pairwise_append.mpr ⟨hrests, List.pairwise_singleton _ _, ?_⟩
        rintro t ht t' ht' heq
        obtain rfl := List.mem_singleton.mp ht'
        rw [← map_likeTerm, ← hgroups] at ht
        obtain ⟨g, hg, rfl⟩ := List.mem_map.mp ht
        have hrest : g.rest = r := Option.some.inj heq
        refine hne g hg ⟨?_, hrest⟩
        rw [hgroups] at hg
        obtain ⟨t, -, hg⟩ := List.mem_filterMap.mp hg
        obtain ⟨r', -, rfl⟩ := Option.map_eq_some_iff.mp hg
        exact congrArg Expr.text hrest

/-- The terms of a sum in order. -/
def sortedTerms (ts : List (Term K)) : List (Term K) :=
  constants ts ++ sortByText (((gatherTerms ts).filter fun g =>
    !Literal.cancels g.sum g.scale).map fun g => (g.text, g.term))

theorem orderedSum_eq_buildSum (e : Expr K) :
    orderedSum e = buildSum (sortedTerms (terms Literal.one e)) := by
  unfold orderedSum sortedTerms constants
  dsimp only
  split_ifs <;> rfl

/-- Terms with different rests are tidy in the order of the texts of these. -/
theorem tidyTerms_of_sorted
    (hparts : ∀ t ∈ varying ts, ∀ r ∈ t.rest, IsPart domain r)
    (hkept : ∀ t ∈ varying ts,
      Literal.cancels t.coefficient (Literal.magnitude t.coefficient) = false)
    (hrests : (varying ts).Pairwise fun t t' => t.rest ≠ t'.rest)
    (heq : sorted = constants ts ++ sortByText ((varying ts).map fun t => (t.text, t)))
    (hfirst : ∀ t ∈ sorted.head?, t.Marked) (hlater : ∀ t ∈ sorted.tail, t.unsigned.Marked) :
    TidyTerms domain sorted := by
  have hperm : (sortByText ((varying ts).map fun t => (t.text, t))).Perm (varying ts) := by
    simpa using sortByText_map_perm Term.text id (varying ts)
  have hvarying : ∀ t ∈ sortByText ((varying ts).map fun t => (t.text, t)),
      t ∈ varying ts ∧ ∃ r, t.rest = some r := by
    intro t ht
    have hmem := hperm.mem_iff.mp ht
    exact ⟨hmem, Option.isSome_iff_exists.mp (List.mem_filter.mp hmem).2⟩
  have hconstants : ∀ t ∈ constants ts, t.rest = none ∧ Literal.isZero t.coefficient = false := by
    intro t ht
    unfold constants at ht
    split_ifs at ht with hzero
    · cases ht
    · obtain rfl := List.mem_singleton.mp ht
      exact ⟨rfl, Bool.eq_false_iff.mpr hzero⟩
  have hmem : ∀ t ∈ sorted, t.rest ≠ none → t ∈ varying ts := by
    intro t ht hrest
    rw [heq] at ht
    rcases List.mem_append.mp ht with ht | ht
    · exact absurd (hconstants t ht).1 hrest
    · exact (hvarying t ht).1
  refine ⟨⟨?_, fun t ht hrest => hkept t (hmem t ht hrest), ?_⟩,
    fun t ht r hr => hparts t (hmem t ht (by rw [hr]; exact Option.some_ne_none r)) r hr,
    hfirst, hlater⟩
  · intro t ht hnone
    rw [heq] at ht
    rcases List.mem_append.mp ht with ht | ht
    · exact (hconstants t ht).2
    · obtain ⟨-, r, hr⟩ := hvarying t ht
      rw [hnone] at hr
      cases hr
  · rw [heq]
    refine List.pairwise_append.mpr ⟨?_, ?_, ?_⟩
    · unfold constants
      split_ifs
      · exact .nil
      · exact List.pairwise_singleton _ _
    · have hordered := (pairwise_sortByText Term.text (varying ts)).and
        ((hperm.pairwise_iff fun {_ _} hne => hne.symm).mpr hrests)
      refine hordered.imp_of_mem fun {t t'} _ ht' ⟨hle, hne⟩ => ?_
      obtain ⟨-, r', hr'⟩ := hvarying t' ht'
      refine ⟨r', hr', fun r hr => ⟨?_, ?_⟩⟩
      · simpa [Term.text, hr', Option.mem_def.mp hr] using hle
      · rintro rfl
        exact hne (hr.trans hr'.symm)
    · intro t ht t' ht'
      obtain ⟨-, r', hr'⟩ := hvarying t' ht'
      refine ⟨r', hr', fun r hr => ?_⟩
      rw [(hconstants t ht).1] at hr
      cases hr

/-- The parts of the terms of an expression are tidy. -/
def TidyParts (domain : Domain) (e : Expr K) : Prop :=
  ∀ t ∈ terms Literal.one e, ∀ r ∈ t.rest, IsPart domain r

/-- A tidy sum. -/
def CollectedAs (domain : Domain) (r : Expr K) : Prop :=
  ∃ ts, r = buildSum ts ∧ 2 ≤ ts.length ∧ TidyTerms domain ts

variable [Neutral K]

/-- **The terms of a sum are lighter in order**, or no two of them were alike and none cancelled. -/
theorem sortedTerms_cases (ts : List (Term K)) :
    termLoad (sortedTerms ts) < termLoad ts ∨
      termLoad (sortedTerms ts) = termLoad ts ∧ (sortedTerms ts).length = ts.length ∧
        sortedTerms ts = constants ts ++ sortByText ((varying ts).map fun t => (t.text, t)) ∧
        (∀ t ∈ varying ts,
          Literal.cancels t.coefficient (Literal.magnitude t.coefficient) = false) ∧
        (varying ts).Pairwise fun t t' => t.rest ≠ t'.rest := by
  obtain ⟨hload, hlength⟩ := termLoad_varying ts
  obtain ⟨hconstants, hconstantsLoad⟩ := length_constants ts
  have hsorted : ∀ groups : List (LikeTerms K),
      (sortByText (groups.map fun g => (g.text, g.term))).Perm (groups.map LikeTerms.term) :=
    sortByText_map_perm _ _
  rw [sortedTerms, termLoad_append, termLoad_perm (hsorted _), hconstantsLoad, List.length_append,
    (hsorted _).length_eq]
  have hfilter := termLoad_filter_cases LikeTerms.term
    (fun g : LikeTerms K => !Literal.cancels g.sum g.scale) (gatherTerms ts)
  rcases gatherTerms_cases ts with hlt | ⟨hgroups, hrests⟩
  · refine .inl ?_
    rcases hfilter with hdropped | hkept
    · omega
    · rw [hkept]
      omega
  rw [hgroups, map_likeTerm] at hfilter
  rw [hgroups]
  rcases hfilter with hdropped | hkept
  · exact .inl (by omega)
  rw [hkept, map_likeTerm]
  rcases hconstants.lt_or_eq with hlt | heq
  · exact .inl (by omega)
  refine .inr ⟨by omega, by omega, ?_, ?_, hrests⟩
  · -- every group holds a single term
    rw [← map_likeTerm, List.map_map]
    refine congrArg (constants ts ++ sortByText ·) (List.map_congr_left fun g hg => ?_)
    obtain ⟨t, -, hg⟩ := List.mem_filterMap.mp hg
    obtain ⟨r, hr, rfl⟩ := Option.map_eq_some_iff.mp hg
    rfl
  · intro t ht
    rw [← map_likeTerm] at ht
    obtain ⟨g, hg, rfl⟩ := List.mem_map.mp ht
    have hcancels := List.filter_eq_self.mp hkept g hg
    obtain ⟨t, -, hg⟩ := List.mem_filterMap.mp hg
    obtain ⟨r, hr, rfl⟩ := Option.map_eq_some_iff.mp hg
    simpa [LikeTerms.term] using hcancels

/-- **Putting a sum in order makes it lighter**, unless it is tidy then. -/
theorem orderedSum_weight (he : e.isSum = true) :
    (orderedSum e).weight.Below e.weight ∨
      (orderedSum e).weight.AtMost e.weight ∧
        ∀ domain, TidyParts domain e → CollectedAs domain (orderedSum e) := by
  have hle := termLoad_terms Literal.one e
  have hlength := two_le_length_terms Literal.one he
  have hsix := six_mul_length_le (terms Literal.one e)
  obtain ⟨hbare, hled⟩ := weight_of_isSum he
  rw [orderedSum_eq_buildSum]
  have hcases := sortedTerms_cases (terms Literal.one e)
  obtain hnil | ⟨t, ht⟩ | htwo : sortedTerms (terms Literal.one e) = [] ∨
      (∃ t, sortedTerms (terms Literal.one e) = [t]) ∨
        2 ≤ (sortedTerms (terms Literal.one e)).length := by
    match sortedTerms (terms Literal.one e) with
    | [] => exact .inl rfl
    | [t] => exact .inr (.inl ⟨t, rfl⟩)
    | _ :: _ :: _ => exact .inr (.inr (by simp))
  · have hzero : (Expr.num (Literal.zero : K)).weight.Below e.weight := by
      rw [weight_num]
      constructor <;> simp only [Weight.literal] <;> omega
    rw [hnil]
    exact .inl hzero
  · rw [ht, termLoad_cons, termLoad_nil, List.length_singleton] at hcases
    obtain ⟨hbare', hled', hterm', -⟩ := weight_toExpr t
    rw [ht]
    exact .inl ⟨show t.toExpr.weight.bare < _ by omega, show t.toExpr.weight.led < _ by omega,
      show t.toExpr.weight.term < _ by omega⟩
  · obtain ⟨hbare', hled'⟩ := weight_of_isSum (isSum_buildSum htwo)
    obtain ⟨hterm, hmarked⟩ := term_buildSum (List.ne_nil_of_length_pos (by omega :
      0 < (sortedTerms (terms Literal.one e)).length))
    rcases hcases with hlt | ⟨hload, -, hsorted, hcancels, hrests⟩
    · exact .inl ⟨by omega, by omega, by omega⟩
    by_cases hlt : (buildSum (sortedTerms (terms Literal.one e))).weight.term < e.weight.term
    · exact .inl ⟨by omega, by omega, by omega⟩
    refine .inr ⟨⟨by omega, by omega, by omega⟩, fun domain hparts => ⟨_, rfl, htwo, ?_⟩⟩
    obtain ⟨hfirst, hlater⟩ := hmarked (by omega)
    refine tidyTerms_of_sorted (fun t ht r hr => ?_) hcancels hrests hsorted hfirst hlater
    exact hparts t (List.mem_filter.mp ht).1 r hr

theorem collected_atMost (e : Expr K) : (collected e).weight.AtMost e.weight := by
  unfold collected
  split_ifs with hsum
  · rcases orderedSum_weight hsum with hbelow | ⟨hle, -⟩
    · exact hbelow.atMost
    · exact hle
  · exact .refl _

end Terms

end DensityKernel.NormalForm
