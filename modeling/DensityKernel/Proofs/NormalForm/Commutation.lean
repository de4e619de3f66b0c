import DensityKernel.Proofs.NormalForm.Cancellation
import DensityKernel.Proofs.NormalForm.Nodes
import DensityKernel.Proofs.NormalForm.Settling
import DensityKernel.Proofs.Number.Laws

/-!
The order of operands. Over literals whose sums and products do not depend on the order, the
ordered forms of `u + v` and `v + u` are one tree, and so are those of `u * v` and `v * u`:
the terms are the same up to their order, so the groups are (`outlines_perm`), and sorting by
text leaves one order for groups with different texts. After one pass the two runs agree
(`simplify_operands_comm`).
-/

namespace DensityKernel

open DensityKernel.Expr

namespace NormalForm

/-! ### Literals in any order -/

/-- What the order of operands does not matter to, beside sums and products: zeros and ones, and
the scale of like terms, as far as it decides what cancels. -/
class OrderBlind (K : Type) [Literal K] [Spelling K] : Prop where
  isFinite_add_of_isZero : ∀ {x y : K}, Literal.isZero x = true → Literal.isZero y = true →
    Literal.isFinite (x + y) = true
  eq_of_isOne : ∀ {x y : K}, Literal.isOne x = true → Literal.isOne y = true → x = y
  cancels_of_perm : ∀ {rest : Expr K} {xs ys : List K} {g g' : LikeTerms K}, xs.Perm ys →
    LikeTerms.ofContributions rest xs = some g → LikeTerms.ofContributions rest ys = some g' →
    g.sum = g'.sum → Literal.cancels g.sum g.scale = Literal.cancels g'.sum g'.scale

/-- Sums and products of literals are commutative and associative. -/
structure CommutativeLiterals (K : Type) [Literal K] : Prop where
  add_comm : ∀ x y : K, x + y = y + x
  add_assoc : ∀ x y z : K, x + y + z = x + (y + z)
  mul_comm : ∀ x y : K, x * y = y * x
  mul_assoc : ∀ x y z : K, x * y * z = x * (y * z)

namespace CommutativeLiterals

variable {K : Type} [Literal K] (h : CommutativeLiterals K)

include h

theorem add_right_comm : RightCommutative fun x y : K => x + y :=
  ⟨fun x y z => by rw [h.add_assoc, h.add_comm y, ← h.add_assoc]⟩

theorem mul_right_comm : RightCommutative fun x y : K => x * y :=
  ⟨fun x y z => by rw [h.mul_assoc, h.mul_comm y, ← h.mul_assoc]⟩

end CommutativeLiterals

section Doubles

variable {rest : Expr Double} {xs ys : List Double} {g g' : LikeTerms Double}

theorem mem_gatherTerms_of_ofContributions
    (hg : LikeTerms.ofContributions rest xs = some g) :
    g ∈ gatherTerms (xs.map fun x => ⟨x, some rest⟩) ∧
      contributions (xs.map fun x => ⟨x, some rest⟩) g.rest = xs := by
  have hrest := (rest_text_of_ofContributions hg).1
  have hxs : contributions (xs.map fun x => ⟨x, some rest⟩) g.rest = xs := by
    rw [contributions, List.filterMap_map, hrest]
    simp
  exact ⟨mem_gatherTerms.mpr (by rw [hxs, hrest, hg]), hxs⟩

/-- Doubles cancel in any order: if a contribution is not finite the group is lost, and otherwise
its scale is the largest of the magnitudes. -/
theorem cancels_eq_of_perm (hperm : xs.Perm ys)
    (hg : LikeTerms.ofContributions rest xs = some g)
    (hg' : LikeTerms.ofContributions rest ys = some g') (hsum : g.sum = g'.sum) :
    Literal.cancels g.sum g.scale = Literal.cancels g'.sum g'.scale := by
  obtain ⟨hmem, hxs⟩ := mem_gatherTerms_of_ofContributions hg
  obtain ⟨hmem', hys⟩ := mem_gatherTerms_of_ofContributions hg'
  by_cases hinfinite : ∃ x ∈ xs, Literal.isFinite x = false
  · have hinfinite' : ∃ y ∈ ys, Literal.isFinite y = false :=
      hinfinite.imp fun x hx => ⟨hperm.mem_iff.mp hx.1, hx.2⟩
    rw [((sound_or_lost hmem).2 (hxs.symm ▸ hinfinite)).cancels,
      ((sound_or_lost hmem').2 (hys.symm ▸ hinfinite')).cancels]
  · have hfinite : ∀ x ∈ xs, Literal.isFinite x = true := fun x hx =>
      (Bool.not_eq_false _).mp fun h => hinfinite ⟨x, hx, h⟩
    have hfinite' : ∀ y ∈ ys, Literal.isFinite y = true := fun y hy =>
      hfinite y (hperm.mem_iff.mpr hy)
    obtain ⟨⟨x, hx, hscale⟩, hle⟩ := scale_spec hmem (hxs.symm ▸ hfinite)
    obtain ⟨⟨y, hy, hscale'⟩, hle'⟩ := scale_spec hmem' (hys.symm ▸ hfinite')
    rw [hxs] at hx hle
    rw [hys] at hy hle'
    have hreal : x.magnitude.real = y.magnitude.real :=
      le_antisymm (hscale' ▸ hle' x (hperm.mem_iff.mp hx)) (hscale ▸ hle y (hperm.mem_iff.mpr hy))
    rw [hsum, hscale, hscale', Double.magnitude_eq_of_real_eq
      (Double.real_magnitude (hfinite x hx)).1 (Double.real_magnitude (hfinite' y hy)).1 hreal]

instance : OrderBlind Double where
  isFinite_add_of_isZero hx hy := by
    obtain rfl | rfl := Double.eq_zero_or_of_isZero hx <;>
      obtain rfl | rfl := Double.eq_zero_or_of_isZero hy <;> decide
  eq_of_isOne hx hy := (Double.eq_one_of_isOne hx).trans (Double.eq_one_of_isOne hy).symm
  cancels_of_perm := cancels_eq_of_perm

end Doubles

/-! ### Sorting -/

/-- Different expressions among these have different texts. -/
def TextsDiffer {K : Type} [Literal K] [Spelling K] (es : List (Expr K)) : Prop :=
  ∀ u ∈ es, ∀ v ∈ es, u.text = v.text → u = v

/-- Sorting by text forgets the order of entries with different texts. -/
theorem sortByText_eq_of_perm {α : Type} {entries entries' : List (String × α)}
    (hperm : entries.Perm entries')
    (hdiffer : ∀ a ∈ entries, ∀ b ∈ entries, a.1 = b.1 → a = b) :
    sortByText entries = sortByText entries' := by
  refine congrArg (List.map Prod.snd) (List.Perm.eq_of_pairwise ?_ (pairwise_mergeSort entries)
    (pairwise_mergeSort entries')
    ((List.mergeSort_perm _ _).trans (hperm.trans (List.mergeSort_perm _ _).symm)))
  intro a b ha hb hab hba
  refine hdiffer a ((List.mergeSort_perm _ _).mem_iff.mp ha) b
    (hperm.mem_iff.mpr ((List.mergeSort_perm _ _).mem_iff.mp hb)) (String.le_antisymm hab hba)

/-! ### Groups -/

section Groups

variable {K : Type} [Literal K] [DecidableEq K] [Spelling K] {ts ts' : List (Term K)}
  {g : LikeTerms K} {rest : Expr K} {xs ys : List K}

omit [DecidableEq K] [Spelling K] in
theorem sum_foldl_absorb (xs : List K) (g : LikeTerms K) :
    (xs.foldl LikeTerms.absorb g).sum = xs.foldl (· + ·) g.sum := by
  induction xs generalizing g with
  | nil => rfl
  | cons x xs ih => exact ih (g.absorb x)

omit [DecidableEq K] in
/-- The same contributions in another order have the same sum. -/
theorem ofContributions_of_perm (h : CommutativeLiterals K) (hperm : xs.Perm ys) :
    (LikeTerms.ofContributions rest xs).map LikeTerms.sum =
      (LikeTerms.ofContributions rest ys).map LikeTerms.sum := by
  have hright := h.add_right_comm
  induction hperm with
  | nil => rfl
  | cons x hperm ih =>
    simp only [LikeTerms.ofContributions, Option.map_some, sum_foldl_absorb]
    rw [hperm.foldl_eq]
  | swap x y xs =>
    simp only [LikeTerms.ofContributions, Option.map_some, sum_foldl_absorb, List.foldl_cons]
    exact congrArg (fun start => some (xs.foldl (· + ·) start)) (h.add_comm y x)
  | trans _ _ ih ih' => exact ih.trans ih'

omit [Literal K] [DecidableEq K] [Spelling K] in
/-- What is built from a group: what it is about, its sum, and whether that cancels. -/
structure Outline (K : Type) where
  rest : Expr K
  sum : K
  cancelled : Bool

omit [DecidableEq K] [Spelling K] in
def LikeTerms.outline (g : LikeTerms K) : Outline K :=
  ⟨g.rest, g.sum, Literal.cancels g.sum g.scale⟩

theorem nodup_outline_rests (ts : List (Term K)) :
    (((gatherTerms ts).map LikeTerms.outline).map Outline.rest).Nodup := by
  rw [List.map_map, List.nodup_iff_count_le_one]
  intro r
  have hcount : List.count r ((gatherTerms ts).map fun g => g.rest) =
      ((gatherTerms ts).filter (·.rest = r)).length := by
    rw [List.count, List.countP_map, List.countP_eq_length_filter]
    rfl
  have hgroups := filter_gatherTerms ts r
  show List.count r ((gatherTerms ts).map fun g => g.rest) ≤ 1
  rw [hcount, hgroups]
  cases LikeTerms.ofContributions r (contributions ts r) <;> simp

theorem exists_outline [OrderBlind K] (h : CommutativeLiterals K) (hperm : ts.Perm ts')
    (hg : g ∈ gatherTerms ts) : ∃ g' ∈ gatherTerms ts', g'.outline = g.outline := by
  have hcontributions : (contributions ts g.rest).Perm (contributions ts' g.rest) :=
    hperm.filterMap _
  have hgathered := mem_gatherTerms.mp hg
  have hsums : (LikeTerms.ofContributions g.rest _).map LikeTerms.sum =
      (LikeTerms.ofContributions g.rest _).map LikeTerms.sum :=
    ofContributions_of_perm h hcontributions
  rw [hgathered, Option.map_some] at hsums
  obtain ⟨g', hg', hsum⟩ := Option.map_eq_some_iff.mp hsums.symm
  have hrest := (rest_text_of_ofContributions hg').1
  refine ⟨g', mem_gatherTerms.mpr (hrest.symm ▸ hg'), ?_⟩
  rw [LikeTerms.outline, LikeTerms.outline, hrest,
    OrderBlind.cancels_of_perm hcontributions hgathered hg' hsum.symm, hsum]

/-- **The groups of some terms do not depend on their order.** -/
theorem outlines_perm [OrderBlind K] (h : CommutativeLiterals K) (hperm : ts.Perm ts') :
    ((gatherTerms ts).map LikeTerms.outline).Perm ((gatherTerms ts').map LikeTerms.outline) := by
  rw [List.perm_ext_iff_of_nodup (nodup_outline_rests ts).of_map (nodup_outline_rests ts').of_map]
  intro o
  rw [List.mem_map, List.mem_map]
  constructor
  · rintro ⟨g, hg, rfl⟩
    exact exists_outline h hperm hg
  · rintro ⟨g, hg, rfl⟩
    exact exists_outline h hperm.symm hg

/-- What the groups are about are the rests of the terms. -/
theorem exists_term_of_mem_gatherTerms (hg : g ∈ gatherTerms ts) :
    g.text = g.rest.text ∧ ∃ t ∈ ts, t.rest = some g.rest := by
  have hgathered := mem_gatherTerms.mp hg
  refine ⟨(rest_text_of_ofContributions hgathered).2, ?_⟩
  cases hxs : contributions ts g.rest with
  | nil =>
    rw [hxs] at hgathered
    cases hgathered
  | cons x xs =>
    have hx : x ∈ contributions ts g.rest := hxs ▸ List.mem_cons_self
    obtain ⟨t, ht, hrest⟩ := List.mem_filterMap.mp hx
    exact ⟨t, ht, (Option.ite_none_right_eq_some.mp hrest).1⟩

/-- What some terms multiply. -/
def rests (ts : List (Term K)) : List (Expr K) :=
  ts.filterMap Term.rest

/-- What is made of some of the groups, each with its text. -/
def entries {α : Type} (kept : Outline K → Bool) (make : Outline K → α) (ts : List (Term K)) :
    List (String × α) :=
  (((gatherTerms ts).map LikeTerms.outline).filter kept).map fun o => (o.rest.text, make o)

theorem entries_differ {α : Type} {kept : Outline K → Bool} {make : Outline K → α}
    (hdiffer : TextsDiffer (rests ts)) :
    ∀ a ∈ entries kept make ts, ∀ b ∈ entries kept make ts, a.1 = b.1 → a = b := by
  have hmem : ∀ a ∈ entries kept make ts, ∃ o ∈ (gatherTerms ts).map LikeTerms.outline,
      o.rest ∈ rests ts ∧ (o.rest.text, make o) = a := by
    intro a ha
    obtain ⟨o, ho, rfl⟩ := List.mem_map.mp ha
    have ho := (List.mem_filter.mp ho).1
    obtain ⟨g, hg, rfl⟩ := List.mem_map.mp ho
    obtain ⟨-, t, ht, hrest⟩ := exists_term_of_mem_gatherTerms hg
    exact ⟨_, ho, List.mem_filterMap.mpr ⟨t, ht, hrest⟩, rfl⟩
  intro a ha b hb htext
  obtain ⟨o, ho, horest, rfl⟩ := hmem a ha
  obtain ⟨o', ho', horest', rfl⟩ := hmem b hb
  have hrest : o.rest = o'.rest := hdiffer _ horest _ horest' htext
  rw [List.inj_on_of_nodup_map (nodup_outline_rests ts) ho ho' hrest]

/-- **Groups with different texts are sorted into one order.** -/
theorem sortByText_entries [OrderBlind K] {α : Type} {kept : Outline K → Bool}
    {make : Outline K → α} (h : CommutativeLiterals K) (hperm : ts.Perm ts')
    (hdiffer : TextsDiffer (rests ts)) :
    sortByText (entries kept make ts) = sortByText (entries kept make ts') :=
  sortByText_eq_of_perm (((outlines_perm h hperm).filter kept).map _) (entries_differ hdiffer)

end Groups

/-! ### Sums -/

section Sums

variable {K : Type} [Literal K] [DecidableEq K] [Spelling K] {ts ts' : List (Term K)}
  {e e' : Expr K}

/-- The terms that are sorted. -/
def sumEntries (ts : List (Term K)) : List (String × Term K) :=
  entries (!·.cancelled) (fun o => ⟨o.sum, some o.rest⟩) ts

theorem orderedSum_eq (e : Expr K) :
    orderedSum e =
      buildSum (if Literal.isZero (constantPart (terms Literal.one e)) then
        sortByText (sumEntries (terms Literal.one e))
      else ⟨constantPart (terms Literal.one e), none⟩ ::
        sortByText (sumEntries (terms Literal.one e))) := by
  have hentries : ((gatherTerms (terms Literal.one e)).filter
        fun g => !Literal.cancels g.sum g.scale).map
          (fun g => (g.text, (⟨g.sum, some g.rest⟩ : Term K))) =
      sumEntries (terms Literal.one e) := by
    rw [sumEntries, entries, List.filter_map, List.map_map]
    refine List.map_congr_left fun g hg => ?_
    rw [(exists_term_of_mem_gatherTerms (List.mem_filter.mp hg).1).1]
    rfl
  rw [← hentries]
  rfl

omit [DecidableEq K] [Spelling K] in
theorem constantPart_eq_of_perm (h : CommutativeLiterals K) (hperm : ts.Perm ts') :
    constantPart ts = constantPart ts' := by
  have hright : RightCommutative fun (sum : K) (t : Term K) =>
      if t.rest.isNone then sum + t.coefficient else sum := by
    refine ⟨fun x t t' => ?_⟩
    have hcomm := h.add_right_comm.right_comm x t.coefficient t'.coefficient
    split_ifs
    · exact hcomm
    all_goals rfl
  exact hperm.foldl_eq _

/-- **The ordered form of a sum does not depend on the order of its terms.** -/
theorem orderedSum_eq_of_perm [OrderBlind K] (h : CommutativeLiterals K)
    (hperm : (terms Literal.one e).Perm (terms Literal.one e'))
    (hdiffer : TextsDiffer (rests (terms Literal.one e))) : orderedSum e = orderedSum e' := by
  have hsorted : sortByText (sumEntries (terms Literal.one e)) =
      sortByText (sumEntries (terms Literal.one e')) := sortByText_entries h hperm hdiffer
  rw [orderedSum_eq, orderedSum_eq, constantPart_eq_of_perm h hperm, hsorted]

end Sums

/-! ### Products -/

section Products

variable {K : Type} [Literal K] [DecidableEq K] [Spelling K] {fs fs' : List (Expr K)}
  {e e' : Expr K}

omit [DecidableEq K] [Spelling K] in
/-- A factor as a term: the exponent in front of the base. -/
def powerTerm (f : Expr K) : Term K :=
  ⟨(splitPower f).2, some (splitPower f).1⟩

omit [DecidableEq K] [Spelling K] in
def LikeTerms.power (g : LikeTerms K) : PowerGroup K :=
  ⟨g.rest, g.text, g.sum⟩

omit [Spelling K] in
theorem addPower_map (h : CommutativeLiterals K) (base : Expr K) (text : String) (n : K)
    (groups : List (LikeTerms K)) :
    addPower ⟨base, text, n⟩ (groups.map LikeTerms.power) =
      (addTerm base text n groups).map LikeTerms.power := by
  induction groups with
  | nil => rfl
  | cons g groups ih =>
    simp only [addTerm, List.map_cons, addPower, LikeTerms.power] at ih ⊢
    split_ifs
    · rw [List.map_cons, h.add_comm]
      rfl
    · rw [List.map_cons, ih]
      rfl

/-- Exponents are gathered as coefficients are. -/
theorem gatherPowers_eq (h : CommutativeLiterals K) (fs : List (Expr K)) :
    gatherPowers fs = (gatherTerms (fs.map powerTerm)).map LikeTerms.power := by
  have hfold : ∀ groups : List (LikeTerms K),
      fs.foldl (fun groups f =>
        addPower ⟨(splitPower f).1, (splitPower f).1.text, (splitPower f).2⟩ groups)
          (groups.map LikeTerms.power) =
        ((fs.map powerTerm).foldl gather groups).map LikeTerms.power := by
    induction fs with
    | nil => exact fun _ => rfl
    | cons f fs ih =>
      intro groups
      rw [List.foldl_cons, addPower_map h, ih]
      rfl
  exact hfold []

/-- The bases of some factors. -/
def bases (fs : List (Expr K)) : List (Expr K) :=
  rests ((nonLiterals fs).map powerTerm)

/-- The factors that are sorted. -/
def factorEntries (fs : List (Expr K)) : List (String × Expr K) :=
  entries (!Literal.isZero ·.sum) (fun o => (⟨o.rest, o.rest.text, o.sum⟩ : PowerGroup K).factor)
    ((nonLiterals fs).map powerTerm)

theorem orderedProduct_eq (h : CommutativeLiterals K) (e : Expr K) :
    orderedProduct e =
      if Literal.isZero (coefficient Literal.one (factors e)) then Expr.zero
      else buildProduct (coefficient Literal.one (factors e))
        (sortByText (factorEntries (factors e))) := by
  have hentries : ((gatherPowers (nonLiterals (factors e))).filter
        fun group => !Literal.isZero group.exponent).map
          (fun group => (group.text, group.factor)) = factorEntries (factors e) := by
    rw [gatherPowers_eq h, factorEntries, entries, List.filter_map, List.filter_map, List.map_map,
      List.map_map]
    refine List.map_congr_left fun g hg => ?_
    obtain ⟨htext, -⟩ := exists_term_of_mem_gatherTerms (List.mem_filter.mp hg).1
    simp only [Function.comp_apply, LikeTerms.power, LikeTerms.outline, htext]
  rw [← hentries]
  rfl

omit [DecidableEq K] [Spelling K] in
theorem coefficient_eq_of_perm (h : CommutativeLiterals K) (hperm : fs.Perm fs') (start : K) :
    coefficient start fs = coefficient start fs' := by
  have hright := h.mul_right_comm
  exact (hperm.filterMap _).foldl_eq _

/-- **The ordered form of a product does not depend on the order of its factors.** -/
theorem orderedProduct_eq_of_perm [OrderBlind K] (h : CommutativeLiterals K)
    (hperm : (factors e).Perm (factors e')) (hdiffer : TextsDiffer (bases (factors e))) :
    orderedProduct e = orderedProduct e' := by
  have hsorted : sortByText (factorEntries (factors e)) =
      sortByText (factorEntries (factors e')) :=
    sortByText_entries h ((hperm.filter _).map powerTerm) hdiffer
  rw [orderedProduct_eq h, orderedProduct_eq h, coefficient_eq_of_perm h hperm, hsorted]

end Products

/-! ### Nodes -/

section Nodes

variable {K : Type} [Literal K] {u v : Expr K}

theorem foldLiterals_swap (h : CommutativeLiterals K) {op : Operator}
    (hop : op = .add ∨ op = .mul) (u v : Expr K) :
    foldLiterals (.binary op u v) = foldLiterals (.binary op v u) := by
  obtain rfl | rfl := hop
  all_goals
    cases u <;> cases v
    case num.num x y =>
      simp only [foldLiterals, h.add_comm x, h.mul_comm x]
    all_goals rfl

variable [DecidableEq K] [Spelling K] [OrderBlind K] {domain : Domain}

theorem applyRules_add_swap (h : CommutativeLiterals K)
    (hdiffer : TextsDiffer (rests (terms Literal.one (.add u v)))) :
    applyRules (rules domain .add) (.add u v) = applyRules (rules domain .add) (.add v u) := by
  rw [applyRules_add, applyRules_add, foldLiterals_swap h (.inl rfl) v u]
  rcases foldLiterals_cases .add u v with hnone | ⟨x, y, -, -, -, hsome⟩
  · have hordered : orderedSum (.add u v) = orderedSum (.add v u) := by
      refine orderedSum_eq_of_perm h ?_ hdiffer
      rw [terms, terms]
      exact List.perm_append_comm
    rw [hnone, Option.getD_none, Option.getD_none, hordered]
    by_cases hboth : u.isZero = true ∧ v.isZero = true
    · -- two zeros are folded
      obtain ⟨hu, hv⟩ := hboth
      cases u <;> cases v
      case num.num x y =>
        simp [foldLiterals, finite?, OrderBlind.isFinite_add_of_isZero hu hv] at hnone
      all_goals simp [Expr.isZero] at hu hv
    · split_ifs with hu hv
      · exact absurd ⟨hu, hv⟩ hboth
      all_goals rfl
  · rw [hsome]
    rfl

theorem applyRules_mul_swap (h : CommutativeLiterals K)
    (hdiffer : TextsDiffer (bases (factors (.mul u v)))) :
    applyRules (rules domain .mul) (.mul u v) = applyRules (rules domain .mul) (.mul v u) := by
  rw [applyRules_mul, applyRules_mul, foldLiterals_swap h (.inr rfl) v u]
  rcases foldLiterals_cases .mul u v with hnone | ⟨x, y, -, -, -, hsome⟩
  · have hordered : orderedProduct (.mul u v) = orderedProduct (.mul v u) := by
      refine orderedProduct_eq_of_perm h ?_ hdiffer
      rw [factors, factors]
      exact List.perm_append_comm
    rw [hnone, Option.getD_none, Option.getD_none, hordered, Bool.or_comm]
    by_cases hboth : u.isOne = true ∧ v.isOne = true
    · -- two ones are one literal
      obtain ⟨hu, hv⟩ := hboth
      cases u <;> cases v
      case num.num x y => rw [OrderBlind.eq_of_isOne hu hv]
      all_goals simp [Expr.isOne] at hu hv
    · split_ifs with hzero hu hv
      · rfl
      · exact absurd ⟨hu, hv⟩ hboth
      all_goals rfl
  · rw [hsome]
    rfl

end Nodes

end NormalForm

open NormalForm

/-- **Sums and products may be swapped.** Over literals with commutative and associative sums and
products, `a + b` and `b + a` have one normal form, and so do `a * b` and `b * a`, provided that
different terms and different bases that meet in them have different texts. -/
theorem Expr.simplify_operands_comm {K : Type} [Literal K] [DecidableEq K] [Spelling K]
    [OrderBlind K] (h : CommutativeLiterals K) {domain : Domain} {a b : Expr K}
    (hterms : TextsDiffer (rests (terms Literal.one (.add (pass domain a) (pass domain b)))))
    (hbases : TextsDiffer (bases (factors (.mul (pass domain a) (pass domain b))))) :
    (add a b).simplify domain = (add b a).simplify domain ∧
      (mul a b).simplify domain = (mul b a).simplify domain :=
  ⟨settle_eq_of_eq (applyRules_add_swap h hterms), settle_eq_of_eq (applyRules_mul_swap h hbases)⟩

instance : OrderBlind ExactNumber where
  isFinite_add_of_isZero _ _ := rfl
  eq_of_isOne hx hy := by
    simp only [Literal.isOne, Literal.eq, decide_eq_true_iff] at hx hy
    exact congrArg ExactNumber.mk (hx.trans hy.symm)
  cancels_of_perm _ _ _ hsum := by simp only [Literal.cancels, hsum]

/-- The real numbers are such literals. -/
theorem commutativeLiterals_exactNumber : CommutativeLiterals ExactNumber where
  add_comm := fun x y : ExactNumber => congrArg ExactNumber.mk (add_comm x.value y.value)
  add_assoc := fun x y z : ExactNumber =>
    congrArg ExactNumber.mk (add_assoc x.value y.value z.value)
  mul_comm := fun x y : ExactNumber => congrArg ExactNumber.mk (mul_comm x.value y.value)
  mul_assoc := fun x y z : ExactNumber =>
    congrArg ExactNumber.mk (mul_assoc x.value y.value z.value)

theorem Expr.simplify_operands_comm_rb_ra :
    (add (sym "rb") (sym "ra") : Expr ExactNumber).simplify .densities =
        (add (sym "ra") (sym "rb")).simplify .densities ∧
      (mul (sym "rb") (sym "ra") : Expr ExactNumber).simplify .densities =
        (mul (sym "ra") (sym "rb")).simplify .densities := by
  have hdiffer : TextsDiffer [(sym "rb" : Expr ExactNumber), sym "ra"] := by
    simp [TextsDiffer, Expr.text]
  exact Expr.simplify_operands_comm commutativeLiterals_exactNumber hdiffer hdiffer

end DensityKernel
