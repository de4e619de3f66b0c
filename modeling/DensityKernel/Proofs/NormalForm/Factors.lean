import DensityKernel.NormalForm.Factors
import DensityKernel.Proofs.NormalForm.Local

/-!
Products in order. The factors of a product are followed through the steps that
put it in order: their product is the value at every step, and each of them
stays defined.
-/

namespace DensityKernel.NormalForm

open DensityKernel.Expr DensityKernel.Literal

variable {K : Type} [Literal K]

/-! ### Sorting -/

theorem sortByText_perm {α : Type} (entries : List (String × α)) :
    (sortByText entries).Perm (entries.map (·.2)) :=
  (List.mergeSort_perm _ _).map _

/-- Entries sorted by the text of what they were made from are the same entries. -/
theorem sortByText_map_perm {α β : Type} (text : α → String) (f : α → β) (xs : List α) :
    (sortByText (xs.map fun x => (text x, f x))).Perm (xs.map f) := by
  simpa [Function.comp_def] using sortByText_perm (xs.map fun x => (text x, f x))

theorem pairwise_mergeSort {α : Type} (entries : List (String × α)) :
    (entries.mergeSort fun a b => decide (a.1 ≤ b.1)).Pairwise fun a b => a.1 ≤ b.1 := by
  refine List.Pairwise.imp of_decide_eq_true (List.pairwise_mergeSort ?_ ?_ entries)
  · intro a b c hab hbc
    rw [decide_eq_true_iff] at hab hbc ⊢
    exact String.le_trans hab hbc
  · intro a b
    simpa using String.le_total a.1 b.1

/-- Entries sorted by their own texts are in the order of these. -/
theorem pairwise_sortByText {α : Type} (text : α → String) (xs : List α) :
    (sortByText (xs.map fun x => (text x, x))).Pairwise fun x y => text x ≤ text y := by
  have hown : ∀ a ∈ (xs.map fun x => (text x, x)).mergeSort fun a b => decide (a.1 ≤ b.1),
      a.1 = text a.2 := by
    intro a ha
    obtain ⟨x, -, rfl⟩ := List.mem_map.mp (List.mem_mergeSort.mp ha)
    rfl
  refine List.pairwise_map.mpr ((pairwise_mergeSort _).imp_of_mem ?_)
  intro a b ha hb hle
  rwa [hown a ha, hown b hb] at hle

/-! ### Factors -/

section Factors

omit [Literal K] in
theorem eq_num_of_literal? {f : Expr K} {x : K} (h : f.literal? = some x) : f = .num x := by
  cases f with
  | num y => exact congrArg Expr.num (Option.some.inj h)
  | sym | call | binary => simp [literal?] at h

variable [Exact K] {R : Reading K} {e f : Expr K} {fs : List (Expr K)}

theorem defined_factors (h : R.Defined e) : ∀ f ∈ factors e, R.Defined f := by
  induction e with
  | num | sym | call => exact List.forall_mem_singleton.mpr h
  | binary op u v ihu ihv =>
    cases op with
    | mul =>
      obtain ⟨hu, hv⟩ := R.defined_mul.mp h
      rw [factors]
      exact List.forall_mem_append.mpr ⟨ihu hu, ihv hv⟩
    | add | sub | div | pow => exact List.forall_mem_singleton.mpr h

theorem prod_factors (e : Expr K) : ((factors e).map R.value).prod = R.value e := by
  induction e with
  | num | sym | call => simp [factors]
  | binary op u v ihu ihv =>
    cases op with
    | mul => rw [factors, List.map_append, List.prod_append, ihu, ihv, R.value_mul]
    | add | sub | div | pow => simp [factors]

/-- A product of factors from left to right. -/
theorem foldl_mul_spec {u : Expr K} (hu : R.Defined u) (hfs : ∀ f ∈ fs, R.Defined f) :
    R.Defined (fs.foldl .mul u) ∧
      R.value (fs.foldl .mul u) = R.value u * (fs.map R.value).prod := by
  induction fs generalizing u with
  | nil => exact ⟨hu, by simp⟩
  | cons f fs ih =>
    obtain ⟨hf, hrest⟩ := List.forall_mem_cons.mp hfs
    obtain ⟨hdefined, hvalue⟩ := ih (R.defined_mul.mpr ⟨hu, hf⟩) hrest
    refine ⟨hdefined, hvalue.trans ?_⟩
    rw [R.value_mul, List.map_cons, List.prod_cons, mul_assoc]

theorem buildProduct_spec {coeff : K} (hcoeff : isFinite coeff = true)
    (hfs : ∀ f ∈ fs, R.Defined f) :
    R.Defined (buildProduct coeff fs) ∧
      R.value (buildProduct coeff fs) = real coeff * (fs.map R.value).prod := by
  have hnum : R.Defined (.num coeff) := R.defined_num.mpr hcoeff
  cases fs with
  | nil => exact ⟨hnum, by simp [buildProduct, R.value_num]⟩
  | cons f fs =>
    obtain ⟨hf, hrest⟩ := List.forall_mem_cons.mp hfs
    rw [buildProduct, List.map_cons, List.prod_cons, ← mul_assoc]
    split_ifs with hone
    · rw [(isOne_iff.mp hone).2, one_mul]
      exact foldl_mul_spec hf hrest
    · obtain ⟨hdefined, hvalue⟩ := foldl_mul_spec (R.defined_mul.mpr ⟨hnum, hf⟩) hrest
      exact ⟨hdefined, by rw [hvalue, R.value_mul, R.value_num]⟩

/-- The literals among some factors are multiplied to the start, and the others
are left. -/
theorem coefficient_spec {start : K} (hstart : isFinite start = true)
    (hfs : ∀ f ∈ fs, R.Defined f) :
    isFinite (coefficient start fs) = true ∧
      real (coefficient start fs) * ((nonLiterals fs).map R.value).prod =
        real start * (fs.map R.value).prod := by
  induction fs generalizing start with
  | nil => exact ⟨hstart, rfl⟩
  | cons f fs ih =>
    obtain ⟨hf, hrest⟩ := List.forall_mem_cons.mp hfs
    rw [List.map_cons, List.prod_cons, ← mul_assoc]
    cases hliteral : f.literal? with
    | some x =>
      obtain rfl := eq_num_of_literal? hliteral
      obtain ⟨hfinite, hreal⟩ := Exact.mul_spec hstart (R.defined_num.mp hf)
      rw [R.value_num, ← hreal]
      exact ih hfinite hrest
    | none =>
      have hcoefficient : coefficient start (f :: fs) = coefficient start fs := by
        simp [coefficient, hliteral]
      have hothers : nonLiterals (f :: fs) = f :: nonLiterals fs := by
        simp [nonLiterals, hliteral]
      obtain ⟨hfinite, hvalue⟩ := ih hstart hrest
      rw [hcoefficient, hothers, List.map_cons, List.prod_cons, mul_left_comm, hvalue]
      exact ⟨hfinite, by ring⟩

end Factors

/-! ### Powers -/

section Powers

/-- The power that a group stands for. -/
def PowerGroup.power (group : PowerGroup K) : Expr K :=
  .pow group.base (.num group.exponent)

variable [Exact K] {R : Reading K}

/-- The product of the powers of some groups. -/
noncomputable def groupProduct (R : Reading K) (groups : List (PowerGroup K)) : ℝ :=
  (groups.map fun group => R.value group.power).prod

@[simp] theorem groupProduct_cons (group : PowerGroup K) (groups : List (PowerGroup K)) :
    groupProduct R (group :: groups) = R.value group.power * groupProduct R groups :=
  List.prod_cons

theorem splitPower_refines (f : Expr K) :
    R.RefinedBy f (.pow (splitPower f).1 (.num (splitPower f).2)) := by
  unfold splitPower
  split
  · exact .refl _
  · intro hf
    exact ⟨R.defined_pow_one hf, R.value_pow_one R.value_one⟩

theorem PowerGroup.factor_refines (group : PowerGroup K) :
    R.RefinedBy group.power group.factor := by
  unfold PowerGroup.factor
  split_ifs with hone
  · intro hpower
    have hexponent : R.value (.num group.exponent) = 1 :=
      R.value_num.trans (isOne_iff.mp hone).2
    exact ⟨(R.defined_pow hpower).1, (R.value_pow_one hexponent).symm⟩
  · exact .refl _

/-- Dropping the groups with exponent zero leaves the product as it is. -/
theorem groupProduct_filter (groups : List (PowerGroup K)) :
    groupProduct R (groups.filter fun group => !Literal.isZero group.exponent) =
      groupProduct R groups := by
  induction groups with
  | nil => rfl
  | cons group groups ih =>
    cases hzero : Literal.isZero group.exponent with
    | false => simp [hzero, ih]
    | true =>
      have hone : R.value group.power = 1 :=
        R.value_pow_zero (R.value_num.trans (isZero_iff.mp hzero).2)
      simp [hzero, ih, hone]

/-- The factors of some groups, sorted, have the product of the groups. -/
theorem sortedFactors_spec (groups : List (PowerGroup K))
    (hgroups : ∀ group ∈ groups, R.Defined group.power) :
    let sorted := sortByText (groups.map fun group => (group.text, group.factor))
    (∀ f ∈ sorted, R.Defined f) ∧ (sorted.map R.value).prod = groupProduct R groups := by
  intro sorted
  have hperm : sorted.Perm (groups.map PowerGroup.factor) := sortByText_map_perm _ _ _
  constructor
  · intro f hf
    obtain ⟨group, hgroup, rfl⟩ := List.mem_map.mp (hperm.mem_iff.mp hf)
    exact (group.factor_refines (hgroups group hgroup)).1
  · rw [(hperm.map _).prod_eq, List.map_map, groupProduct]
    exact congrArg List.prod (List.map_congr_left fun group hgroup =>
      (group.factor_refines (hgroups group hgroup)).2)

variable [DecidableEq K] {groups : List (PowerGroup K)}

theorem addPower_spec (new : PowerGroup K) (hnew : R.Defined new.power)
    (hgroups : ∀ group ∈ groups, R.Defined group.power) :
    (∀ group ∈ addPower new groups, R.Defined group.power) ∧
      groupProduct R (addPower new groups) = R.value new.power * groupProduct R groups := by
  induction groups with
  | nil => exact ⟨by simpa [addPower] using hnew, rfl⟩
  | cons group groups ih =>
    obtain ⟨hgroup, hrest⟩ := List.forall_mem_cons.mp hgroups
    rw [addPower]
    split_ifs with heq
    · have hpower : new.power = .pow group.base (.num new.exponent) := by
        rw [PowerGroup.power, heq.2]
      rw [hpower] at hnew ⊢
      obtain ⟨hmerged, hvalue⟩ := R.pow_add hnew hgroup
      refine ⟨List.forall_mem_cons.mpr ⟨hmerged, hrest⟩, ?_⟩
      rw [groupProduct_cons, groupProduct_cons, ← mul_assoc]
      exact congrArg (· * _) hvalue
    · obtain ⟨hdefined, hvalue⟩ := ih hrest
      refine ⟨List.forall_mem_cons.mpr ⟨hgroup, hdefined⟩, ?_⟩
      rw [groupProduct_cons, hvalue, groupProduct_cons, mul_left_comm]

variable [Spelling K] {e e' : Expr K}

/-- Gathering keeps the product of the factors. -/
theorem gatherPowers_spec (fs : List (Expr K)) (hfs : ∀ f ∈ fs, R.Defined f) :
    (∀ group ∈ gatherPowers fs, R.Defined group.power) ∧
      groupProduct R (gatherPowers fs) = (fs.map R.value).prod := by
  suffices hfrom : ∀ groups : List (PowerGroup K), (∀ group ∈ groups, R.Defined group.power) →
      let gathered := fs.foldl (fun groups f =>
        addPower ⟨(splitPower f).1, (splitPower f).1.text, (splitPower f).2⟩ groups) groups
      (∀ group ∈ gathered, R.Defined group.power) ∧
        groupProduct R gathered = groupProduct R groups * (fs.map R.value).prod by
    obtain ⟨hdefined, hvalue⟩ := hfrom [] (by simp)
    exact ⟨hdefined, hvalue.trans (one_mul _)⟩
  induction fs with
  | nil => exact fun groups hgroups => ⟨hgroups, (mul_one _).symm⟩
  | cons f fs ih =>
    intro groups hgroups
    obtain ⟨hf, hrest⟩ := List.forall_mem_cons.mp hfs
    obtain ⟨hpower, hvalue⟩ := splitPower_refines f hf
    obtain ⟨hadded, hproduct⟩ :=
      addPower_spec ⟨(splitPower f).1, (splitPower f).1.text, (splitPower f).2⟩ hpower hgroups
    obtain ⟨hdefined, htotal⟩ := ih hrest _ hadded
    refine ⟨hdefined, htotal.trans ?_⟩
    rw [hproduct, List.map_cons, List.prod_cons, ← hvalue, PowerGroup.power]
    ring

/-- **Putting a product in order keeps its value.** -/
theorem orderedProduct_refines (e : Expr K) : R.RefinedBy e (orderedProduct e) := by
  intro he
  have hfactors := defined_factors he
  obtain ⟨hcoeff, hsplit⟩ := coefficient_spec isFinite_one hfactors
  rw [real_one, one_mul, prod_factors] at hsplit
  unfold orderedProduct
  dsimp only
  split_ifs with hzero
  · refine ⟨R.defined_zero, ?_⟩
    rw [← hsplit, (isZero_iff.mp hzero).2, zero_mul, R.value_zero]
  · obtain ⟨hgroups, hgathered⟩ := gatherPowers_spec (nonLiterals (factors e))
      fun f hf => hfactors f (List.mem_filter.mp hf).1
    obtain ⟨hsorted, hproduct⟩ := sortedFactors_spec
      ((gatherPowers (nonLiterals (factors e))).filter
        fun group => !Literal.isZero group.exponent)
      fun group hgroup => hgroups group (List.mem_filter.mp hgroup).1
    obtain ⟨hdefined, hvalue⟩ := buildProduct_spec hcoeff hsorted
    refine ⟨hdefined, hvalue.trans ?_⟩
    rw [hproduct, groupProduct_filter, hgathered, hsplit]

theorem collectFactors_sound (h : collectFactors e = some e') : R.RefinedBy e e' := by
  unfold collectFactors at h
  split at h
  · dsimp only at h
    split_ifs at h
    obtain rfl := Option.some.inj h
    exact orderedProduct_refines _
  · exact absurd h (by simp)

end Powers

end DensityKernel.NormalForm
