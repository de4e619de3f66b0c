import DensityKernel.NormalForm.Terms
import DensityKernel.Proofs.NormalForm.Factors

/-!
Sums in order. The terms of a sum are followed through the steps that put it in
order, in the same way as the factors of a product.
-/

namespace DensityKernel.NormalForm

open DensityKernel.Expr DensityKernel.Literal

variable {K : Type} [Literal K]

/-- The term that a group of like terms stands for. -/
def LikeTerms.term (group : LikeTerms K) : Term K :=
  ⟨group.sum, some group.rest⟩

/-- What gathering does with one term. -/
def gather [DecidableEq K] [Spelling K] (groups : List (LikeTerms K)) (t : Term K) :
    List (LikeTerms K) :=
  match t.rest with
  | none => groups
  | some rest => addTerm rest rest.text t.coefficient groups

theorem gatherTerms_eq [DecidableEq K] [Spelling K] (ts : List (Term K)) :
    gatherTerms ts = ts.foldl gather [] :=
  rfl

variable [Exact K] {R : Reading K} {e e' : Expr K} {ts : List (Term K)}

/-! ### Terms -/

/-- What a term multiplies, as a number: one for a constant. -/
noncomputable def restValue (R : Reading K) (rest : Option (Expr K)) : ℝ :=
  (rest.map R.value).getD 1

namespace Term

/-- The coefficient is finite and the rest has a value. -/
def Defined (R : Reading K) (t : Term K) : Prop :=
  isFinite t.coefficient = true ∧ ∀ rest ∈ t.rest, R.Defined rest

noncomputable def value (R : Reading K) (t : Term K) : ℝ :=
  real t.coefficient * restValue R t.rest

theorem toExpr_spec {t : Term K} (h : t.Defined R) :
    R.Defined t.toExpr ∧ R.value t.toExpr = t.value R := by
  obtain ⟨x, rest⟩ := t
  obtain ⟨hx, hrest⟩ := h
  cases rest with
  | none => exact ⟨R.defined_num.mpr hx, R.value_num.trans (mul_one _).symm⟩
  | some rest =>
    obtain ⟨hdefined, hvalue⟩ :=
      buildProduct_spec hx (List.forall_mem_singleton.mpr (hrest rest rfl))
    refine ⟨hdefined, hvalue.trans ?_⟩
    rw [List.map_singleton, List.prod_singleton]
    rfl

end Term

/-- The values of some terms together. -/
noncomputable def termSum (R : Reading K) (ts : List (Term K)) : ℝ :=
  (ts.map (Term.value R)).sum

@[simp] theorem termSum_cons (t : Term K) (ts : List (Term K)) :
    termSum R (t :: ts) = t.value R + termSum R ts :=
  List.sum_cons

theorem termSum_append (ts ts' : List (Term K)) :
    termSum R (ts ++ ts') = termSum R ts + termSum R ts' := by
  rw [termSum, List.map_append, List.sum_append]
  rfl

/-! ### Like terms -/

/-- The values of some groups together. -/
noncomputable def likeSum (R : Reading K) (groups : List (LikeTerms K)) : ℝ :=
  termSum R (groups.map LikeTerms.term)

@[simp] theorem likeSum_cons (group : LikeTerms K) (groups : List (LikeTerms K)) :
    likeSum R (group :: groups) = group.term.value R + likeSum R groups :=
  termSum_cons _ _

/-! ### The terms of a sum -/

theorem Term.ofExpr_spec {sign : K} (hsign : isFinite sign = true) (he : R.Defined e) :
    (Term.ofExpr sign e).Defined R ∧
      (Term.ofExpr sign e).value R = real sign * R.value e := by
  unfold Term.ofExpr
  split
  · rename_i x
    obtain ⟨hfinite, hreal⟩ := Exact.mul_spec hsign (R.defined_num.mp he)
    refine ⟨⟨hfinite, by simp⟩, (mul_one _).trans ?_⟩
    rw [R.value_num]
    exact hreal
  · rename_i u v
    dsimp only
    have hfactors := defined_factors he
    obtain ⟨hcoeff, hsplit⟩ := coefficient_spec hsign hfactors
    rw [prod_factors] at hsplit
    split
    · rename_i hnone
      rw [hnone] at hsplit
      exact ⟨⟨hcoeff, by simp⟩, hsplit⟩
    · have hothers : ∀ f ∈ nonLiterals (factors (.mul u v)), R.Defined f :=
        fun f hf => hfactors f (List.mem_filter.mp hf).1
      obtain ⟨hdefined, hvalue⟩ := buildProduct_spec isFinite_one hothers
      refine ⟨⟨hcoeff, by simpa using hdefined⟩, ?_⟩
      rw [← hsplit, Term.value, restValue, Option.map_some, Option.getD_some, hvalue, real_one,
        one_mul]
  · exact ⟨⟨hsign, by simpa using he⟩, rfl⟩

/-- The terms of a sum, each with its sign, add up to the sum. -/
theorem terms_spec {sign : K} (hsign : isFinite sign = true) (he : R.Defined e) :
    (∀ t ∈ terms sign e, t.Defined R) ∧
      termSum R (terms sign e) = real sign * R.value e := by
  induction e generalizing sign with
  | num | sym | call =>
    obtain ⟨hdefined, hvalue⟩ := Term.ofExpr_spec hsign he
    exact ⟨List.forall_mem_singleton.mpr hdefined, (add_zero _).trans hvalue⟩
  | binary op u v ihu ihv =>
    cases op with
    | add =>
      obtain ⟨hu, hv⟩ := R.defined_add.mp he
      obtain ⟨hdu, hvu⟩ := ihu hsign hu
      obtain ⟨hdv, hvv⟩ := ihv hsign hv
      refine ⟨List.forall_mem_append.mpr ⟨hdu, hdv⟩, ?_⟩
      rw [terms, termSum_append, hvu, hvv, R.value_add, mul_add]
    | sub =>
      obtain ⟨hu, hv⟩ := R.defined_sub.mp he
      obtain ⟨hfinite, hreal⟩ := Exact.neg_spec hsign
      obtain ⟨hdu, hvu⟩ := ihu hsign hu
      obtain ⟨hdv, hvv⟩ := ihv hfinite hv
      refine ⟨List.forall_mem_append.mpr ⟨hdu, hdv⟩, ?_⟩
      rw [terms, termSum_append, hvu, hvv, hreal, R.value_sub]
      ring
    | mul | div | pow =>
      obtain ⟨hdefined, hvalue⟩ := Term.ofExpr_spec hsign he
      exact ⟨List.forall_mem_singleton.mpr hdefined, (add_zero _).trans hvalue⟩

/-! ### Gathering -/

theorem mergeTerm_spec {rest : Option (Expr K)} {x y : K} (hx : (⟨x, rest⟩ : Term K).Defined R)
    (hy : (⟨y, rest⟩ : Term K).Defined R) :
    (⟨x + y, rest⟩ : Term K).Defined R ∧ (⟨x + y, rest⟩ : Term K).value R =
      (⟨x, rest⟩ : Term K).value R + (⟨y, rest⟩ : Term K).value R := by
  obtain ⟨hfinite, hreal⟩ := Exact.add_spec hx.1 hy.1
  refine ⟨⟨hfinite, hx.2⟩, ?_⟩
  rw [Term.value, hreal, add_mul]
  rfl

section Gathering

variable [DecidableEq K] {groups : List (LikeTerms K)}

/-- A coefficient is added to that of a like term. -/
theorem addTerm_spec {rest : Expr K} (text : String) {x : K}
    (hterm : (⟨x, some rest⟩ : Term K).Defined R)
    (hgroups : ∀ group ∈ groups, group.term.Defined R) :
    (∀ group ∈ addTerm rest text x groups, group.term.Defined R) ∧
      likeSum R (addTerm rest text x groups) =
        (⟨x, some rest⟩ : Term K).value R + likeSum R groups := by
  induction groups with
  | nil => exact ⟨List.forall_mem_singleton.mpr hterm, rfl⟩
  | cons group groups ih =>
    obtain ⟨hgroup, hothers⟩ := List.forall_mem_cons.mp hgroups
    rw [addTerm]
    split_ifs with heq
    · obtain ⟨-, rfl⟩ := heq
      obtain ⟨hmerged, hvalue⟩ := mergeTerm_spec hgroup hterm
      refine ⟨List.forall_mem_cons.mpr ⟨hmerged, hothers⟩, ?_⟩
      rw [likeSum_cons, likeSum_cons, ← add_assoc, add_comm (Term.value R ⟨x, _⟩)]
      exact congrArg (· + likeSum R groups) hvalue
    · obtain ⟨hdefined, hvalue⟩ := ih hothers
      refine ⟨List.forall_mem_cons.mpr ⟨hgroup, hdefined⟩, ?_⟩
      rw [likeSum_cons, hvalue, likeSum_cons, add_left_comm]

variable [Spelling K]

/-- Constants and like terms together add up to what was gathered. -/
theorem gather_spec (hts : ∀ t ∈ ts, t.Defined R) :
    isFinite (constantPart ts) = true ∧ (∀ group ∈ gatherTerms ts, group.term.Defined R) ∧
      real (constantPart ts) + likeSum R (gatherTerms ts) = termSum R ts := by
  suffices hfrom : ∀ (constant : K) (groups : List (LikeTerms K)), isFinite constant = true →
      (∀ group ∈ groups, group.term.Defined R) →
      let total := ts.foldl
        (fun sum t => if t.rest.isNone then sum + t.coefficient else sum) constant
      let gathered := ts.foldl gather groups
      isFinite total = true ∧ (∀ group ∈ gathered, group.term.Defined R) ∧
        real total + likeSum R gathered = real constant + likeSum R groups + termSum R ts by
    obtain ⟨hfinite, hdefined, hvalue⟩ := hfrom Literal.zero [] isFinite_zero (by simp)
    rw [gatherTerms_eq]
    refine ⟨hfinite, hdefined, hvalue.trans ?_⟩
    rw [real_zero, zero_add]
    exact zero_add _
  induction ts with
  | nil => exact fun constant groups hconstant hgroups => ⟨hconstant, hgroups, (add_zero _).symm⟩
  | cons t ts ih =>
    intro constant groups hconstant hgroups
    obtain ⟨ht, hothers⟩ := List.forall_mem_cons.mp hts
    obtain ⟨x, rest⟩ := t
    rw [termSum_cons]
    cases rest with
    | none =>
      obtain ⟨hfinite, hreal⟩ := Exact.add_spec hconstant ht.1
      obtain ⟨htotal, hdefined, hvalue⟩ := ih hothers (constant + x) groups hfinite hgroups
      refine ⟨htotal, hdefined, hvalue.trans ?_⟩
      have hx : (⟨x, none⟩ : Term K).value R = real x := mul_one _
      rw [hreal, hx]
      ring
    | some rest =>
      obtain ⟨hadded, hsum⟩ := addTerm_spec rest.text ht hgroups
      obtain ⟨htotal, hdefined, hvalue⟩ := ih hothers constant _ hconstant hadded
      refine ⟨htotal, hdefined, hvalue.trans ?_⟩
      rw [hsum]
      ring

end Gathering

/-! ### Rebuilding -/

/-- Dropping cancelled terms leaves the sum as it is. -/
theorem likeSum_filter {groups : List (LikeTerms K)}
    (hgroups : ∀ group ∈ groups, group.term.Defined R) :
    likeSum R (groups.filter fun group => !Literal.cancels group.sum group.scale) =
      likeSum R groups := by
  induction groups with
  | nil => rfl
  | cons group groups ih =>
    obtain ⟨hgroup, hothers⟩ := List.forall_mem_cons.mp hgroups
    cases hcancels : Literal.cancels group.sum group.scale with
    | false => simp [hcancels, ih hothers]
    | true =>
      have hzero : group.term.value R = 0 := by
        rw [Term.value, Exact.cancels_spec hgroup.1 hcancels, zero_mul]
      simp [hcancels, ih hothers, hzero]

/-- A negative term is subtracted with its sign changed. -/
theorem appendTerm_spec {sum : Expr K} {t : Term K} (hsum : R.Defined sum) (ht : t.Defined R) :
    R.Defined (appendTerm sum t) ∧
      R.value (appendTerm sum t) = R.value sum + t.value R := by
  unfold appendTerm
  split_ifs with hnegative
  · obtain ⟨hfinite, hreal⟩ := Exact.neg_spec ht.1
    have hnegated : (⟨-t.coefficient, t.rest⟩ : Term K).Defined R := ⟨hfinite, ht.2⟩
    obtain ⟨hdefined, hvalue⟩ := Term.toExpr_spec hnegated
    refine ⟨R.defined_sub.mpr ⟨hsum, hdefined⟩, ?_⟩
    rw [R.value_sub, hvalue, Term.value, hreal, Term.value]
    ring
  · obtain ⟨hdefined, hvalue⟩ := Term.toExpr_spec ht
    exact ⟨R.defined_add.mpr ⟨hsum, hdefined⟩, by rw [R.value_add, hvalue]⟩

theorem foldl_appendTerm_spec {sum : Expr K} (hsum : R.Defined sum)
    (hts : ∀ t ∈ ts, t.Defined R) :
    R.Defined (ts.foldl appendTerm sum) ∧
      R.value (ts.foldl appendTerm sum) = R.value sum + termSum R ts := by
  induction ts generalizing sum with
  | nil => exact ⟨hsum, (add_zero _).symm⟩
  | cons t ts ih =>
    obtain ⟨ht, hothers⟩ := List.forall_mem_cons.mp hts
    obtain ⟨happended, hvalue⟩ := appendTerm_spec hsum ht
    obtain ⟨hdefined, htotal⟩ := ih happended hothers
    refine ⟨hdefined, htotal.trans ?_⟩
    rw [hvalue, termSum_cons, add_assoc]

theorem buildSum_spec (hts : ∀ t ∈ ts, t.Defined R) :
    R.Defined (buildSum ts) ∧ R.value (buildSum ts) = termSum R ts := by
  cases ts with
  | nil => exact ⟨R.defined_zero, R.value_zero⟩
  | cons t ts =>
    obtain ⟨ht, hothers⟩ := List.forall_mem_cons.mp hts
    obtain ⟨hdefined, hvalue⟩ := Term.toExpr_spec ht
    rw [termSum_cons, ← hvalue]
    exact foldl_appendTerm_spec hdefined hothers

/-- The terms of some groups, sorted, have the sum of the groups. -/
theorem sortedTerms_spec (groups : List (LikeTerms K))
    (hgroups : ∀ group ∈ groups, group.term.Defined R) :
    let sorted := sortByText (groups.map fun group => (group.text, group.term))
    (∀ t ∈ sorted, t.Defined R) ∧ termSum R sorted = likeSum R groups := by
  intro sorted
  have hperm : sorted.Perm (groups.map LikeTerms.term) := sortByText_map_perm _ _ _
  constructor
  · intro t ht
    obtain ⟨group, hgroup, rfl⟩ := List.mem_map.mp (hperm.mem_iff.mp ht)
    exact hgroups group hgroup
  · exact (hperm.map _).sum_eq

section

variable [DecidableEq K] [Spelling K]

/-- **Putting a sum in order keeps its value.** -/
theorem orderedSum_refines (e : Expr K) : R.RefinedBy e (orderedSum e) := by
  intro he
  obtain ⟨hterms, hsum⟩ := terms_spec isFinite_one he
  rw [real_one, one_mul] at hsum
  obtain ⟨hconstant, hgroups, hgathered⟩ := gather_spec hterms
  obtain ⟨hsorted, hkept⟩ := sortedTerms_spec
    ((gatherTerms (terms Literal.one e)).filter
      fun group => !Literal.cancels group.sum group.scale)
    fun group hgroup => hgroups group (List.mem_filter.mp hgroup).1
  rw [likeSum_filter hgroups] at hkept
  rw [← hsum, ← hgathered, ← hkept]
  unfold orderedSum
  dsimp only
  split_ifs with hzero
  · rw [(isZero_iff.mp hzero).2, zero_add]
    exact buildSum_spec hsorted
  · have hfirst : (⟨constantPart (terms Literal.one e), none⟩ : Term K).Defined R :=
      ⟨hconstant, by simp⟩
    obtain ⟨hdefined, hvalue⟩ := buildSum_spec (List.forall_mem_cons.mpr ⟨hfirst, hsorted⟩)
    refine ⟨hdefined, hvalue.trans ?_⟩
    rw [termSum_cons]
    exact congrArg (· + _) (mul_one _)

theorem collectTerms_sound (h : collectTerms e = some e') : R.RefinedBy e e' := by
  unfold collectTerms at h
  dsimp only at h
  split_ifs at h
  obtain rfl := Option.some.inj h
  exact orderedSum_refines _

end

end DensityKernel.NormalForm
