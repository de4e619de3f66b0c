import DensityKernel.Proofs.Expr.Nodes
import DensityKernel.Proofs.NormalForm.Terms
import DensityKernel.Proofs.Number.Arithmetic

/-!
Like terms that cancel. A group of like terms is the sum of the coefficients that
contribute to it, in the order of the terms (`mem_gatherTerms`). Over doubles it is
dropped when a contribution is not finite, and otherwise exactly when the sum is
within the tolerance of the largest contribution; a sum that has overflowed is kept
(`collectTerms_groups`).
-/

namespace DensityKernel.NormalForm

open DensityKernel.Expr

/-! ### Contributions -/

section Gathering

variable {K : Type} [Literal K] [DecidableEq K]

/-- The coefficients that are taken together in front of `rest`. -/
def contributions (ts : List (Term K)) (rest : Expr K) : List K :=
  ts.filterMap fun t => if t.rest = some rest then some t.coefficient else none

omit [DecidableEq K] in
/-- A group with one more contribution. -/
def LikeTerms.absorb (group : LikeTerms K) (x : K) : LikeTerms K :=
  { group with
    sum := group.sum + x
    scale := Literal.max group.scale (Literal.magnitude x) }

variable [Spelling K] {ts : List (Term K)} {groups : List (LikeTerms K)} {group : LikeTerms K}
  {rest r : Expr K} {x : K} {xs : List K}

omit [DecidableEq K] in
/-- A group with one contribution. -/
def LikeTerms.single (rest : Expr K) (x : K) : LikeTerms K :=
  ⟨rest, rest.text, x, Literal.magnitude x⟩

omit [DecidableEq K] in
/-- The group of some contributions. -/
def LikeTerms.ofContributions (rest : Expr K) : List K → Option (LikeTerms K)
  | [] => none
  | x :: xs => some (xs.foldl absorb (single rest x))

omit [DecidableEq K] in
theorem ofContributions_concat : LikeTerms.ofContributions rest (xs ++ [x]) =
    some (((LikeTerms.ofContributions rest xs).map (·.absorb x)).getD (.single rest x)) := by
  cases xs with
  | nil => rfl
  | cons y ys => simp [LikeTerms.ofContributions]

omit [DecidableEq K] in
theorem rest_text_of_ofContributions (h : LikeTerms.ofContributions rest xs = some group) :
    group.rest = rest ∧ group.text = rest.text := by
  have hfold : ∀ (ys : List K) (g : LikeTerms K),
      (ys.foldl LikeTerms.absorb g).rest = g.rest ∧
        (ys.foldl LikeTerms.absorb g).text = g.text := by
    intro ys
    induction ys with
    | nil => exact fun g => ⟨rfl, rfl⟩
    | cons y ys ih => exact fun g => ih (g.absorb y)
  cases xs with
  | nil => cases h
  | cons x xs =>
    obtain rfl := Option.some.inj h
    exact hfold xs _

/-- Adding a term changes the first group of its rest, and no other group. -/
theorem filter_addTerm (hgroups : ∀ group ∈ groups, group.text = group.rest.text) :
    (addTerm rest rest.text x groups).filter (·.rest = r) =
      if rest = r then
        match groups.filter (·.rest = r) with
        | [] => [.single r x]
        | group :: others => group.absorb x :: others
      else groups.filter (·.rest = r) := by
  induction groups with
  | nil =>
    rw [addTerm, List.filter_nil]
    split_ifs with hr
    · subst hr
      exact List.filter_cons_of_pos (by simp)
    · exact List.filter_cons_of_neg (by simpa using hr)
  | cons group groups ih =>
    obtain ⟨htext, hothers⟩ := List.forall_mem_cons.mp hgroups
    rw [addTerm]
    by_cases hgroup : group.rest = rest
    · rw [if_pos ⟨hgroup ▸ htext, hgroup⟩]
      subst hgroup
      by_cases hr : group.rest = r
      · simp [hr, LikeTerms.absorb]
      · simp [hr]
    · rw [if_neg fun h => hgroup h.2, List.filter_cons, ih hothers]
      by_cases hr : rest = r
      · subst hr
        simp [hgroup]
      · rw [if_neg hr, if_neg hr, List.filter_cons]

/-- The groups of one rest: none without contributions, and else one. -/
theorem filter_gatherTerms (ts : List (Term K)) (r : Expr K) :
    (gatherTerms ts).filter (·.rest = r) =
      (LikeTerms.ofContributions r (contributions ts r)).toList := by
  induction ts using List.reverseRecOn generalizing r with
  | nil => rfl
  | append_singleton ts t ih =>
    have htext : ∀ group ∈ gatherTerms ts, group.text = group.rest.text := by
      intro group hgroup
      have hmem : group ∈ (gatherTerms ts).filter (·.rest = group.rest) :=
        List.mem_filter.mpr ⟨hgroup, decide_eq_true rfl⟩
      rw [ih, Option.mem_toList] at hmem
      exact (rest_text_of_ofContributions hmem).2
    have hgather : gatherTerms (ts ++ [t]) = gather (gatherTerms ts) t := by
      rw [gatherTerms_eq, List.foldl_append]
      rfl
    have hcontributions : contributions (ts ++ [t]) r =
        contributions ts r ++ if t.rest = some r then [t.coefficient] else [] := by
      rw [contributions, List.filterMap_append]
      congr 1
      split_ifs with ht <;> simp [ht]
    rw [hgather, hcontributions, gather]
    cases hrest : t.rest with
    | none => simpa using ih r
    | some rest =>
      dsimp only
      rw [filter_addTerm htext]
      by_cases hr : rest = r
      · subst hr
        rw [if_pos rfl, if_pos rfl, ofContributions_concat, ih]
        cases LikeTerms.ofContributions rest (contributions ts rest) <;> rfl
      · rw [if_neg hr, if_neg fun h => hr (Option.some.inj h), List.append_nil, ih]

/-- **A group is made of its contributions**, and there is one for every rest that has any. -/
theorem mem_gatherTerms : group ∈ gatherTerms ts ↔
    LikeTerms.ofContributions group.rest (contributions ts group.rest) = some group := by
  rw [← Option.mem_toList, ← filter_gatherTerms, List.mem_filter]
  simp

end Gathering

/-! ### Literals of a sum -/

section Building

variable {e u : Expr Double} {t : Term Double} {ts : List (Term Double)}

/-- The expression of a term has its coefficient as a literal, unless it is one. -/
theorem coefficient_mem_literals (h : Literal.isFinite t.coefficient = false) :
    t.coefficient ∈ t.toExpr.literals := by
  have hone : Literal.isOne t.coefficient = false := by
    rw [Bool.eq_false_iff]
    intro hone
    rw [(Literal.isOne_iff.mp hone).1] at h
    cases h
  unfold Term.toExpr
  split
  · exact mem_literals_num.mpr rfl
  · rw [buildProduct, hone]
    exact mem_literals_binary.mpr (.inl (mem_literals_num.mpr rfl))

theorem not_finiteLiterals_toExpr (h : Literal.isFinite t.coefficient = false) :
    ¬t.toExpr.FiniteLiterals :=
  not_finiteLiterals_of_mem (coefficient_mem_literals h) h

theorem not_finiteLiterals_appendTerm
    (h : ¬u.FiniteLiterals ∨ Literal.isFinite t.coefficient = false) :
    ¬(appendTerm u t).FiniteLiterals := by
  unfold appendTerm
  split_ifs
  all_goals
    rw [finiteLiterals_binary, not_and_or]
    refine h.imp_right fun hfinite => ?_
  · exact not_finiteLiterals_toExpr ((Double.isFinite_negate _).trans hfinite)
  · exact not_finiteLiterals_toExpr hfinite

theorem not_finiteLiterals_foldl
    (h : ¬u.FiniteLiterals ∨ ∃ t ∈ ts, Literal.isFinite t.coefficient = false) :
    ¬(ts.foldl appendTerm u).FiniteLiterals := by
  induction ts generalizing u with
  | nil => simpa using h
  | cons t ts ih =>
    refine ih ?_
    rw [List.exists_mem_cons_iff, ← or_assoc] at h
    exact h.imp_left not_finiteLiterals_appendTerm

theorem not_finiteLiterals_buildSum (h : ∃ t ∈ ts, Literal.isFinite t.coefficient = false) :
    ¬(buildSum ts).FiniteLiterals := by
  cases ts with
  | nil => simp at h
  | cons t ts =>
    refine not_finiteLiterals_foldl ?_
    rw [List.exists_mem_cons_iff] at h
    exact h.imp_left not_finiteLiterals_toExpr

/-- A constant that is not finite is kept, and so is a group unless it is cancelled. -/
theorem not_finiteLiterals_orderedSum
    (h : Literal.isFinite (constantPart (terms Literal.one e)) = false ∨
      ∃ group ∈ gatherTerms (terms Literal.one e), Literal.isFinite group.sum = false ∧
        Literal.cancels group.sum group.scale = false) :
    ¬(orderedSum e).FiniteLiterals := by
  unfold orderedSum
  dsimp only
  refine not_finiteLiterals_buildSum ?_
  rcases h with hconstant | ⟨group, hgroup, hfinite, hkept⟩
  · have hzero : Literal.isZero (constantPart (terms Literal.one e)) = false := by
      rw [Bool.eq_false_iff]
      intro hzero
      rw [(Literal.isZero_iff.mp hzero).1] at hconstant
      cases hconstant
    rw [hzero]
    exact ⟨_, List.mem_cons_self, hconstant⟩
  · have hmem : group.term ∈ sortByText (((gatherTerms (terms Literal.one e)).filter
        fun group => !Literal.cancels group.sum group.scale).map
          fun group => (group.text, (⟨group.sum, some group.rest⟩ : Term Double))) := by
      refine (sortByText_map_perm _ _ _).mem_iff.mpr (List.mem_map.mpr ⟨group, ?_, rfl⟩)
      exact List.mem_filter.mpr ⟨hgroup, by rw [hkept]; rfl⟩
    split_ifs
    · exact ⟨_, hmem, hfinite⟩
    · exact ⟨_, List.mem_cons_of_mem _ hmem, hfinite⟩

end Building

/-! ### Groups over doubles -/

section Doubles

variable {group : LikeTerms Double} {e : Expr Double} {ts : List (Term Double)} {rest : Expr Double}
  {x : Double} {xs : List Double}

/-- The sum is NaN or the scale infinite. -/
def LikeTerms.Lost (group : LikeTerms Double) : Prop :=
  group.sum.isNaN = true ∨ group.scale.IsInfinity

/-- The sum is a number, which may be infinite, and the scale is finite. -/
structure LikeTerms.Sound (group : LikeTerms Double) : Prop where
  sum : group.sum.isNaN = false
  scale : Literal.isFinite group.scale = true

theorem LikeTerms.sound_single (h : Literal.isFinite x = true) : (single rest x).Sound :=
  ⟨Double.isNaN_of_isFinite h, (Double.real_magnitude h).1⟩

theorem LikeTerms.lost_single (h : Literal.isFinite x = false) : (single rest x).Lost := by
  rcases Double.kinds_of_not_isFinite h with hnan | ⟨s, hs⟩
  · exact .inl hnan
  · exact .inr (Double.unpacked_magnitude_of_infinity hs)

/-- A finite contribution may make the sum infinite, but never NaN. -/
theorem LikeTerms.Sound.absorb (h : group.Sound) (hx : Literal.isFinite x = true) :
    (group.absorb x).Sound :=
  ⟨Double.isNaN_add h.sum hx, Double.isFinite_larger h.scale (Double.real_magnitude hx).1⟩

/-- What is lost stays lost, and a contribution that is not finite loses a group. -/
theorem LikeTerms.lost_absorb (h : group.Lost ∨ Literal.isFinite x = false) :
    (group.absorb x).Lost := by
  rcases h with (hsum | hscale) | hx
  · refine .inl ?_
    rw [LikeTerms.absorb, show group.sum + x = group.sum from Double.combine_of_isNaN_left hsum]
    exact hsum
  · exact .inr (Double.isInfinity_larger (.inl hscale))
  · rcases Double.kinds_of_not_isFinite hx with hnan | ⟨s, hs⟩
    · exact .inl (Double.combine_of_isNaN_right hnan)
    · exact .inr (Double.isInfinity_larger (.inr (Double.unpacked_magnitude_of_infinity hs)))

theorem LikeTerms.Sound.foldl (h : group.Sound) (hxs : ∀ x ∈ xs, Literal.isFinite x = true) :
    (xs.foldl LikeTerms.absorb group).Sound := by
  induction xs generalizing group with
  | nil => exact h
  | cons x xs ih =>
    obtain ⟨hx, hxs⟩ := List.forall_mem_cons.mp hxs
    exact ih (h.absorb hx) hxs

theorem LikeTerms.lost_foldl (h : group.Lost ∨ ∃ x ∈ xs, Literal.isFinite x = false) :
    (xs.foldl LikeTerms.absorb group).Lost := by
  induction xs generalizing group with
  | nil => simpa using h
  | cons x xs ih =>
    rw [List.exists_mem_cons_iff, ← or_assoc] at h
    exact ih (h.imp_left lost_absorb)

/-- A group is sound if all its contributions are finite, and lost otherwise. -/
theorem sound_or_lost (hgroup : group ∈ gatherTerms ts) :
    ((∀ x ∈ contributions ts group.rest, Literal.isFinite x = true) → group.Sound) ∧
      ((∃ x ∈ contributions ts group.rest, Literal.isFinite x = false) → group.Lost) := by
  have hgathered := mem_gatherTerms.mp hgroup
  cases hxs : contributions ts group.rest with
  | nil => rw [hxs] at hgathered; cases hgathered
  | cons x xs =>
    rw [hxs] at hgathered
    rw [← Option.some.inj hgathered]
    constructor
    · intro hfinite
      obtain ⟨hx, hxs⟩ := List.forall_mem_cons.mp hfinite
      exact (LikeTerms.sound_single hx).foldl hxs
    · intro hinfinite
      rw [List.exists_mem_cons_iff] at hinfinite
      exact LikeTerms.lost_foldl (hinfinite.imp_left LikeTerms.lost_single)

theorem LikeTerms.Lost.cancels (h : group.Lost) :
    Literal.cancels group.sum group.scale = true :=
  h.elim Double.cancels_of_isNaN Double.cancels_of_isInfinity

/-- **A group is dropped** if a contribution is not finite or if its sum is within the tolerance. -/
theorem cancels_group_iff (hgroup : group ∈ gatherTerms ts) :
    Literal.cancels group.sum group.scale = true ↔
      (∃ x ∈ contributions ts group.rest, Literal.isFinite x = false) ∨
        Literal.isFinite group.sum = true ∧
          group.sum.toFloat.abs ≤ 1e-12 * group.scale.toFloat := by
  obtain ⟨hsound, hlost⟩ := sound_or_lost hgroup
  by_cases h : ∃ x ∈ contributions ts group.rest, Literal.isFinite x = false
  · exact iff_of_true (hlost h).cancels (.inl h)
  · have hgood : group.Sound := hsound fun x hx =>
      (Bool.not_eq_false _).mp fun hfinite => h ⟨x, hx, hfinite⟩
    rw [or_iff_right h]
    exact Double.cancels_iff hgood.sum hgood.scale

/-- The scale grows to the largest magnitude that is absorbed. -/
theorem LikeTerms.scale_foldl (hscale : Literal.isFinite group.scale = true)
    (hxs : ∀ x ∈ xs, Literal.isFinite x = true) :
    let scale := (xs.foldl LikeTerms.absorb group).scale
    (scale = group.scale ∨ ∃ x ∈ xs, scale = x.magnitude) ∧ group.scale.real ≤ scale.real ∧
      ∀ x ∈ xs, x.magnitude.real ≤ scale.real := by
  induction xs generalizing group with
  | nil => exact ⟨.inl rfl, le_rfl, List.forall_mem_nil _⟩
  | cons x xs ih =>
    obtain ⟨hx, hxs⟩ := List.forall_mem_cons.mp hxs
    have hmagnitude := (Double.real_magnitude hx).1
    obtain ⟨hfirst, hgroup, hle⟩ := Double.larger_spec hscale hmagnitude
    have habsorbed : Literal.isFinite (group.absorb x).scale = true :=
      Double.isFinite_larger hscale hmagnitude
    obtain ⟨hone, hstart, hrest⟩ := ih habsorbed hxs
    refine ⟨?_, hgroup.trans hstart, List.forall_mem_cons.mpr ⟨hle.trans hstart, hrest⟩⟩
    rcases hone with hone | ⟨y, hy, hone⟩
    · rcases hfirst with hfirst | hfirst
      · exact .inl (hone.trans hfirst)
      · exact .inr ⟨x, List.mem_cons_self, hone.trans hfirst⟩
    · exact .inr ⟨y, List.mem_cons_of_mem _ hy, hone⟩

/-- The scale of finite contributions is the largest of their magnitudes. -/
theorem scale_spec (hgroup : group ∈ gatherTerms ts)
    (hfinite : ∀ x ∈ contributions ts group.rest, Literal.isFinite x = true) :
    (∃ x ∈ contributions ts group.rest, group.scale = x.magnitude) ∧
      ∀ x ∈ contributions ts group.rest, x.magnitude.real ≤ group.scale.real := by
  have hgathered := mem_gatherTerms.mp hgroup
  cases hxs : contributions ts group.rest with
  | nil => rw [hxs] at hgathered; cases hgathered
  | cons x xs =>
    rw [hxs] at hgathered hfinite
    obtain ⟨hx, hothers⟩ := List.forall_mem_cons.mp hfinite
    have hfold : xs.foldl LikeTerms.absorb (.single group.rest x) = group :=
      Option.some.inj hgathered
    have hsingle : Literal.isFinite (LikeTerms.single group.rest x).scale = true :=
      (Double.real_magnitude hx).1
    obtain ⟨hone, hstart, hrest⟩ := LikeTerms.scale_foldl hsingle hothers
    rw [hfold] at hone hstart hrest
    refine ⟨?_, List.forall_mem_cons.mpr ⟨hstart, hrest⟩⟩
    rw [List.exists_mem_cons_iff]
    exact hone

theorem getD_collectTerms (he : e.isSum = true) : (collectTerms e).getD e = orderedSum e := by
  unfold collectTerms
  rw [if_pos he]
  dsimp only
  split_ifs with heq
  · exact heq.symm
  · rfl

/-- **What becomes of the terms of a sum.** A group of like terms is dropped exactly if one of the
coefficients that contribute to it is not finite, or if their sum is finite and within the
tolerance of the largest of them. A sum that overflows from finite coefficients leaves a literal
that is not finite, and so does a constant that is not finite. -/
theorem collectTerms_groups (he : e.isSum = true) :
    let ts := terms Literal.one e
    let collected := (collectTerms e).getD e
    (∀ group ∈ gatherTerms ts,
      (Literal.cancels group.sum group.scale = true ↔
        (∃ x ∈ contributions ts group.rest, Literal.isFinite x = false) ∨
          Literal.isFinite group.sum = true ∧
            group.sum.toFloat.abs ≤ 1e-12 * group.scale.toFloat) ∧
      ((∀ x ∈ contributions ts group.rest, Literal.isFinite x = true) →
        ((∃ x ∈ contributions ts group.rest, group.scale = x.magnitude) ∧
          ∀ x ∈ contributions ts group.rest, x.magnitude.real ≤ group.scale.real) ∧
        (Literal.isFinite group.sum = false → ¬collected.FiniteLiterals))) ∧
    (Literal.isFinite (constantPart ts) = false → ¬collected.FiniteLiterals) := by
  intro ts collected
  have hcollected : collected = orderedSum e := getD_collectTerms he
  rw [hcollected]
  refine ⟨fun group hgroup => ⟨cancels_group_iff hgroup, fun hfinite =>
    ⟨scale_spec hgroup hfinite, fun hsum => ?_⟩⟩,
    fun hconstant => not_finiteLiterals_orderedSum (.inl hconstant)⟩
  refine not_finiteLiterals_orderedSum (.inr ⟨group, hgroup, hsum, ?_⟩)
  rw [Bool.eq_false_iff, ne_eq, cancels_group_iff hgroup]
  rintro (⟨x, hx, hinfinite⟩ | ⟨hsum', -⟩)
  · rw [hfinite x hx] at hinfinite
    cases hinfinite
  · rw [hsum] at hsum'
    cases hsum'

/-- Twice a large multiple of `ra` has an infinite coefficient. -/
theorem not_finiteLiterals_collectTerms_twice :
    let large : Double := ⟨0x7FE0000000000000⟩
    let twice : Expr Double := add (mul (num large) (sym "ra")) (mul (num large) (sym "ra"))
    twice.isSum = true ∧ ¬((collectTerms twice).getD twice).FiniteLiterals := by
  intro large twice
  have hts : contributions (terms Literal.one twice) (sym "ra") = [large, large] := by
    decide +kernel
  let group : LikeTerms Double := (LikeTerms.single (sym "ra") large).absorb large
  have hgroup : group ∈ gatherTerms (terms Literal.one twice) := by
    rw [mem_gatherTerms, show group.rest = sym "ra" from rfl, hts]
    rfl
  have hfinite : ∀ x ∈ contributions (terms Literal.one twice) group.rest,
      Literal.isFinite x = true := by
    rw [show group.rest = sym "ra" from rfl, hts]
    decide +kernel
  have hsum : Literal.isFinite group.sum = false := by decide +kernel
  exact ⟨rfl, (((collectTerms_groups (e := twice) rfl).1 group hgroup).2 hfinite).2 hsum⟩

/-- **An infinite coefficient is dropped** where it stands in the sum itself. -/
theorem collectTerms_drops_infinity :
    let infinite : Double := ⟨0x7FF0000000000000⟩
    let e : Expr Double := add (mul (num infinite) (sym "ra")) (sym "rb")
    (∃ group ∈ gatherTerms (terms Literal.one e), Literal.isFinite group.sum = false) ∧
      collectTerms e = some (sym "rb") ∧ FiniteLiterals (sym "rb" : Expr Double) := by
  intro infinite e
  have hts : contributions (terms Literal.one e) (sym "ra") = [infinite] := by decide +kernel
  let group : LikeTerms Double := LikeTerms.single (sym "ra") infinite
  have hgroup : group ∈ gatherTerms (terms Literal.one e) := by
    rw [mem_gatherTerms, show group.rest = sym "ra" from rfl, hts]
    rfl
  exact ⟨⟨group, hgroup, by decide +kernel⟩, by decide +kernel, by decide⟩

end Doubles

end DensityKernel.NormalForm
