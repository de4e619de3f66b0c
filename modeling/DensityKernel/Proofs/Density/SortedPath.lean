import DensityKernel.Density.DerivativeTable
import DensityKernel.Proofs.Density.MultiIndex
import Mathlib.Data.List.Lex
import Mathlib.Data.List.Nodup
import Mathlib.Data.Finset.Max

/-!
The sorted path of a multi-index: its variables in the order of a list, each as
often as it was differentiated against. An index is extended by the variables
from its last one on, which is how the sorted path of a longer index ends.
-/

namespace DensityKernel

namespace VariableList

/-- The place of a variable in the list. -/
def place (vars : VariableList) (v : Variable) : Nat :=
  vars.toList.idxOf v

variable {vars : VariableList} {v w : Variable}

/-- The places increase along the list. -/
theorem pairwise_place (vars : VariableList) :
    vars.toList.Pairwise fun v w => vars.place v < vars.place w := by
  rw [List.pairwise_iff_getElem]
  intro i j hi hj hij
  rw [place, place, vars.nodup.idxOf_getElem, vars.nodup.idxOf_getElem]
  exact hij

theorem place_lt_length (hv : v ∈ vars.toList) : vars.place v < vars.toList.length :=
  List.idxOf_lt_length_of_mem hv

theorem idxOf?_eq_some (hv : v ∈ vars.toList) : vars.idxOf? v = some (vars.place v) := by
  rw [idxOf?, List.idxOf?_eq_some_iff]
  refine ⟨place_lt_length hv, List.getElem_idxOf _, fun j hj heq => ?_⟩
  have hplace : vars.place v = j := by
    rw [← heq, place, vars.nodup.idxOf_getElem]
  exact hj.ne' hplace

theorem mapM_idxOf? {vs : List Variable} (hvs : ∀ v ∈ vs, v ∈ vars.toList) :
    vs.mapM vars.idxOf? = some (vs.map vars.place) := by
  induction vs with
  | nil => rfl
  | cons v vs ih =>
    obtain ⟨hv, hrest⟩ := List.forall_mem_cons.mp hvs
    rw [List.mapM_cons, idxOf?_eq_some hv, ih hrest]
    rfl

/-- The variables from a place on. -/
theorem mem_drop_iff {n : Nat} :
    v ∈ vars.toList.drop n ↔ v ∈ vars.toList ∧ n ≤ vars.place v := by
  rw [List.mem_drop_iff_getElem]
  constructor
  · rintro ⟨i, hi, rfl⟩
    refine ⟨List.getElem_mem _, ?_⟩
    rw [place, vars.nodup.idxOf_getElem]
    exact Nat.le_add_right n i
  · rintro ⟨hv, hn⟩
    have hlt := place_lt_length hv
    refine ⟨vars.place v - n, by omega, ?_⟩
    simp only [Nat.add_sub_cancel' hn]
    exact List.getElem_idxOf hlt

end VariableList

namespace MultiIndex

variable {vars : VariableList} {index : MultiIndex} {v w : Variable}

/-- Only variables of the list were differentiated against. -/
def Within (index : MultiIndex) (vars : VariableList) : Prop :=
  ∀ v, 0 < index.count v → v ∈ vars.toList

/-- The variables of an index in the order of the list. -/
def sortedPath (index : MultiIndex) (vars : VariableList) : List Variable :=
  vars.toList.flatMap fun v => List.replicate (index.count v) v

/-- The places of the sorted path. -/
def places (index : MultiIndex) (vars : VariableList) : List Nat :=
  (index.sortedPath vars).map vars.place

/-- No variable of the index stands behind `v`. -/
def EndsBefore (index : MultiIndex) (vars : VariableList) (v : Variable) : Prop :=
  ∀ w, 0 < index.count w → vars.place w ≤ vars.place v

@[simp] theorem sortedPath_zero : zero.sortedPath vars = [] := by
  simp [sortedPath]

/-- A last differentiation stands at the end of the sorted path. -/
theorem sortedPath_bump (hv : v ∈ vars.toList) (hlast : index.EndsBefore vars v) :
    (index.bump v).sortedPath vars = index.sortedPath vars ++ [v] := by
  obtain ⟨front, back, hsplit⟩ := List.append_of_mem hv
  have hplaces := vars.pairwise_place
  rw [hsplit, List.pairwise_append, List.pairwise_cons] at hplaces
  obtain ⟨-, ⟨hback, -⟩, hfront⟩ := hplaces
  have hfrontEq : front.flatMap (fun w => List.replicate ((index.bump v).count w) w) =
      front.flatMap fun w => List.replicate (index.count w) w := by
    refine List.flatMap_congr fun w hw => ?_
    have hne : v ≠ w := fun h => (hfront w hw v (by simp)).ne (congrArg vars.place h.symm)
    rw [count_bump_of_ne hne]
  have hbackNil : ∀ count : Variable → Nat, (∀ w ∈ back, count w = index.count w) →
      back.flatMap (fun w => List.replicate (count w) w) = [] := by
    intro count hcount
    refine List.flatMap_eq_nil_iff.mpr fun w hw => ?_
    have hzero : index.count w = 0 :=
      Nat.eq_zero_of_not_pos fun hpos => (hlast w hpos).not_gt (hback w hw)
    rw [hcount w hw, hzero, List.replicate_zero]
  have hbackEq : ∀ w ∈ back, (index.bump v).count w = index.count w := fun w hw =>
    count_bump_of_ne fun h => (hback w hw).ne (congrArg vars.place h)
  rw [sortedPath, sortedPath, hsplit, List.flatMap_append, List.flatMap_append, List.flatMap_cons,
    List.flatMap_cons, hfrontEq, hbackNil _ hbackEq, hbackNil _ (fun _ _ => rfl), count_bump_self,
    List.replicate_succ', List.append_nil, List.append_nil, List.append_assoc]

theorem places_bump (hv : v ∈ vars.toList) (hlast : index.EndsBefore vars v) :
    (index.bump v).places vars = index.places vars ++ [vars.place v] := by
  rw [places, sortedPath_bump hv hlast, List.map_append]
  rfl

/-- Every index over the list that is not zero has a last differentiation. -/
theorem exists_eq_bump_last (hwithin : index.Within vars) (horder : 0 < index.order) :
    ∃ parent v, index = bump parent v ∧ v ∈ vars.toList ∧ parent.Within vars ∧
      parent.EndsBefore vars v := by
  have hall : ∀ v, v ∈ Variable.all.toFinset := fun v => by cases v <;> decide
  obtain ⟨u, hu⟩ := exists_count_pos horder
  obtain ⟨v, hv, hmax⟩ := (Variable.all.toFinset.filter (0 < index.count ·)).exists_max_image
    vars.place ⟨u, Finset.mem_filter.mpr ⟨hall u, hu⟩⟩
  obtain ⟨parent, rfl⟩ := exists_eq_bump (Finset.mem_filter.mp hv).2
  have hmono : ∀ w, 0 < parent.count w → 0 < (parent.bump v).count w := fun w hw => by
    rw [count_bump]
    exact Nat.add_pos_left hw _
  refine ⟨parent, v, rfl, hwithin v (Finset.mem_filter.mp hv).2, ?_, ?_⟩
  · exact fun w hw => hwithin w (hmono w hw)
  · exact fun w hw => hmax w (Finset.mem_filter.mpr ⟨hall w, hmono w hw⟩)

theorem within_bump (hwithin : index.Within vars) (hv : v ∈ vars.toList) :
    (index.bump v).Within vars := by
  intro w hw
  by_cases heq : v = w
  · exact heq ▸ hv
  · exact hwithin w (by rwa [count_bump_of_ne heq] at hw)

theorem length_sortedPath (hwithin : index.Within vars) :
    (index.sortedPath vars).length = index.order := by
  induction h : index.order generalizing index with
  | zero => rw [order_eq_zero_iff.mp h, sortedPath_zero, List.length_nil]
  | succ n ih =>
    obtain ⟨parent, v, rfl, hv, hparent, hlast⟩ := exists_eq_bump_last hwithin (by omega)
    rw [order_bump] at h
    rw [sortedPath_bump hv hlast, List.length_append, ih hparent (Nat.succ.inj h)]
    rfl

theorem count_sortedPath (hwithin : index.Within vars) :
    (index.sortedPath vars).count v = index.count v := by
  induction h : index.order generalizing index with
  | zero =>
    rw [order_eq_zero_iff.mp h, sortedPath_zero]
    exact count_zero.symm
  | succ n ih =>
    obtain ⟨parent, w, rfl, hw, hparent, hlast⟩ := exists_eq_bump_last hwithin (by omega)
    rw [order_bump] at h
    rw [sortedPath_bump hw hlast, List.count_append, ih hparent (Nat.succ.inj h), count_bump,
      List.count_singleton]
    simp only [beq_iff_eq]

/-! ### Extensions -/

/-- The last place of an index, which is zero for the zero index. -/
theorem lastPosition?_le_iff {n : Nat} (hwithin : index.Within vars) :
    (index.lastPosition? vars).getD 0 ≤ n ↔ ∀ w, 0 < index.count w → vars.place w ≤ n := by
  have hmem : ∀ w, w ∈ Variable.all.filter (0 < index.count ·) ↔ 0 < index.count w := fun w => by
    rw [List.mem_filter, decide_eq_true_iff]
    exact and_iff_right (by cases w <;> decide)
  have hposition : index.lastPosition? vars =
      ((Variable.all.filter (0 < index.count ·)).map vars.place).max? := by
    have hmapM := VariableList.mapM_idxOf? fun w hw => hwithin w ((hmem w).mp hw)
    rw [lastPosition?]
    exact congrArg (· >>= List.max?) hmapM
  rw [hposition]
  cases hmax : ((Variable.all.filter (0 < index.count ·)).map vars.place).max? with
  | none =>
    have hnil := List.map_eq_nil_iff.mp (List.max?_eq_none_iff.mp hmax)
    have hnone : ∀ w, ¬0 < index.count w := fun w hw => by simpa [hnil] using (hmem w).mpr hw
    exact ⟨fun _ w hw => absurd hw (hnone w), fun _ => Nat.zero_le n⟩
  | some last =>
    rw [Option.getD_some, List.max?_le_iff hmax, List.forall_mem_map]
    exact forall_congr' fun w => imp_congr_left (hmem w)

end MultiIndex

/-- A derivative is extended by the variables of the list that no variable of
its index stands behind. -/
theorem DerivativeTable.mem_extensions_iff {K : Type} {t : DerivativeTable K} {index : MultiIndex}
    {v : Variable} (hwithin : index.Within t.vars) :
    v ∈ t.extensions index ↔ v ∈ t.vars.toList ∧ index.EndsBefore t.vars v := by
  rw [extensions, VariableList.mem_drop_iff, MultiIndex.lastPosition?_le_iff hwithin]
  rfl

end DensityKernel
