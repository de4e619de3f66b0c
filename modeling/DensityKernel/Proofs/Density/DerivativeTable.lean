import DensityKernel.Literal.Double
import DensityKernel.Proofs.Density.SortedPath

/-!
What a table of derivatives holds. A layer lists the indices of one order, in
the order of their sorted paths, each with the derivative along that path; one
step of an extension keeps this, and so does every run of extensions, whether
they succeed or fail.
-/

namespace DensityKernel

open DensityKernel.Expr

variable {K : Type} [Literal K] [DecidableEq K] [Spelling K]

/-! ### Derivatives along a path -/

namespace Differentiator

variable {d : Differentiator}

/-- The derivative along a path: one variable after the other. -/
def alongPath (d : Differentiator) (base : Expr K) (path : List Variable) :
    Except Error (Expr K) :=
  path.foldlM (fun e v => d.differentiate e v.name) base

/-- No limit on the size of a tree forbids a tree of one node. -/
def AdmitsLeaves (d : Differentiator) : Prop :=
  (∀ limit ∈ d.maxDepth, 1 ≤ limit) ∧ ∀ limit ∈ d.maxNodes, 1 ≤ limit

omit [DecidableEq K] [Spelling K] [Literal K] in
theorem checkLimits_num (hd : d.AdmitsLeaves) (x : K) : d.checkLimits (.num x) = .ok () := by
  have hdepth : d.maxDepth.any (· < (num x).depth) = false := by
    cases h : d.maxDepth with
    | none => rfl
    | some limit => simpa [depth] using Nat.one_le_iff_ne_zero.mp (hd.1 limit h)
  have hsize : d.maxNodes.any (· < (num x).size) = false := by
    cases h : d.maxNodes with
    | none => rfl
    | some limit => simpa [size] using Nat.one_le_iff_ne_zero.mp (hd.2 limit h)
  rw [checkLimits, hdepth, hsize]
  rfl

theorem simplify_num (domain : Domain) (x : K) : (num x).simplify domain = num x := by
  rw [Expr.simplify, NormalForm.passLimit, NormalForm.settle, NormalForm.pass]
  exact if_pos rfl

/-- Differentiating a literal zero gives zero, so the shortcut for it changes nothing. -/
theorem differentiate_of_isZero (hd : d.AdmitsLeaves) {e : Expr K} (he : e.isZero = true)
    (name : String) : d.differentiate e name = .ok zero := by
  obtain ⟨x, rfl⟩ : ∃ x, e = num x := by
    cases e with
    | num x => exact ⟨x, rfl⟩
    | sym | call | binary => simp [isZero] at he
  have hfinish : d.finish (zero : Expr K) = zero := by
    unfold finish
    split_ifs
    · exact simplify_num d.domain _
    · rfl
  simp only [differentiate, bind_eq_ok_iff, Expr.derive]
  refine ⟨(), checkLimits_num hd x, zero, rfl, (), ?_, ?_⟩
  · rw [hfinish]
    exact checkLimits_num hd _
  · rw [hfinish]

end Differentiator

namespace DerivativeTable

/-! ### Layers -/

/-- A layer lists every multiset of `n` variables of the list, in the order of
the sorted paths, with the derivative along the sorted path. -/
structure IsLayer (base : Expr K) (vars : VariableList) (d : Differentiator) (n : Nat)
    (layer : Layer K) : Prop where
  mem_iff : ∀ index, index ∈ layer.map (·.1) ↔ index.order = n ∧ index.Within vars
  sorted : (layer.map (·.1.places vars)).Pairwise (· < ·)
  derived : ∀ entry ∈ layer, d.alongPath base (entry.1.sortedPath vars) = .ok entry.2

variable {base : Expr K} {vars : VariableList} {d : Differentiator} {n : Nat}
variable {parents layer : Layer K} {t : DerivativeTable K}

theorem IsLayer.within (h : IsLayer base vars d n layer) {entry : MultiIndex × Expr K}
    (hentry : entry ∈ layer) : entry.1.order = n ∧ entry.1.Within vars :=
  (h.mem_iff entry.1).mp (List.mem_map_of_mem hentry)

theorem IsLayer.nodup_keys (h : IsLayer base vars d n layer) : (layer.map (·.1)).Nodup := by
  have hplaces := List.pairwise_map.mp h.sorted
  rw [List.Nodup, List.pairwise_map]
  refine hplaces.imp fun hlt heq => ?_
  rw [heq] at hlt
  exact List.lt_irrefl _ hlt

/-- The expression itself is the layer of order zero. -/
theorem isLayer_zero : IsLayer base vars d 0 [(MultiIndex.zero, base)] where
  mem_iff index := by
    rw [List.map_singleton, List.mem_singleton, MultiIndex.order_eq_zero_iff]
    exact ⟨fun h => ⟨h, fun v hv => by simp [h] at hv⟩, And.left⟩
  sorted := List.pairwise_singleton _ _
  derived entry hentry := by
    obtain rfl := List.mem_singleton.mp hentry
    rw [MultiIndex.sortedPath_zero]
    rfl

/-- The derivatives that the next layer is made of: a parent and a variable. -/
def tasks (t : DerivativeTable K) (parents : Layer K) : List ((MultiIndex × Expr K) × Variable) :=
  parents.flatMap fun parent => (t.extensions parent.1).map fun v => (parent, v)

omit [Literal K] [DecidableEq K] [Spelling K] in
theorem mem_tasks_iff {parent : MultiIndex × Expr K} {v : Variable} :
    (parent, v) ∈ tasks t parents ↔ parent ∈ parents ∧ v ∈ t.extensions parent.1 := by
  simp [tasks]

theorem index_of_child {parent entry : MultiIndex × Expr K} {v : Variable}
    (h : t.child parent v = .ok entry) : entry.1 = parent.1.bump v := by
  obtain ⟨index, hindex, h⟩ := bind_eq_ok_iff.mp h
  obtain ⟨-, rfl⟩ := MultiIndex.increment_eq_ok_iff.mp hindex
  split_ifs at h with hzero
  · cases h
    rfl
  · obtain ⟨e, -, h⟩ := bind_eq_ok_iff.mp h
    cases h
    rfl

/-- What one derivative of the next layer is. The shortcut for a literal zero
makes no difference. -/
theorem child_eq_ok (hd : t.differentiator.AdmitsLeaves) {parent entry : MultiIndex × Expr K}
    {v : Variable} (h : t.child parent v = .ok entry) :
    entry.1 = parent.1.bump v ∧
      t.differentiator.differentiate parent.2 v.name = .ok entry.2 := by
  refine ⟨index_of_child h, ?_⟩
  obtain ⟨index, -, h⟩ := bind_eq_ok_iff.mp h
  split_ifs at h with hzero
  · cases h
    exact Differentiator.differentiate_of_isZero hd hzero _
  · obtain ⟨e, he, h⟩ := bind_eq_ok_iff.mp h
    cases h
    exact he

/-- A longer path in front of a shorter comparison. -/
theorem append_lt_append {a b c c' : List Nat} (hlength : a.length = b.length) (h : a < b) :
    a ++ c < b ++ c' := by
  induction a generalizing b with
  | nil =>
    obtain rfl := List.length_eq_zero_iff.mp hlength.symm
    exact absurd h (List.not_lt_nil _)
  | cons x a ih =>
    cases b with
    | nil => simp at hlength
    | cons y b =>
      rw [List.cons_append, List.cons_append, List.cons_lt_cons_iff]
      rcases List.cons_lt_cons_iff.mp h with hlt | ⟨heq, hlt⟩
      · exact .inl hlt
      · exact .inr ⟨heq, ih (Nat.succ.inj hlength) hlt⟩

theorem IsLayer.mem_tasks_iff (h : IsLayer base t.vars d n parents)
    {parent : MultiIndex × Expr K} {v : Variable} :
    (parent, v) ∈ tasks t parents ↔
      parent ∈ parents ∧ v ∈ t.vars.toList ∧ parent.1.EndsBefore t.vars v := by
  rw [DerivativeTable.mem_tasks_iff]
  exact and_congr_right fun hparent => mem_extensions_iff (h.within hparent).2

/-- Every multiset of one more variable is reached, from the one without its
last variable. -/
theorem IsLayer.mem_bumped_iff (h : IsLayer base t.vars d n parents) (index : MultiIndex) :
    index ∈ (tasks t parents).map (fun task => task.1.1.bump task.2) ↔
      index.order = n + 1 ∧ index.Within t.vars := by
  rw [List.mem_map]
  constructor
  · rintro ⟨⟨parent, v⟩, htask, rfl⟩
    obtain ⟨hparent, hv, -⟩ := h.mem_tasks_iff.mp htask
    obtain ⟨horder, hwithin⟩ := h.within hparent
    exact ⟨by rw [MultiIndex.order_bump, horder], MultiIndex.within_bump hwithin hv⟩
  · rintro ⟨horder, hwithin⟩
    obtain ⟨parent, v, rfl, hv, hparent, hlast⟩ :=
      MultiIndex.exists_eq_bump_last hwithin (by omega)
    rw [MultiIndex.order_bump] at horder
    obtain ⟨entry, hentry, rfl⟩ :=
      List.mem_map.mp ((h.mem_iff parent).mpr ⟨Nat.succ.inj horder, hparent⟩)
    exact ⟨(entry, v), h.mem_tasks_iff.mpr ⟨hentry, hv, hlast⟩, rfl⟩

/-- The children of one parent are listed by their last variable, and those of
different parents like the parents. -/
theorem IsLayer.sorted_bumped (h : IsLayer base t.vars d n parents) :
    ((tasks t parents).map fun task => (task.1.1.bump task.2).places t.vars).Pairwise
      (· < ·) := by
  have hplaces : ∀ {parent : MultiIndex × Expr K} {v : Variable}, (parent, v) ∈ tasks t parents →
      (parent.1.bump v).places t.vars = parent.1.places t.vars ++ [t.vars.place v] := by
    intro parent v htask
    obtain ⟨-, hv, hlast⟩ := h.mem_tasks_iff.mp htask
    exact MultiIndex.places_bump hv hlast
  have hmem : ∀ parent ∈ parents, ∀ v ∈ t.extensions parent.1, (parent, v) ∈ tasks t parents :=
    fun parent hparent v hv => DerivativeTable.mem_tasks_iff.mpr ⟨hparent, hv⟩
  rw [List.pairwise_map, tasks, List.pairwise_flatMap]
  constructor
  · intro parent hparent
    rw [List.pairwise_map]
    refine List.Pairwise.imp_of_mem ?_ (t.vars.pairwise_place.sublist (List.drop_sublist _ _))
    intro v w hv hw hlt
    dsimp only
    rw [hplaces (hmem parent hparent v hv), hplaces (hmem parent hparent w hw)]
    exact List.append_left_lt (List.cons_lt_cons_iff.mpr (.inl hlt))
  · refine List.Pairwise.imp_of_mem ?_ (List.pairwise_map.mp h.sorted)
    intro parent other hparent hother hlt task htask task' htask'
    obtain ⟨v, hv, rfl⟩ := List.mem_map.mp htask
    obtain ⟨w, hw, rfl⟩ := List.mem_map.mp htask'
    dsimp only
    rw [hplaces (hmem parent hparent v hv), hplaces (hmem other hother w hw)]
    refine append_lt_append ?_ hlt
    rw [MultiIndex.places, MultiIndex.places, List.length_map, List.length_map,
      MultiIndex.length_sortedPath (h.within hparent).2,
      MultiIndex.length_sortedPath (h.within hother).2, (h.within hparent).1, (h.within hother).1]

/-- **One step.** The layer after a layer is a layer. -/
theorem IsLayer.next (hd : t.differentiator.AdmitsLeaves)
    (h : IsLayer base t.vars t.differentiator n t.parents) (hnext : t.nextLayer = .ok layer) :
    IsLayer base t.vars t.differentiator (n + 1) layer where
  mem_iff index := by
    rw [map_eq_of_mapM hnext fun task _ entry hentry => (child_eq_ok hd hentry).1]
    exact h.mem_bumped_iff index
  sorted := by
    rw [map_eq_of_mapM hnext fun task _ entry hentry =>
      congrArg (MultiIndex.places · t.vars) (child_eq_ok hd hentry).1]
    exact h.sorted_bumped
  derived entry hentry := by
    obtain ⟨⟨parent, v⟩, htask, hchild⟩ := exists_mem_of_mapM hnext hentry
    obtain ⟨hparent, hv, hlast⟩ := h.mem_tasks_iff.mp htask
    obtain ⟨hindex, hderivative⟩ := child_eq_ok hd hchild
    rw [hindex, MultiIndex.sortedPath_bump hv hlast, Differentiator.alongPath,
      List.foldlM_append, bind_eq_ok_iff]
    refine ⟨parent.2, h.derived parent hparent, ?_⟩
    rw [List.foldlM_cons, bind_eq_ok_iff]
    exact ⟨entry.2, hderivative, rfl⟩

/-! ### Runs -/

/-- The table was built for an expression: its layers are those of the first
orders. -/
structure BuiltFor (base : Expr K) (vars : VariableList) (d : Differentiator)
    (t : DerivativeTable K) : Prop where
  base_eq : t.base = base
  vars_eq : t.vars = vars
  differentiator_eq : t.differentiator = d
  order_le : t.order ≤ maxOrder
  isLayer : ∀ (j : Nat) (hj : j < t.layers.length), IsLayer base vars d (j + 1) t.layers[j]

/-- A table before the first extension. -/
def fresh (base : Expr K) (vars : VariableList) (d : Differentiator) : DerivativeTable K :=
  { base := base, vars := vars, differentiator := d }

/-- Extends a table again and again, whether an extension succeeds or fails. -/
def extendAll (t : DerivativeTable K) (orders : List DerivativeOrder) : DerivativeTable K :=
  orders.foldl (fun t order => (t.extendTo order).1) t

theorem builtFor_fresh : BuiltFor base vars d (fresh base vars d) :=
  ⟨rfl, rfl, rfl, Nat.zero_le _, fun _ hj => absurd hj (Nat.not_lt_zero _)⟩

/-- What the next layer is computed from is the highest layer. -/
theorem BuiltFor.isLayer_parents (h : BuiltFor base vars d t) :
    IsLayer base vars d t.order t.parents := by
  obtain ⟨base', vars', d', layers⟩ := t
  obtain ⟨rfl, rfl, rfl, -, hlayers⟩ := h
  rw [DerivativeTable.parents, order]
  dsimp only at hlayers ⊢
  cases hlast : layers.getLast? with
  | none =>
    rw [List.getLast?_eq_none_iff.mp hlast]
    exact isLayer_zero
  | some layer =>
    obtain ⟨front, rfl⟩ := List.getLast?_eq_some_iff.mp hlast
    have hlayer := hlayers front.length (by simp)
    rw [List.getElem_concat_length rfl] at hlayer
    rw [List.length_append, List.length_singleton]
    exact hlayer

theorem BuiltFor.step (hd : d.AdmitsLeaves) (h : BuiltFor base vars d t)
    (horder : t.order < maxOrder) (hnext : t.nextLayer = .ok layer) :
    BuiltFor base vars d { t with layers := t.layers ++ [layer] } := by
  have hparents := h.isLayer_parents
  obtain ⟨rfl, rfl, rfl, -, hlayers⟩ := h
  refine ⟨rfl, rfl, rfl, ?_, fun j hj => ?_⟩
  · rw [order, List.length_append]
    exact horder
  · dsimp only
    rcases Nat.lt_or_ge j t.layers.length with hlt | hge
    · rw [List.getElem_append_left hlt]
      exact hlayers j hlt
    · obtain rfl : j = t.layers.length := by
        rw [List.length_append, List.length_singleton] at hj
        omega
      rw [List.getElem_concat_length rfl]
      exact hparents.next hd hnext

theorem BuiltFor.extend (hd : d.AdmitsLeaves) {count : Nat} (h : BuiltFor base vars d t)
    (hcount : t.order + count ≤ maxOrder) : BuiltFor base vars d (extend count t).1 := by
  induction count generalizing t with
  | zero => exact h
  | succ count ih =>
    rw [DerivativeTable.extend]
    cases hnext : t.nextLayer with
    | error e => exact h
    | ok layer =>
      refine ih (h.step hd (by omega) hnext) ?_
      rw [order, List.length_append, List.length_singleton]
      rw [order] at hcount
      omega

/-- **Every run of extensions** builds a table of the first orders. -/
theorem builtFor_extendAll (hd : d.AdmitsLeaves) (h : BuiltFor base vars d t)
    (orders : List DerivativeOrder) : BuiltFor base vars d (t.extendAll orders) := by
  induction orders generalizing t with
  | nil => exact h
  | cons order orders ih =>
    refine ih (h.extend hd ?_)
    have := order.le_max
    have := h.order_le
    omega

/-! ### Lookups -/

/-- The layer of a built order. -/
theorem BuiltFor.isLayer_layer (h : BuiltFor base vars d t) {order : DerivativeOrder}
    (hle : order.toNat ≤ t.order) : IsLayer base vars d order.toNat (t.layer order) := by
  have hone := order.one_le
  have hlt : order.toNat - 1 < t.layers.length := by
    rw [DerivativeTable.order] at hle
    omega
  have hlayer := h.isLayer (order.toNat - 1) hlt
  rw [Nat.sub_add_cancel hone] at hlayer
  rw [layer, List.getElem?_eq_getElem hlt]
  exact hlayer

/-- The keys of a table are the indices over the list of all built orders. -/
theorem BuiltFor.mem_keys_iff (h : BuiltFor base vars d t) (index : MultiIndex) :
    index ∈ t.entries.map (·.1) ↔
      0 < index.order ∧ index.order ≤ t.order ∧ index.Within vars := by
  rw [entries, List.map_flatten, List.mem_flatten]
  constructor
  · rintro ⟨keys, hkeys, hindex⟩
    obtain ⟨layer, hlayer, rfl⟩ := List.mem_map.mp hkeys
    obtain ⟨j, hj, rfl⟩ := List.mem_iff_getElem.mp hlayer
    obtain ⟨horder, hwithin⟩ := ((h.isLayer j hj).mem_iff index).mp hindex
    exact ⟨by omega, horder ▸ hj, hwithin⟩
  · rintro ⟨hpos, hle, hwithin⟩
    have hj : index.order - 1 < t.layers.length := by
      rw [order] at hle
      omega
    refine ⟨_, List.mem_map_of_mem (List.getElem_mem hj), ?_⟩
    exact ((h.isLayer _ hj).mem_iff index).mpr ⟨by omega, hwithin⟩

/-- No index has two entries. -/
theorem BuiltFor.nodup_keys (h : BuiltFor base vars d t) : (t.entries.map (·.1)).Nodup := by
  rw [entries, List.map_flatten, List.nodup_flatten]
  constructor
  · intro keys hkeys
    obtain ⟨layer, hlayer, rfl⟩ := List.mem_map.mp hkeys
    obtain ⟨j, hj, rfl⟩ := List.mem_iff_getElem.mp hlayer
    exact (h.isLayer j hj).nodup_keys
  · rw [List.pairwise_map, List.pairwise_iff_getElem]
    intro i j hi hj hij index hindex hindex'
    have horder := (((h.isLayer i hi).mem_iff index).mp hindex).1
    have horder' := (((h.isLayer j hj).mem_iff index).mp hindex').1
    omega

omit [Literal K] [DecidableEq K] [Spelling K] in
theorem mem_entries_of_mem_layer {order : DerivativeOrder} {entry : MultiIndex × Expr K}
    (hentry : entry ∈ t.layer order) : entry ∈ t.entries := by
  rw [layer] at hentry
  cases hlayer : t.layers[order.toNat - 1]? with
  | none => simp [hlayer] at hentry
  | some layer =>
    rw [hlayer] at hentry
    exact List.mem_flatten_of_mem (List.mem_of_getElem? hlayer) hentry

omit [Literal K] [DecidableEq K] [Spelling K] in
theorem lookup_of_mem {entries : Layer K} (hnodup : (entries.map (·.1)).Nodup)
    {entry : MultiIndex × Expr K} (hentry : entry ∈ entries) :
    entries.lookup entry.1 = some entry.2 := by
  induction entries with
  | nil => simp at hentry
  | cons first entries ih =>
    obtain ⟨hfirst, hrest⟩ := List.nodup_cons.mp hnodup
    rw [List.lookup_cons]
    rcases List.mem_cons.mp hentry with rfl | hentry
    · rw [beq_self_eq_true]
    · have hne : (entry.1 == first.1) = false := by
        refine beq_eq_false_iff_ne.mpr fun heq => hfirst ?_
        have hmem : entry.1 ∈ entries.map (·.1) := List.mem_map_of_mem hentry
        rwa [heq] at hmem
      rw [hne]
      exact ih hrest hentry

omit [Literal K] [DecidableEq K] [Spelling K] in
theorem lookup_eq_none_iff {entries : Layer K} {index : MultiIndex} :
    entries.lookup index = none ↔ index ∉ entries.map (·.1) := by
  rw [List.lookup_eq_none_iff]
  constructor
  · intro hnone hmem
    obtain ⟨entry, hentry, heq⟩ := List.mem_map.mp hmem
    exact bne_iff_ne.mp (hnone entry hentry) heq.symm
  · exact fun hnot entry hentry =>
      bne_iff_ne.mpr fun heq => hnot (List.mem_map.mpr ⟨entry, hentry, heq.symm⟩)

omit [Literal K] [DecidableEq K] [Spelling K] in
theorem getPath?_eq (t : DerivativeTable K) (path : List Variable) :
    t.getPath? path =
      if path.length ≤ maxOrder then t.get? (MultiIndex.total path) else none := by
  rw [getPath?]
  cases hindex : MultiIndex.ofPath path with
  | ok index =>
    obtain ⟨hlength, rfl⟩ := MultiIndex.ofPath_eq_ok_iff.mp hindex
    rw [if_pos hlength]
  | error e =>
    refine (if_neg fun hlength => ?_).symm
    rw [MultiIndex.ofPath_eq_ok_iff.mpr ⟨hlength, rfl⟩] at hindex
    exact nomatch hindex

/-- The entry of a key is the derivative along the sorted path. -/
theorem BuiltFor.derived (h : BuiltFor base vars d t) {entry : MultiIndex × Expr K}
    (hentry : entry ∈ t.entries) :
    d.alongPath base (entry.1.sortedPath vars) = .ok entry.2 := by
  obtain ⟨layer, hlayer, hentry⟩ := List.mem_flatten.mp hentry
  obtain ⟨j, hj, rfl⟩ := List.mem_iff_getElem.mp hlayer
  exact (h.isLayer j hj).derived entry hentry

/-- A path leads nowhere exactly if it is too long or leaves the list. -/
theorem BuiltFor.getPath?_eq_none_iff (h : BuiltFor base vars d t) (path : List Variable) :
    t.getPath? path = none ↔ t.order < path.length ∨ ∃ v ∈ path, v ∉ vars.toList := by
  have hkeys := h.mem_keys_iff (MultiIndex.total path)
  rw [MultiIndex.order_total] at hkeys
  have hwithin : (MultiIndex.total path).Within vars ↔ ∀ v ∈ path, v ∈ vars.toList :=
    forall_congr' fun v => by rw [MultiIndex.count_total, List.count_pos_iff]
  have houtside : (¬∀ v ∈ path, v ∈ vars.toList) ↔ ∃ v ∈ path, v ∉ vars.toList := by
    push Not
    rfl
  have hmax := h.order_le
  rw [getPath?_eq, get?, MultiIndex.order_total]
  split_ifs with hlength hzero
  · obtain rfl := List.length_eq_zero_iff.mp hzero
    simp
  · rw [lookup_eq_none_iff, hkeys, hwithin, ← houtside]
    constructor
    · intro hnot
      by_contra hcontra
      push Not at hcontra
      exact hnot ⟨by omega, hcontra.1, hcontra.2⟩
    · rintro (hlong | hleaves) ⟨-, hle, hin⟩
      · omega
      · exact hleaves hin
  · exact iff_of_true rfl (.inl (by omega))

/-! ### The table as a whole -/

/-- What a table holds of the derivatives of an expression. -/
structure IsTableOf (base : Expr K) (vars : VariableList) (d : Differentiator)
    (t : DerivativeTable K) : Prop where
  /-- A built layer lists every multiset of its order over the list, -/
  mem_layer_iff : ∀ order : DerivativeOrder, order.toNat ≤ t.order → ∀ index,
    index ∈ (t.layer order).map (·.1) ↔ index.order = order.toNat ∧ index.Within vars
  /-- each once, -/
  layer_nodup : ∀ order : DerivativeOrder, order.toNat ≤ t.order →
    ((t.layer order).map (·.1)).Nodup
  /-- in the lexicographic order of the places of the sorted paths. -/
  layer_sorted : ∀ order : DerivativeOrder, order.toNat ≤ t.order →
    ((t.layer order).map (·.1.places vars)).Pairwise (· < ·)
  /-- The keys are the indices in the layers. -/
  contains_iff : ∀ index, t.contains index = true ↔
    ∃ order : DerivativeOrder, order.toNat ≤ t.order ∧ index ∈ (t.layer order).map (·.1)
  keys_nodup : (t.entries.map (·.1)).Nodup
  /-- The entry of an index is the derivative along its sorted path. -/
  entry : ∀ order : DerivativeOrder, ∀ entry ∈ t.layer order,
    t.get? entry.1 = some entry.2 ∧ d.alongPath base (entry.1.sortedPath vars) = .ok entry.2
  /-- All paths through the same variables lead to one entry. -/
  getPath?_perm : ∀ path other : List Variable, path.Perm other →
    t.getPath? path = t.getPath? other
  getPath?_nil : t.getPath? [] = some base
  getPath?_eq_none_iff : ∀ path : List Variable,
    t.getPath? path = none ↔ t.order < path.length ∨ ∃ v ∈ path, v ∉ vars.toList

theorem BuiltFor.isTableOf (h : BuiltFor base vars d t) : IsTableOf base vars d t where
  mem_layer_iff order hle := (h.isLayer_layer hle).mem_iff
  layer_nodup order hle := (h.isLayer_layer hle).nodup_keys
  layer_sorted order hle := (h.isLayer_layer hle).sorted
  contains_iff index := by
    have hcontains : t.contains index = true ↔ index ∈ t.entries.map (·.1) := by
      simp [contains]
    rw [hcontains, h.mem_keys_iff]
    constructor
    · rintro ⟨hpos, hle, hwithin⟩
      have hmax : index.order ≤ maxOrder := hle.trans h.order_le
      exact ⟨⟨index.order, hpos, hmax⟩, hle, ((h.isLayer_layer hle).mem_iff index).mpr ⟨rfl, hwithin⟩⟩
    · rintro ⟨order, hle, hindex⟩
      obtain ⟨horder, hwithin⟩ := ((h.isLayer_layer hle).mem_iff index).mp hindex
      exact ⟨horder ▸ order.one_le, horder ▸ hle, hwithin⟩
  keys_nodup := h.nodup_keys
  entry order entry hentry := by
    have hmem := mem_entries_of_mem_layer hentry
    have hpos := ((h.mem_keys_iff entry.1).mp (List.mem_map_of_mem hmem)).1
    refine ⟨?_, h.derived hmem⟩
    rw [get?, if_neg (by omega)]
    exact lookup_of_mem h.nodup_keys hmem
  getPath?_perm path other hperm := by
    rw [getPath?_eq, getPath?_eq, hperm.length_eq, MultiIndex.total_eq_of_perm hperm]
  getPath?_nil := congrArg some h.base_eq
  getPath?_eq_none_iff := h.getPath?_eq_none_iff

/-- **The table after every run of extensions.** Whether the extensions succeed
or fail, the layers list the multi-indices of the built orders, and each entry
is the derivative along the sorted path. -/
theorem extendAll_isTableOf (base : Expr K) (vars : VariableList) {d : Differentiator}
    (hd : d.AdmitsLeaves) (orders : List DerivativeOrder) :
    IsTableOf base vars d (extendAll (fresh base vars d) orders) :=
  (builtFor_extendAll hd builtFor_fresh orders).isTableOf

/-- A table over doubles, with the gradient listed first and a limit that
admits leaves only. -/
theorem extendAll_leaves_isTableOf :
    let vars : VariableList := ⟨[.ga, .ra], by decide, by decide⟩
    let d : Differentiator := { maxDepth := some 1 }
    let base : Expr Double := .sym "ra"
    d.AdmitsLeaves ∧ IsTableOf base vars d (extendAll (fresh base vars d) [.second, .first]) := by
  intro vars d base
  have hd : d.AdmitsLeaves := by
    constructor
    · intro limit hlimit
      exact (Option.some.inj hlimit).le
    · exact fun limit hlimit => nomatch hlimit
  exact ⟨hd, extendAll_isTableOf base vars hd [.second, .first]⟩

end DerivativeTable

end DensityKernel
