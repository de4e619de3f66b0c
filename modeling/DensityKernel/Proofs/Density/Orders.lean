import DensityKernel.Proofs.Density.DerivativeTable

/-!
Layers and orders. Whether extensions succeed or fail, and whatever limits are set to
the size of trees, each layer of a table holds derivatives of its own order only, and at
least one of them (`graded_extendAll`). So the derivatives up to an order are those up to
the order below, followed by one layer (`upTo_next`), in which all orders are higher.
-/

namespace DensityKernel.DerivativeTable

variable {K : Type} {t : DerivativeTable K} {vars : VariableList} {n : Nat} {layer : Layer K}

/-! ### One layer after the other -/

theorem upTo_next (t : DerivativeTable K) {order next : DerivativeOrder}
    (hnext : next.toNat = order.toNat + 1) : t.upTo next = t.upTo order ++ t.layer next := by
  rw [upTo, upTo, DerivativeTable.layer, hnext, Nat.add_sub_cancel, List.take_add_one,
    List.flatten_append]
  cases t.layers[order.toNat]? with
  | none => rfl
  | some layer => simp

/-- A layer that holds derivatives of order `n` in some variables, and not none. -/
structure OfOrder (vars : VariableList) (n : Nat) (layer : Layer K) : Prop where
  ne_nil : layer ≠ []
  within : ∀ entry ∈ layer, entry.1.order = n ∧ entry.1.Within vars

/-- The layers are those of the first orders, lower orders first. -/
def Graded (t : DerivativeTable K) : Prop :=
  ∀ (j : Nat) (layer : Layer K), t.layers[j]? = some layer → OfOrder t.vars (j + 1) layer

namespace Graded

variable (ht : t.Graded) {order : DerivativeOrder}

include ht

theorem ofOrder_layer (hle : order.toNat ≤ t.order) :
    OfOrder t.vars order.toNat (t.layer order) := by
  have hone := order.one_le
  have hlt : order.toNat - 1 < t.layers.length := by
    rw [DerivativeTable.order] at hle
    omega
  have hlayer := ht _ _ (List.getElem?_eq_getElem hlt)
  rw [Nat.sub_add_cancel hone] at hlayer
  rw [DerivativeTable.layer, List.getElem?_eq_getElem hlt]
  exact hlayer

theorem order_le_of_mem_upTo {entry : MultiIndex × Expr K} (h : entry ∈ t.upTo order) :
    entry.1.order ≤ order.toNat := by
  obtain ⟨layer, hlayer, hmem⟩ := List.mem_flatten.mp h
  obtain ⟨j, hj, rfl⟩ := List.mem_take_iff_getElem.mp hlayer
  have horder := ((ht j _ (List.getElem?_eq_getElem _)).within entry hmem).1
  omega

theorem upTo_ne_nil (hpos : 0 < t.order) : t.upTo order ≠ [] := by
  have hone := order.one_le
  have hfirst : t.layers[0] ∈ t.layers.take order.toNat :=
    List.mem_take_iff_getElem.mpr ⟨0, Nat.lt_min.mpr ⟨hone, hpos⟩, rfl⟩
  obtain ⟨entry, hentry⟩ :=
    List.exists_mem_of_ne_nil _ (ht 0 _ (List.getElem?_eq_getElem hpos)).ne_nil
  exact List.ne_nil_of_mem (List.mem_flatten.mpr ⟨_, hfirst, hentry⟩)

/-- What the next layer is computed from is of one order, too. -/
theorem ofOrder_parents : OfOrder t.vars t.order t.parents := by
  rw [parents, DerivativeTable.order]
  cases hlast : t.layers.getLast? with
  | none =>
    rw [List.getLast?_eq_none_iff.mp hlast]
    refine ⟨List.cons_ne_nil _ _, List.forall_mem_singleton.mpr ⟨rfl, fun v hv => ?_⟩⟩
    rw [MultiIndex.count_zero] at hv
    exact absurd hv (Nat.lt_irrefl 0)
  | some layer =>
    have hpos : 0 < t.layers.length :=
      List.length_pos_of_mem (List.mem_of_getLast? hlast)
    rw [List.getLast?_eq_getElem?] at hlast
    have hlayer := ht _ layer hlast
    rwa [Nat.sub_add_cancel hpos] at hlayer

theorem append (hlayer : OfOrder t.vars (t.order + 1) layer) :
    ({ t with layers := t.layers ++ [layer] } : DerivativeTable K).Graded := by
  intro j layer' hlayer'
  dsimp only at hlayer'
  rcases Nat.lt_or_ge j t.layers.length with hlt | hge
  · rw [List.getElem?_append_left hlt] at hlayer'
    exact ht j layer' hlayer'
  · rw [List.getElem?_append_right hge] at hlayer'
    obtain ⟨hj, heq⟩ := List.getElem?_eq_some_iff.mp hlayer'
    obtain rfl : j = t.order := by
      rw [List.length_singleton] at hj
      rw [DerivativeTable.order]
      omega
    rw [← heq, List.getElem_singleton]
    exact hlayer

end Graded

/-! ### Runs -/

/-- Every index over the list is extended by some variable, the last one at least. -/
theorem extensions_ne_nil {index : MultiIndex} (hwithin : index.Within t.vars) :
    t.extensions index ≠ [] := by
  have hlength := List.length_pos_iff.mpr t.vars.ne_nil
  have hlast : (index.lastPosition? t.vars).getD 0 ≤ t.vars.toList.length - 1 :=
    (MultiIndex.lastPosition?_le_iff hwithin).mpr fun w hw =>
      Nat.le_sub_one_of_lt (VariableList.place_lt_length (hwithin w hw))
  rw [extensions, ne_eq, List.drop_eq_nil_iff]
  omega

variable [Literal K] [DecidableEq K] [Spelling K]

/-- **One step.** The next layer holds derivatives of the next order. -/
theorem Graded.nextLayer (ht : t.Graded) (h : t.nextLayer = .ok layer) :
    OfOrder t.vars (t.order + 1) layer where
  ne_nil := by
    obtain ⟨parent, hparent⟩ := List.exists_mem_of_ne_nil _ ht.ofOrder_parents.ne_nil
    obtain ⟨v, hv⟩ := List.exists_mem_of_ne_nil _
      (extensions_ne_nil (ht.ofOrder_parents.within parent hparent).2)
    have htask := mem_tasks_iff.mpr ⟨hparent, hv⟩
    obtain ⟨entry, hentry⟩ := exists_of_mapM h htask
    exact List.ne_nil_of_mem (mem_of_mapM h htask hentry)
  within entry hentry := by
    obtain ⟨⟨parent, v⟩, htask, hchild⟩ := exists_mem_of_mapM h hentry
    obtain ⟨hparent, hv⟩ := mem_tasks_iff.mp htask
    obtain ⟨horder, hwithin⟩ := ht.ofOrder_parents.within parent hparent
    rw [index_of_child hchild, MultiIndex.order_bump, horder]
    exact ⟨rfl, MultiIndex.within_bump hwithin (List.mem_of_mem_drop hv)⟩

theorem Graded.extend (ht : t.Graded) (count : Nat) : (extend count t).1.Graded := by
  induction count generalizing t with
  | zero => exact ht
  | succ count ih =>
    rw [DerivativeTable.extend]
    cases hnext : t.nextLayer with
    | error e => exact ht
    | ok layer => exact ih (ht.append (ht.nextLayer hnext))

/-- **Every run of extensions** leaves layers by order. -/
theorem graded_extendAll (base : Expr K) (vars : VariableList) (d : Differentiator)
    (orders : List DerivativeOrder) : (extendAll (fresh base vars d) orders).Graded := by
  suffices hrun : ∀ t : DerivativeTable K, t.Graded → (t.extendAll orders).Graded from
    hrun _ fun _ _ h => nomatch h
  induction orders with
  | nil => exact fun t ht => ht
  | cons order orders ih => exact fun t ht => ih _ (ht.extend _)

end DensityKernel.DerivativeTable
