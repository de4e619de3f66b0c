import DensityKernel.Density.DerivativeTable
import DensityKernel.Proofs.Outcome

/-!
How tables grow. An extension only adds layers behind those that are there, and
it does so one by one: where it succeeds, every shorter extension succeeds, and
its table is the longer one cut off (`extend_of_le`).
-/

namespace DensityKernel.DerivativeTable

variable {K : Type}

/-- The table without the layers above an order. -/
def cut (t : DerivativeTable K) (order : Nat) : DerivativeTable K :=
  { t with layers := t.layers.take order }

@[simp] theorem upTo_cut (t : DerivativeTable K) (order : DerivativeOrder) :
    (t.cut order.toNat).upTo order = t.upTo order := by
  rw [upTo, upTo, cut, List.take_take, Nat.min_self]

theorem order_append (t : DerivativeTable K) (layer : Layer K) :
    ({ t with layers := t.layers ++ [layer] } : DerivativeTable K).order = t.order + 1 := by
  rw [order, List.length_append]
  rfl

variable [Literal K] [DecidableEq K] [Spelling K]

/-- An extension adds layers behind those of the table, as many as it was asked for unless it
fails. -/
theorem extend_front (count : Nat) (t : DerivativeTable K) :
    ∃ added, (extend count t).1 = { t with layers := t.layers ++ added } ∧
      ((extend count t).2 = .ok () → added.length = count) := by
  induction count generalizing t with
  | zero => exact ⟨[], by rw [extend, List.append_nil], fun _ => rfl⟩
  | succ count ih =>
    rw [extend]
    cases hnext : t.nextLayer with
    | error e => exact ⟨[], by rw [List.append_nil], nofun⟩
    | ok layer =>
      obtain ⟨added, htable, hlength⟩ := ih { t with layers := t.layers ++ [layer] }
      refine ⟨layer :: added, ?_, fun hok => ?_⟩
      · dsimp only at htable ⊢
        rw [htable, List.append_assoc]
        rfl
      · rw [List.length_cons, hlength hok]

/-- What was there is what is left of an extended table when the new layers are cut off. -/
theorem cut_extend (count : Nat) (t : DerivativeTable K) : (extend count t).1.cut t.order = t := by
  obtain ⟨added, htable, -⟩ := extend_front count t
  rw [htable, cut, order, List.take_left]

/-- A successful extension reaches the order that it was asked for. -/
theorem order_extend {count : Nat} {t : DerivativeTable K} (h : (extend count t).2 = .ok ()) :
    (extend count t).1.order = t.order + count := by
  obtain ⟨added, htable, hlength⟩ := extend_front count t
  rw [htable, order, List.length_append, hlength h]
  rfl

/-- **A shorter extension is a longer one cut off.** No layer depends on those above it, so it
succeeds where the longer one does. -/
theorem extend_of_le {count fewer : Nat} (hle : fewer ≤ count) {t : DerivativeTable K}
    (h : (extend count t).2 = .ok ()) :
    extend fewer t = ((extend count t).1.cut (t.order + fewer), .ok ()) := by
  induction fewer generalizing count t with
  | zero => rw [extend, Nat.add_zero, cut_extend]
  | succ fewer ih =>
    obtain ⟨count, rfl⟩ := Nat.exists_eq_add_of_lt (Nat.lt_of_succ_le hle)
    rw [extend] at h ⊢
    rw [extend]
    cases hnext : t.nextLayer with
    | error e => simp [hnext] at h
    | ok layer =>
      rw [hnext] at h
      have horder : ({ t with layers := t.layers ++ [layer] } : DerivativeTable K).order + fewer =
          t.order + (fewer + 1) := by
        rw [order, List.length_append, List.length_singleton, order]
        omega
      rw [← horder]
      exact ih (Nat.le_add_right fewer count) h

/-- A table that was extended to a lower order is one of a higher order cut off. -/
theorem extendTo_of_le {order order' : DerivativeOrder} (hle : order.toNat ≤ order'.toNat)
    {t : DerivativeTable K} (hfresh : t.layers = []) (h : (t.extendTo order').2 = .ok ()) :
    t.extendTo order = ((t.extendTo order').1.cut order.toNat, .ok ()) := by
  have hempty : t.order = 0 := by rw [DerivativeTable.order, hfresh, List.length_nil]
  rw [extendTo, hempty, Nat.sub_zero] at h
  rw [extendTo, extendTo, hempty, Nat.sub_zero, Nat.sub_zero, extend_of_le hle h, hempty,
    Nat.zero_add]

end DensityKernel.DerivativeTable
