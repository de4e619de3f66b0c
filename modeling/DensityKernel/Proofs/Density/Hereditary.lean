import DensityKernel.Density.DerivativeTable
import DensityKernel.Proofs.Expr.Hereditary

/-!
Hereditary properties of tables. What differentiation keeps is true of every
derivative in a table if it is true of the expression that they are computed
from, whether an extension succeeds or fails.
-/

namespace DensityKernel

open DensityKernel.Expr

variable {K : Type} {Q : Expr K → Prop}

namespace DerivativeTable

/-- The expression of a table and all its derivatives have a property. -/
def Everywhere (Q : Expr K → Prop) (t : DerivativeTable K) : Prop :=
  Q t.base ∧ ∀ layer ∈ t.layers, ∀ entry ∈ layer, Q entry.2

variable {t : DerivativeTable K} {layer : Layer K}

theorem Everywhere.parents (ht : t.Everywhere Q) : ∀ parent ∈ t.parents, Q parent.2 := by
  unfold DerivativeTable.parents
  cases hlast : t.layers.getLast? with
  | none => exact List.forall_mem_singleton.mpr ht.1
  | some layer => exact ht.2 layer (List.mem_of_getLast? hlast)

theorem Everywhere.entries (ht : t.Everywhere Q) : ∀ entry ∈ t.entries, Q entry.2 := by
  intro entry hentry
  obtain ⟨layer, hlayer, hmem⟩ := List.mem_flatten.mp hentry
  exact ht.2 layer hlayer entry hmem

theorem mem_entries_of_mem_upTo {order : DerivativeOrder} {entry : MultiIndex × Expr K}
    (h : entry ∈ t.upTo order) : entry ∈ t.entries := by
  obtain ⟨layer, hlayer, hmem⟩ := List.mem_flatten.mp h
  exact List.mem_flatten.mpr ⟨layer, List.mem_of_mem_take hlayer, hmem⟩

theorem Everywhere.upTo (ht : t.Everywhere Q) (order : DerivativeOrder) :
    ∀ entry ∈ t.upTo order, Q entry.2 :=
  fun entry hentry => ht.entries entry (mem_entries_of_mem_upTo hentry)

theorem Everywhere.append (ht : t.Everywhere Q) (hlayer : ∀ entry ∈ layer, Q entry.2) :
    ({ t with layers := t.layers ++ [layer] } : DerivativeTable K).Everywhere Q := by
  refine ⟨ht.1, fun l hl => ?_⟩
  rcases List.mem_append.mp hl with hl | hl
  · exact ht.2 l hl
  · obtain rfl := List.mem_singleton.mp hl
    exact hlayer

end DerivativeTable

namespace Hereditary

variable [Literal K] [DecidableEq K] [Spelling K] {t : DerivativeTable K} {layer : Layer K}
  (hQ : Hereditary Q)

include hQ

theorem child {parent entry : MultiIndex × Expr K} {v : Variable} (hparent : Q parent.2)
    (h : t.child parent v = .ok entry) : Q entry.2 := by
  obtain ⟨index, -, h⟩ := bind_eq_ok_iff.mp h
  split_ifs at h with hzero
  · cases h
    exact hQ.num _
  · obtain ⟨e, he, h⟩ := bind_eq_ok_iff.mp h
    cases h
    exact hQ.differentiate hparent he

theorem nextLayer (ht : t.Everywhere Q) (h : t.nextLayer = .ok layer) :
    ∀ entry ∈ layer, Q entry.2 := by
  intro entry hentry
  obtain ⟨⟨parent, v⟩, htask, hchild⟩ := exists_mem_of_mapM h hentry
  obtain ⟨parent', hparent, hmem⟩ := List.mem_flatMap.mp htask
  obtain ⟨v', -, heq⟩ := List.mem_map.mp hmem
  cases heq
  exact hQ.child (ht.parents parent hparent) hchild

/-- **The derivatives of a table have what its expression has.** -/
theorem extend (count : Nat) (ht : t.Everywhere Q) :
    (DerivativeTable.extend count t).1.Everywhere Q := by
  induction count generalizing t with
  | zero => exact ht
  | succ count ih =>
    rw [DerivativeTable.extend]
    cases hnext : t.nextLayer with
    | error e => exact ht
    | ok layer => exact ih (ht.append (hQ.nextLayer ht hnext))

end Hereditary

end DensityKernel
