import DensityKernel.Density.MultiIndex
import DensityKernel.Proofs.Outcome

/-!
Multi-indices as multisets of variables: an index is determined by its counts,
a path leads to the index that counts its variables, and the length of the path
is the order.
-/

namespace DensityKernel.MultiIndex

variable {index other : MultiIndex} {v w : Variable} {path : List Variable}

/-! ### Counts -/

theorem ext_count (h : ∀ v, index.count v = other.count v) : index = other := by
  obtain ⟨ra, rb, ga, gb, gab⟩ := index
  obtain ⟨ra', rb', ga', gb', gab'⟩ := other
  have hra : ra = ra' := h .ra
  have hrb : rb = rb' := h .rb
  have hga : ga = ga' := h .ga
  have hgb : gb = gb' := h .gb
  have hgab : gab = gab' := h .gab
  rw [hra, hrb, hga, hgb, hgab]

@[simp] theorem count_zero : zero.count v = 0 := by
  cases v <;> rfl

theorem count_bump : (index.bump v).count w = index.count w + if v = w then 1 else 0 := by
  cases v <;> cases w <;> rfl

@[simp] theorem count_bump_self : (index.bump v).count v = index.count v + 1 := by
  rw [count_bump, if_pos rfl]

theorem count_bump_of_ne (h : v ≠ w) : (index.bump v).count w = index.count w := by
  rw [count_bump, if_neg h, Nat.add_zero]

@[simp] theorem order_bump : (index.bump v).order = index.order + 1 := by
  cases v <;> simp only [bump, order] <;> omega

theorem order_eq_zero_iff : index.order = 0 ↔ index = zero := by
  constructor
  · intro h
    obtain ⟨ra, rb, ga, gb, gab⟩ := index
    simp only [order, Nat.add_eq_zero_iff] at h
    obtain ⟨⟨⟨⟨rfl, rfl⟩, rfl⟩, rfl⟩, rfl⟩ := h
    rfl
  · rintro rfl
    rfl

/-- An index of positive order counts something. -/
theorem exists_count_pos (h : 0 < index.order) : ∃ v, 0 < index.count v := by
  by_contra hnone
  have hzero : index = zero := ext_count fun v => by
    rw [count_zero]
    exact Nat.eq_zero_of_not_pos fun hv => hnone ⟨v, hv⟩
  rw [order_eq_zero_iff.mpr hzero] at h
  exact Nat.lt_irrefl 0 h

/-- A differentiation that was counted can be taken back. -/
theorem exists_eq_bump (h : 0 < index.count v) : ∃ parent : MultiIndex, index = parent.bump v := by
  obtain ⟨ra, rb, ga, gb, gab⟩ := index
  cases v with
  | ra =>
    obtain ⟨n, rfl⟩ : ∃ n, ra = n + 1 := Nat.exists_eq_succ_of_ne_zero (Nat.ne_of_gt h)
    exact ⟨⟨n, rb, ga, gb, gab⟩, rfl⟩
  | rb =>
    obtain ⟨n, rfl⟩ : ∃ n, rb = n + 1 := Nat.exists_eq_succ_of_ne_zero (Nat.ne_of_gt h)
    exact ⟨⟨ra, n, ga, gb, gab⟩, rfl⟩
  | ga =>
    obtain ⟨n, rfl⟩ : ∃ n, ga = n + 1 := Nat.exists_eq_succ_of_ne_zero (Nat.ne_of_gt h)
    exact ⟨⟨ra, rb, n, gb, gab⟩, rfl⟩
  | gb =>
    obtain ⟨n, rfl⟩ : ∃ n, gb = n + 1 := Nat.exists_eq_succ_of_ne_zero (Nat.ne_of_gt h)
    exact ⟨⟨ra, rb, ga, n, gab⟩, rfl⟩
  | gab =>
    obtain ⟨n, rfl⟩ : ∃ n, gab = n + 1 := Nat.exists_eq_succ_of_ne_zero (Nat.ne_of_gt h)
    exact ⟨⟨ra, rb, ga, gb, n⟩, rfl⟩

theorem increment_eq_ok_iff :
    index.increment v = .ok other ↔ index.order < maxOrder ∧ other = index.bump v := by
  unfold increment
  split_ifs with h
  · exact ⟨fun hok => ⟨h, (Except.ok.inj hok).symm⟩, fun hok => hok.2 ▸ rfl⟩
  · exact ⟨nofun, fun hok => absurd hok.1 h⟩

/-! ### Paths -/

/-- The counts of a path of any length. -/
def total (path : List Variable) : MultiIndex :=
  path.foldl bump zero

theorem count_foldl_bump : (path.foldl bump index).count v = index.count v + path.count v := by
  induction path generalizing index with
  | nil => rfl
  | cons w path ih =>
    rw [List.foldl_cons, ih, count_bump, List.count_cons]
    simp only [beq_iff_eq]
    omega

theorem order_foldl_bump : (path.foldl bump index).order = index.order + path.length := by
  induction path generalizing index with
  | nil => rfl
  | cons w path ih =>
    rw [List.foldl_cons, ih, order_bump, List.length_cons]
    omega

@[simp] theorem count_total : (total path).count v = path.count v := by
  rw [total, count_foldl_bump, count_zero, Nat.zero_add]

@[simp] theorem order_total : (total path).order = path.length := by
  rw [total, order_foldl_bump]
  exact Nat.zero_add _

/-- Paths through the same variables have one index. -/
theorem total_eq_of_perm {other : List Variable} (h : path.Perm other) :
    total path = total other :=
  ext_count fun v => by rw [count_total, count_total, h.count_eq]

theorem foldlM_increment_iff (hstart : index.order ≤ maxOrder) :
    path.foldlM increment index = .ok other ↔
      index.order + path.length ≤ maxOrder ∧ other = path.foldl bump index := by
  induction path generalizing index with
  | nil =>
    rw [List.foldlM_nil]
    exact ⟨fun h => ⟨hstart, (Except.ok.inj h).symm⟩, fun h => h.2 ▸ rfl⟩
  | cons v path ih =>
    simp only [List.foldlM_cons, bind_eq_ok_iff, increment_eq_ok_iff, List.foldl_cons,
      List.length_cons]
    constructor
    · rintro ⟨next, ⟨hlt, rfl⟩, hrest⟩
      obtain ⟨hle, hother⟩ := (ih (by rw [order_bump]; exact hlt)).mp hrest
      rw [order_bump] at hle
      exact ⟨by omega, hother⟩
    · rintro ⟨hle, rfl⟩
      have hlt : index.order < maxOrder := by omega
      refine ⟨index.bump v, ⟨hlt, rfl⟩, (ih (by rw [order_bump]; exact hlt)).mpr ⟨?_, rfl⟩⟩
      rw [order_bump]
      omega

/-- A path leads to an index exactly if it is not longer than the highest order. -/
theorem ofPath_eq_ok_iff :
    ofPath path = .ok index ↔ path.length ≤ maxOrder ∧ index = total path := by
  rw [ofPath, foldlM_increment_iff (Nat.zero_le _), total]
  exact and_congr_left fun _ => by rw [show zero.order = 0 from rfl, Nat.zero_add]

end DensityKernel.MultiIndex
