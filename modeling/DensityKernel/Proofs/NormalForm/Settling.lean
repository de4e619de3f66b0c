import DensityKernel.NormalForm.Passes
import Mathlib

/-!
Repeating a pass. Where every pass lowers a measure or else is the last one that changes anything
(`Settles`), passes never come back to an earlier tree, so a run is the pass as often as the limit
says, and it ends at a tree that further passes leave alone if the limit is not smaller than the
measure.
-/

namespace DensityKernel.NormalForm

section Runs

variable {K : Type} [DecidableEq K] {f : Expr K → Expr K} {d e : Expr K} {limit : Nat}

/-- A run goes on from the result of its first pass. -/
theorem settle_succ (f : Expr K → Expr K) (limit : Nat) (e : Expr K) :
    settle f (limit + 1) [] e = if f e = e then f e else settle f limit [f e] (f e) := by
  simp only [settle, List.not_mem_nil, if_false]
  split_ifs with heq
  · exact heq.symm
  · rfl

theorem settle_of_fixed (limit : Nat) (seen : List (Expr K)) (h : f e = e) :
    settle f limit seen e = e := by
  cases limit with
  | zero => rfl
  | succ limit => rw [settle, if_pos h]

/-- **What every pass makes sure of holds of the result of a run**, whichever way the run ends. -/
theorem settle_of_forall {p : Expr K → Prop} (hf : ∀ e, p (f e)) (limit : Nat)
    (seen : List (Expr K)) (e : Expr K) : p (settle f (limit + 1) seen e) := by
  induction limit generalizing seen e with
  | zero =>
    rw [settle]
    split_ifs with hfixed
    · exact hfixed ▸ hf e
    · exact hf e
    · exact hf e
  | succ limit ih =>
    rw [settle]
    split_ifs with hfixed
    · exact hfixed ▸ hf e
    · exact hf e
    · exact ih _ _

/-- **Two runs that meet after one pass have one result.** -/
theorem settle_eq_of_eq (h : f d = f e) :
    settle f (limit + 1) [] d = settle f (limit + 1) [] e := by
  rw [settle_succ, settle_succ, h]
  split_ifs with hd he he
  · rfl
  · -- the pass changes nothing in `d`, so it changes nothing in what it makes of `e`
    exact (settle_of_fixed _ _ (by rw [hd, h, hd])).symm
  · exact settle_of_fixed _ _ (by rw [he, he])
  · rfl

end Runs

/-! ### Measures -/

/-- No application raises the measure, and one that keeps it is the last that changes anything. -/
structure Settles {α : Type} (f : α → α) (measure : α → Nat) : Prop where
  le : ∀ e, measure (f e) ≤ measure e
  fixed : ∀ e, measure (f e) = measure e → f (f e) = f e

namespace Settles

variable {α : Type} {f : α → α} {measure : α → Nat} (h : Settles f measure) {e : α} {m n : Nat}

include h

theorem measure_iterate_le (n : Nat) (e : α) : measure (f^[n] e) ≤ measure e := by
  induction n with
  | zero => exact le_rfl
  | succ n ih =>
    rw [Function.iterate_succ_apply']
    exact (h.le _).trans ih

/-- **No tree comes back** once a pass has changed it. -/
theorem fixed_of_iterate_eq (hlt : m < n) (heq : f^[n] e = f^[m] e) :
    f^[m + 1] e = f^[m] e := by
  obtain ⟨k, rfl⟩ := Nat.exists_eq_add_of_lt hlt
  have hback : f^[k] (f^[m + 1] e) = f^[m] e := by
    rw [← Function.iterate_add_apply, ← heq]
    congr 1
    omega
  have hmeasure : measure (f (f^[m] e)) = measure (f^[m] e) := by
    refine le_antisymm (h.le _) ?_
    have hle := h.measure_iterate_le k (f^[m + 1] e)
    rwa [hback, Function.iterate_succ_apply'] at hle
  have hfixed := h.fixed _ hmeasure
  rw [Function.iterate_succ_apply'] at hback ⊢
  rwa [Function.iterate_fixed hfixed] at hback

/-- Some application not much later than the measure changes nothing. -/
theorem exists_fixed (e : α) : ∃ n ≤ measure e + 1, f (f^[n] e) = f^[n] e := by
  induction hk : measure e using Nat.strong_induction_on generalizing e with
  | _ k ih =>
  subst hk
  rcases (h.le e).eq_or_lt with heq | hlt
  · exact ⟨1, Nat.le_add_left _ _, h.fixed e heq⟩
  · obtain ⟨n, hn, hfixed⟩ := ih _ hlt (f e) rfl
    exact ⟨n + 1, by omega, hfixed⟩

/-- **Passes settle** after as many applications as the measure says, at the latest. -/
theorem fixed_iterate (hn : measure e < n) : f (f^[n] e) = f^[n] e := by
  obtain ⟨k, hk, hfixed⟩ := h.exists_fixed e
  obtain ⟨l, rfl⟩ : ∃ l, n = l + k := ⟨n - k, by omega⟩
  rw [Function.iterate_add_apply, Function.iterate_fixed hfixed, hfixed]

/-- Passes twice over are passes once over exactly if the first of the second round changes
nothing. -/
theorem iterate_iterate_eq_iff (hn : 0 < n) :
    f^[n] (f^[n] e) = f^[n] e ↔ f^[n + 1] e = f^[n] e := by
  rw [Function.iterate_succ_apply']
  constructor
  · intro heq
    rw [← Function.iterate_add_apply] at heq
    have hfixed := h.fixed_of_iterate_eq (by omega) heq
    rwa [Function.iterate_succ_apply'] at hfixed
  · exact fun hfixed => Function.iterate_fixed hfixed n

end Settles

/-- **A run is a number of passes.** The exit for a tree that comes back is never taken. -/
theorem Settles.settle_eq {K : Type} [DecidableEq K] {f : Expr K → Expr K} {measure : Expr K → Nat}
    (h : Settles f measure) {limit : Nat} {seen : List (Expr K)} {e : Expr K}
    (hseen : ∀ d ∈ seen, ∃ n, f^[n] d = e) : settle f limit seen e = f^[limit] e := by
  induction limit generalizing seen e with
  | zero => rfl
  | succ limit ih =>
    simp only [settle]
    split_ifs with hfixed hmem
    · exact (Function.iterate_fixed hfixed _).symm
    · obtain ⟨n, hn⟩ := hseen _ hmem
      have hback : f^[n + 1] e = f^[0] e := hn
      exact absurd (h.fixed_of_iterate_eq (Nat.succ_pos n) hback) hfixed
    · rw [Function.iterate_succ_apply]
      refine ih fun d hd => ?_
      rcases List.mem_cons.mp hd with rfl | hd
      · exact ⟨0, rfl⟩
      · obtain ⟨n, hn⟩ := hseen d hd
        exact ⟨n + 1, by rw [Function.iterate_succ_apply', hn]⟩

end DensityKernel.NormalForm
