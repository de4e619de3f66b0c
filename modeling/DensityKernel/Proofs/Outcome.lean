import Mathlib.Data.List.Forall2

/-!
Runs that may fail. A sequence of two steps succeeds exactly when both do, and
a list of steps when all of them do; an error is that of one of the steps, and
has a property that the errors of all steps have.
-/

namespace DensityKernel

variable {ε α β : Type}

theorem bind_eq_ok_iff {x : Except ε α} {f : α → Except ε β} {b : β} :
    (x >>= f) = .ok b ↔ ∃ a, x = .ok a ∧ f a = .ok b := by
  cases x with
  | error e => simp [bind, Except.bind]
  | ok a => simp [bind, Except.bind]

theorem bind_eq_error_iff {x : Except ε α} {f : α → Except ε β} {e : ε} :
    (x >>= f) = .error e ↔ x = .error e ∨ ∃ a, x = .ok a ∧ f a = .error e := by
  cases x with
  | error e => simp [bind, Except.bind]
  | ok a => simp [bind, Except.bind]

theorem forM_eq_ok_iff {f : α → Except ε PUnit} {xs : List α} :
    xs.forM f = .ok () ↔ ∀ x ∈ xs, f x = .ok () := by
  induction xs with
  | nil => exact iff_of_true rfl (List.forall_mem_nil _)
  | cons x xs ih =>
    show (f x >>= fun _ => xs.forM f) = .ok () ↔ _
    rw [bind_eq_ok_iff, List.forall_mem_cons]
    constructor
    · rintro ⟨⟨⟩, hx, hrest⟩
      exact ⟨hx, ih.mp hrest⟩
    · rintro ⟨hx, hrest⟩
      exact ⟨(), hx, ih.mpr hrest⟩

/-- Each element on the right of related lists is related to one on the left. -/
theorem exists_left_of_forall₂ {r : α → β → Prop} {xs : List α} {ys : List β} {y : β}
    (h : List.Forall₂ r xs ys) (hy : y ∈ ys) : ∃ x ∈ xs, r x y := by
  induction h with
  | nil => cases hy
  | cons hstep _ ih =>
    rcases List.mem_cons.mp hy with rfl | hy
    · exact ⟨_, List.mem_cons_self, hstep⟩
    · obtain ⟨x, hx, hxy⟩ := ih hy
      exact ⟨x, List.mem_cons_of_mem _ hx, hxy⟩

/-- Each element on the left of related lists is related to one on the right. -/
theorem exists_right_of_forall₂ {r : α → β → Prop} {xs : List α} {ys : List β} {x : α}
    (h : List.Forall₂ r xs ys) (hx : x ∈ xs) : ∃ y ∈ ys, r x y :=
  exists_left_of_forall₂ (List.Forall₂.flip h) hx

theorem mapM_eq_ok_iff {f : α → Except ε β} {xs : List α} {ys : List β} :
    xs.mapM f = .ok ys ↔ List.Forall₂ (fun x y => f x = .ok y) xs ys := by
  induction xs generalizing ys with
  | nil =>
    rw [List.mapM_nil, List.forall₂_nil_left_iff]
    exact ⟨fun h => (Except.ok.inj h).symm, fun h => h ▸ rfl⟩
  | cons x xs ih =>
    simp only [List.mapM_cons, bind_eq_ok_iff, List.forall₂_cons_left_iff]
    constructor
    · rintro ⟨y, hy, ys', hys', hout⟩
      exact ⟨y, ys', hy, ih.mp hys', (Except.ok.inj hout).symm⟩
    · rintro ⟨y, ys', hy, hys', rfl⟩
      exact ⟨y, hy, ys', ih.mpr hys', rfl⟩

/-- Steps whose results are known. -/
theorem mapM_eq_map {f : α → Except ε β} {xs : List α} {g : α → β}
    (h : ∀ x ∈ xs, f x = .ok (g x)) : xs.mapM f = .ok (xs.map g) :=
  mapM_eq_ok_iff.mpr (List.forall₂_map_right_iff.mpr (List.forall₂_same.mpr h))

/-- Every step of a list that succeeds has a result. -/
theorem exists_of_mapM {f : α → Except ε β} {xs : List α} {ys : List β} {x : α}
    (h : xs.mapM f = .ok ys) (hx : x ∈ xs) : ∃ y, f x = .ok y := by
  obtain ⟨y, -, hy⟩ := exists_right_of_forall₂ (mapM_eq_ok_iff.mp h) hx
  exact ⟨y, hy⟩

theorem exists_mapM_eq_ok {f : α → Except ε β} {xs : List α} (h : ∀ x ∈ xs, ∃ y, f x = .ok y) :
    ∃ ys, xs.mapM f = .ok ys := by
  induction xs with
  | nil => exact ⟨[], List.mapM_nil⟩
  | cons x xs ih =>
    obtain ⟨hx, hrest⟩ := List.forall_mem_cons.mp h
    obtain ⟨y, hy⟩ := hx
    obtain ⟨ys, hys⟩ := ih hrest
    exact ⟨y :: ys, mapM_eq_ok_iff.mpr (.cons hy (mapM_eq_ok_iff.mp hys))⟩

/-- The error of a list of steps is that of the first one that fails. -/
theorem mapM_eq_error_iff {f : α → Except ε β} {xs : List α} {e : ε} :
    xs.mapM f = .error e ↔ ∃ front x back, xs = front ++ x :: back ∧
      (∀ x' ∈ front, ∃ y, f x' = .ok y) ∧ f x = .error e := by
  constructor
  · intro h
    induction xs with
    | nil => cases h
    | cons x xs ih =>
      rw [List.mapM_cons] at h
      rcases bind_eq_error_iff.mp h with hx | ⟨y, hy, h⟩
      · exact ⟨[], x, xs, rfl, List.forall_mem_nil _, hx⟩
      · rcases bind_eq_error_iff.mp h with hrest | ⟨ys, -, h⟩
        · obtain ⟨front, x', back, rfl, hfront, hx'⟩ := ih hrest
          exact ⟨x :: front, x', back, rfl, List.forall_mem_cons.mpr ⟨⟨y, hy⟩, hfront⟩, hx'⟩
        · cases h
  · rintro ⟨front, x, back, rfl, hfront, hx⟩
    induction front with
    | nil =>
      rw [List.nil_append, List.mapM_cons, hx]
      rfl
    | cons x' front ih =>
      obtain ⟨⟨y, hy⟩, hrest⟩ := List.forall_mem_cons.mp hfront
      rw [List.cons_append, List.mapM_cons, hy]
      exact bind_eq_error_iff.mpr (.inr ⟨y, rfl, bind_eq_error_iff.mpr (.inl (ih hrest))⟩)

/-- The error of a list of steps is that of one of them. -/
theorem exists_mem_of_mapM_error {f : α → Except ε β} {xs : List α} {e : ε}
    (h : xs.mapM f = .error e) : ∃ x ∈ xs, f x = .error e := by
  obtain ⟨front, x, back, rfl, -, hx⟩ := mapM_eq_error_iff.mp h
  exact ⟨x, List.mem_append_cons_self, hx⟩

/-- Every result of a list of steps comes from one of them. -/
theorem exists_mem_of_mapM {f : α → Except ε β} {xs : List α} {ys : List β} {y : β}
    (h : xs.mapM f = .ok ys) (hy : y ∈ ys) : ∃ x ∈ xs, f x = .ok y := by
  obtain ⟨x, hx, hxy⟩ := exists_left_of_forall₂ (mapM_eq_ok_iff.mp h) hy
  exact ⟨x, hx, hxy⟩

/-- The result of every step is among the results. -/
theorem mem_of_mapM {f : α → Except ε β} {xs : List α} {ys : List β} {x : α} {y : β}
    (h : xs.mapM f = .ok ys) (hx : x ∈ xs) (hy : f x = .ok y) : y ∈ ys := by
  obtain ⟨y', hmem, hy'⟩ := exists_right_of_forall₂ (mapM_eq_ok_iff.mp h) hx
  cases hy.symm.trans hy'
  exact hmem

/-- What the results have in common with the steps they come from, in order. -/
theorem map_eq_of_mapM {γ : Type} {f : α → Except ε β} {xs : List α} {ys : List β} {g : β → γ}
    {k : α → γ} (h : xs.mapM f = .ok ys) (hk : ∀ x ∈ xs, ∀ y, f x = .ok y → g y = k x) :
    ys.map g = xs.map k := by
  have hall := mapM_eq_ok_iff.mp h
  clear h
  induction hall with
  | nil => rfl
  | cons hx hrest ih =>
    obtain ⟨hhead, htail⟩ := List.forall_mem_cons.mp hk
    rw [List.map_cons, List.map_cons, hhead _ hx, ih htail]

/-- What each result of a list of steps has to do with its step, in order. -/
theorem forall₂_map_of_mapM {γ : Type} {f : α → Except ε β} {xs : List α} {ys : List β}
    {r : β → γ → Prop} {k : α → γ} (h : xs.mapM f = .ok ys)
    (hr : ∀ x ∈ xs, ∀ y, f x = .ok y → r y (k x)) : List.Forall₂ r ys (xs.map k) := by
  have hall := mapM_eq_ok_iff.mp h
  clear h
  induction hall with
  | nil => exact .nil
  | cons hx hrest ih =>
    obtain ⟨hhead, htail⟩ := List.forall_mem_cons.mp hr
    exact .cons (hhead _ hx) (ih htail)

/-- The error of a run is that of the first step that fails, in the state that those before it
lead to. -/
theorem foldlM_eq_error_iff {step : β → α → Except ε β} {state : β} {xs : List α} {e : ε} :
    xs.foldlM step state = .error e ↔ ∃ front x back state', xs = front ++ x :: back ∧
      front.foldlM step state = .ok state' ∧ step state' x = .error e := by
  constructor
  · intro h
    induction xs generalizing state with
    | nil => cases h
    | cons x xs ih =>
      rw [List.foldlM_cons] at h
      rcases bind_eq_error_iff.mp h with hx | ⟨state₁, hx, hrest⟩
      · exact ⟨[], x, xs, state, rfl, rfl, hx⟩
      · obtain ⟨front, x', back, state', rfl, hfront, hx'⟩ := ih hrest
        refine ⟨x :: front, x', back, state', rfl, ?_, hx'⟩
        rw [List.foldlM_cons]
        exact bind_eq_ok_iff.mpr ⟨state₁, hx, hfront⟩
  · rintro ⟨front, x, back, state', rfl, hfront, hx⟩
    rw [List.foldlM_append, hfront]
    show (x :: back).foldlM step state' = .error e
    rw [List.foldlM_cons, hx]
    rfl

/-! ### Errors -/

/-- Every error that a run can end with has a property. -/
def Raises (P : ε → Prop) (run : Except ε α) : Prop :=
  ∀ error, run = .error error → P error

namespace Raises

variable {P Q : ε → Prop} {error : ε}

theorem ok (a : α) : Raises P (.ok a : Except ε α) :=
  nofun

theorem raise (h : P error) : Raises P (.error error : Except ε α) := by
  rintro _ ⟨⟩
  exact h

theorem imp {run : Except ε α} (h : Raises P run) (himp : ∀ error, P error → Q error) :
    Raises Q run :=
  fun error herror => himp error (h error herror)

theorem bind {x : Except ε α} {f : α → Except ε β} (hx : Raises P x)
    (hf : ∀ a, Raises P (f a)) : Raises P (x >>= f) := by
  intro error h
  rcases bind_eq_error_iff.mp h with h | ⟨a, -, h⟩
  · exact hx error h
  · exact hf a error h

theorem foldlM {step : β → α → Except ε β} (h : ∀ state a, Raises P (step state a))
    (state : β) (xs : List α) : Raises P (xs.foldlM step state) := by
  induction xs generalizing state with
  | nil => exact .ok state
  | cons a xs ih =>
    rw [List.foldlM_cons]
    exact .bind (h state a) ih

theorem forM {step : α → Except ε PUnit} (h : ∀ a, Raises P (step a)) (xs : List α) :
    Raises P (xs.forM step) := by
  induction xs with
  | nil => exact .ok _
  | cons a xs ih => exact .bind (h a) fun _ => ih

end Raises

end DensityKernel
