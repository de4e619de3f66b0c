import DensityKernel.Proofs.Expr.Hereditary

/-!
Registered calls. An expression whose calls are all registered is differentiated
without fail, and its derivatives are such expressions again.
-/

namespace DensityKernel

namespace Expr

variable {K : Type}

mutual

/-- Every call is of a registered function, with one argument. -/
def Registered : Expr K → Prop
  | .num _ => True
  | .sym _ => True
  | .call name args => (Elementary.lookup? name args.length).isSome = true ∧ AllRegistered args
  | .binary _ u v => u.Registered ∧ v.Registered

def AllRegistered : List (Expr K) → Prop
  | [] => True
  | a :: args => a.Registered ∧ AllRegistered args

end

variable {name : String} {args : List (Expr K)} {e : Expr K}

theorem allRegistered_iff : AllRegistered args ↔ ∀ a ∈ args, a.Registered := by
  induction args with
  | nil => simp [AllRegistered]
  | cons a args ih => simp [AllRegistered, ih]

theorem registered_call_iff : (call name args).Registered ↔
    (Elementary.lookup? name args.length).isSome = true ∧ ∀ a ∈ args, a.Registered := by
  rw [Registered, allRegistered_iff]

theorem hereditary_registered : Hereditary (K := K) Registered where
  num _ := trivial
  binary := Iff.rfl
  of_call h := (registered_call_iff.mp h).2
  call hlookup hu :=
    registered_call_iff.mpr ⟨by simp [hlookup], List.forall_mem_singleton.mpr hu⟩
  call_congr hargs h := by
    obtain ⟨hlookup, h⟩ := registered_call_iff.mp h
    exact registered_call_iff.mpr ⟨hargs.length_eq ▸ hlookup, forall_mem_of_forall₂ hargs h⟩

variable [Literal K]

/-- **An expression with registered calls has a derivative.** -/
theorem Registered.derive (h : e.Registered) (name : String) : ∃ d, e.derive name = .ok d := by
  induction e with
  | num x => exact ⟨_, derive_leaf.1 x⟩
  | sym s => exact ⟨_, derive_leaf.2 s⟩
  | call f args ih =>
    obtain ⟨hlookup, hargs⟩ := registered_call_iff.mp h
    obtain ⟨g, hg⟩ := Option.isSome_iff_exists.mp hlookup
    have harity : args.length = 1 := by
      by_contra hne
      simp [Elementary.lookup?, hne] at hg
    obtain ⟨u, rfl⟩ := List.length_eq_one_iff.mp harity
    obtain ⟨du, hdu⟩ := ih u List.mem_cons_self (hargs u List.mem_cons_self)
    exact ⟨_, derive_call_iff.mpr ⟨g, u, du, rfl, hg, hdu, rfl⟩⟩
  | binary op u v ihu ihv =>
    obtain ⟨hu, hv⟩ := h
    obtain ⟨du, hdu⟩ := ihu hu
    obtain ⟨dv, hdv⟩ := ihv hv
    by_cases hexponent : op = .pow ∧ v.mentions name = false
    · exact ⟨_, derive_binary_iff.mpr (.inr ⟨hexponent.1, hexponent.2, du, hdu, rfl⟩)⟩
    · refine ⟨_, derive_binary_iff.mpr (.inl ⟨du, dv, hdu, hdv, fun hop => ?_, rfl⟩)⟩
      exact (Bool.not_eq_false _).mp fun hmentions => hexponent ⟨hop, hmentions⟩

end Expr

end DensityKernel
