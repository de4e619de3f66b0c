import DensityKernel.Proofs.Expr.Hereditary

/-!
The symbols of expressions. To be over some symbols is hereditary: neither
differentiation nor simplification brings in a symbol that was not there.
-/

namespace DensityKernel

variable {K : Type} {P : String → Prop}

namespace Expr

/-- All symbols of an expression are of some kind. -/
def Over (P : String → Prop) (e : Expr K) : Prop :=
  ∀ s ∈ e.symbols, P s

variable {u v : Expr K}

@[simp] theorem over_num (x : K) : (num x).Over P := by
  simp [Over, symbols]

@[simp] theorem over_sym {s : String} : (sym s : Expr K).Over P ↔ P s := by
  simp [Over, symbols]

@[simp] theorem over_binary {op : Operator} : (binary op u v).Over P ↔ u.Over P ∧ v.Over P := by
  simp only [Over, symbols, List.mem_append, or_imp, forall_and]

@[simp] theorem over_call {f : String} {args : List (Expr K)} :
    (call f args).Over P ↔ ∀ a ∈ args, a.Over P := by
  rw [Over, symbols]
  induction args with
  | nil => simp [symbolsArgs]
  | cons a args ih =>
    simp only [symbolsArgs, List.mem_append, or_imp, forall_and, ih, List.mem_cons, forall_eq]
    rfl

@[simp] theorem over_negate [Literal K] : u.negate.Over P ↔ u.Over P := by
  simp [negate]

/-- A symbol is mentioned if it is among the symbols. -/
theorem mentions_iff {e : Expr K} {s : String} : e.mentions s = true ↔ s ∈ e.symbols := by
  induction e with
  | num x => simp [mentions, symbols]
  | sym r =>
    rw [mentions, symbols, List.mem_singleton, beq_iff_eq]
    exact eq_comm
  | call f args ih =>
    rw [mentions, symbols]
    induction args with
    | nil => simp [anyMentions, symbolsArgs]
    | cons a args ihargs =>
      rw [anyMentions, symbolsArgs, Bool.or_eq_true, List.mem_append, ih a List.mem_cons_self,
        ihargs fun b hb => ih b (List.mem_cons_of_mem _ hb)]
  | binary op u v ihu ihv =>
    rw [mentions, symbols, Bool.or_eq_true, List.mem_append, ihu, ihv]

theorem over_ne_iff {e : Expr K} {s : String} : e.Over (· ≠ s) ↔ e.mentions s = false := by
  rw [← Bool.not_eq_true, mentions_iff]
  exact ⟨fun h hs => h s hs rfl, fun h r hr hrs => h (hrs ▸ hr)⟩

theorem hereditary_over : Hereditary (K := K) (Over P) where
  num := over_num
  binary := over_binary
  of_call := over_call.mp
  call _ hu := over_call.mpr (List.forall_mem_singleton.mpr hu)
  call_congr hargs h := over_call.mpr (forall_mem_of_forall₂ hargs (over_call.mp h))

end Expr

end DensityKernel
