import DensityKernel.Proofs.Expr.Registered

/-!
The literals and the calls of an expression, from left to right.
-/

namespace DensityKernel.Expr

variable {K : Type}

mutual

/-- All literals. -/
def literals : Expr K → List K
  | .num x => [x]
  | .sym _ => []
  | .call _ args => literalsArgs args
  | .binary _ u v => u.literals ++ v.literals

def literalsArgs : List (Expr K) → List K
  | [] => []
  | a :: args => a.literals ++ literalsArgs args

end

mutual

/-- All calls, as the names of the functions with their numbers of arguments. -/
def calls : Expr K → List (String × Nat)
  | .num _ => []
  | .sym _ => []
  | .call name args => (name, args.length) :: callsArgs args
  | .binary _ u v => u.calls ++ v.calls

def callsArgs : List (Expr K) → List (String × Nat)
  | [] => []
  | a :: args => a.calls ++ callsArgs args

end

variable {name : String} {args : List (Expr K)} {op : Operator} {u v e : Expr K} {x : K}
  {c : String × Nat}

@[simp] theorem mem_literals_num {y : K} : x ∈ (num y).literals ↔ x = y := by
  rw [literals, List.mem_singleton]

@[simp] theorem mem_literals_call :
    x ∈ (call name args).literals ↔ ∃ a ∈ args, x ∈ a.literals := by
  rw [literals]
  induction args with
  | nil => simp [literalsArgs]
  | cons a args ih => rw [literalsArgs, List.mem_append, ih, List.exists_mem_cons_iff]

@[simp] theorem mem_literals_binary :
    x ∈ (binary op u v).literals ↔ x ∈ u.literals ∨ x ∈ v.literals := by
  rw [literals, List.mem_append]

@[simp] theorem mem_calls_call :
    c ∈ (call name args).calls ↔ c = (name, args.length) ∨ ∃ a ∈ args, c ∈ a.calls := by
  have hargs : c ∈ callsArgs args ↔ ∃ a ∈ args, c ∈ a.calls := by
    induction args with
    | nil => simp [callsArgs]
    | cons a args ih => rw [callsArgs, List.mem_append, ih, List.exists_mem_cons_iff]
  rw [calls, List.mem_cons, hargs]

@[simp] theorem mem_calls_binary : c ∈ (binary op u v).calls ↔ c ∈ u.calls ∨ c ∈ v.calls := by
  rw [calls, List.mem_append]

/-- All literals are finite. -/
def FiniteLiterals [Literal K] (e : Expr K) : Prop :=
  ∀ x ∈ e.literals, Literal.isFinite x = true

instance [Literal K] : DecidablePred (FiniteLiterals (K := K)) :=
  fun e => inferInstanceAs (Decidable (∀ x ∈ e.literals, Literal.isFinite x = true))

/-- Finiteness of the literals goes through the tree. -/
theorem hereditaryIn_finiteLiterals [Literal K] :
    HereditaryIn (K := K) (Literal.isFinite · = true) FiniteLiterals where
  num := by simp [FiniteLiterals]
  binary := by simp only [FiniteLiterals, mem_literals_binary, or_imp, forall_and, implies_true]
  of_call h a ha x hx := h x (mem_literals_call.mpr ⟨a, ha, hx⟩)
  call _ hu x hx := by
    obtain ⟨a, ha, hmem⟩ := mem_literals_call.mp hx
    obtain rfl := List.mem_singleton.mp ha
    exact hu x hmem
  call_congr hargs h x hx := by
    obtain ⟨a, ha, hmem⟩ := mem_literals_call.mp hx
    have hall := forall_mem_of_forall₂ hargs fun b hb y hy =>
      h y (mem_literals_call.mpr ⟨b, hb, hy⟩)
    exact hall a ha x hmem

theorem finiteLiterals_binary [Literal K] :
    (binary op u v).FiniteLiterals ↔ u.FiniteLiterals ∧ v.FiniteLiterals :=
  hereditaryIn_finiteLiterals.binary

theorem not_finiteLiterals_of_mem [Literal K] (hx : x ∈ e.literals)
    (h : Literal.isFinite x = false) : ¬e.FiniteLiterals :=
  fun he => Bool.false_ne_true (h.symm.trans (he x hx))

/-- An expression is registered if each of its calls is that of a function with the right number
of arguments. -/
theorem registered_iff : e.Registered ↔ ∀ c ∈ e.calls, (Elementary.lookup? c.1 c.2).isSome = true := by
  induction e with
  | num x => exact iff_of_true trivial (List.forall_mem_nil _)
  | sym s => exact iff_of_true trivial (List.forall_mem_nil _)
  | call f args ih =>
    rw [registered_call_iff]
    constructor
    · rintro ⟨hlookup, hargs⟩ c hc
      rcases mem_calls_call.mp hc with rfl | ⟨a, ha, hc⟩
      · exact hlookup
      · exact (ih a ha).mp (hargs a ha) c hc
    · intro h
      refine ⟨h _ (mem_calls_call.mpr (.inl rfl)), fun a ha => (ih a ha).mpr fun c hc => ?_⟩
      exact h c (mem_calls_call.mpr (.inr ⟨a, ha, hc⟩))
  | binary op u v ihu ihv =>
    rw [Registered, ihu, ihv]
    simp only [mem_calls_binary, or_imp, forall_and]

end DensityKernel.Expr
