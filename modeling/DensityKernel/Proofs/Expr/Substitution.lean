import DensityKernel.Expr.Evaluation
import DensityKernel.Proofs.Expr.Symbols
import DensityKernel.Proofs.Outcome

/-!
Substitution and evaluation. Where every symbol stands for a result of its own,
a value or an error, to substitute an expression for a symbol is to let the
symbol stand for the result of that expression.
-/

namespace DensityKernel.Expr

variable {K : Type}

/-! ### Symbols -/

theorem mentions_call_iff {name s : String} {args : List (Expr K)} :
    (call name args).mentions s = true ↔ ∃ a ∈ args, a.mentions s = true := by
  rw [mentions]
  induction args with
  | nil => simp [anyMentions]
  | cons a args ih => rw [anyMentions, Bool.or_eq_true, ih, List.exists_mem_cons_iff]

theorem mentions_binary_iff {op : Operator} {u v : Expr K} {s : String} :
    (binary op u v).mentions s = true ↔ u.mentions s = true ∨ v.mentions s = true := by
  rw [mentions, Bool.or_eq_true]

theorem substituteArgs_eq_map (args : List (Expr K)) (name : String) (r : Expr K) :
    substituteArgs args name r = args.map (·.substitute name r) := by
  induction args with
  | nil => rfl
  | cons a args ih => rw [substituteArgs, ih, List.map_cons]

/-- A symbol after a substitution is one from before other than the one replaced, or comes from
the replacement. -/
theorem mentions_substitute {e r : Expr K} {name s : String} :
    (e.substitute name r).mentions s = true ↔
      (s ≠ name ∧ e.mentions s = true) ∨ (e.mentions name = true ∧ r.mentions s = true) := by
  induction e with
  | num x => simp [substitute, mentions]
  | sym t =>
    rw [substitute, mentions, mentions, beq_iff_eq, beq_iff_eq]
    by_cases ht : t = name
    · subst ht
      rw [if_pos rfl]
      constructor
      · intro h
        exact .inr ⟨rfl, h⟩
      · rintro (⟨hne, heq⟩ | ⟨-, h⟩)
        · exact absurd heq.symm hne
        · exact h
    · rw [if_neg ht, mentions, beq_iff_eq]
      constructor
      · rintro rfl
        exact .inl ⟨ht, rfl⟩
      · rintro (⟨-, heq⟩ | ⟨heq, -⟩)
        · exact heq
        · exact absurd heq ht
  | call f args ih =>
    rw [substitute, substituteArgs_eq_map, mentions_call_iff, mentions_call_iff, mentions_call_iff]
    constructor
    · rintro ⟨b, hb, hs⟩
      obtain ⟨a, ha, rfl⟩ := List.mem_map.mp hb
      rcases (ih a ha).mp hs with ⟨hne, hmem⟩ | ⟨hname, hr⟩
      · exact .inl ⟨hne, a, ha, hmem⟩
      · exact .inr ⟨⟨a, ha, hname⟩, hr⟩
    · rintro (⟨hne, a, ha, hmem⟩ | ⟨⟨a, ha, hname⟩, hr⟩)
      · exact ⟨_, List.mem_map_of_mem ha, (ih a ha).mpr (.inl ⟨hne, hmem⟩)⟩
      · exact ⟨_, List.mem_map_of_mem ha, (ih a ha).mpr (.inr ⟨hname, hr⟩)⟩
  | binary op u v ihu ihv =>
    rw [substitute, mentions_binary_iff, mentions_binary_iff, mentions_binary_iff, ihu, ihv,
      and_or_left, or_and_right, or_or_or_comm]

/-! ### Values -/

variable [Literal K]

mutual

/-- The value when every symbol stands for a result. The arithmetic and the order of evaluation
are those of `eval`. -/
def evalBy (value : String → Except Error K) : Expr K → Except Error K
  | .num x => .ok x
  | .sym name => value name
  | .call name args => do
    let values ← evalByArgs value args
    callValue name values
  | .binary op u v => do
    let x ← u.evalBy value
    let y ← v.evalBy value
    .ok (op.onLiterals x y)

def evalByArgs (value : String → Except Error K) : List (Expr K) → Except Error (List K)
  | [] => .ok []
  | a :: args => do
    let x ← a.evalBy value
    let xs ← evalByArgs value args
    .ok (x :: xs)

end

variable {value value' : String → Except Error K}

/-- Evaluation under an assignment gives every symbol the result that the assignment or the named
constants have for it. -/
theorem eval_eq_evalBy (env : String → Option K) (e : Expr K) :
    e.eval env = e.evalBy (symbolValue env) := by
  induction e with
  | num x => rfl
  | sym s => rfl
  | call f args ih =>
    have hargs : evalArgs env args = evalByArgs (symbolValue env) args := by
      induction args with
      | nil => rfl
      | cons a args ihargs =>
        obtain ⟨ha, hrest⟩ := List.forall_mem_cons.mp ih
        rw [evalArgs, evalByArgs, ha, ihargs hrest]
    rw [eval, evalBy, hargs]
  | binary op u v ihu ihv => rw [eval, evalBy, ihu, ihv]

/-- The value depends on the results of the symbols that are mentioned, and on nothing else. -/
theorem evalBy_congr {e : Expr K} (h : ∀ s, e.mentions s = true → value s = value' s) :
    e.evalBy value = e.evalBy value' := by
  induction e with
  | num x => rfl
  | sym s => exact h s (beq_self_eq_true s)
  | call f args ih =>
    have hargs : evalByArgs value args = evalByArgs value' args := by
      induction args with
      | nil => rfl
      | cons a args ihargs =>
        have ha : a.evalBy value = a.evalBy value' :=
          ih a List.mem_cons_self fun s hs =>
            h s (mentions_call_iff.mpr ⟨a, List.mem_cons_self, hs⟩)
        rw [evalByArgs, evalByArgs, ha, ihargs]
        · exact fun b hb => ih b (List.mem_cons_of_mem _ hb)
        · intro s hs
          obtain ⟨b, hb, hs⟩ := mentions_call_iff.mp hs
          exact h s (mentions_call_iff.mpr ⟨b, List.mem_cons_of_mem _ hb, hs⟩)
    rw [evalBy, evalBy, hargs]
  | binary op u v ihu ihv =>
    rw [evalBy, evalBy, ihu fun s hs => h s (mentions_binary_iff.mpr (.inl hs)),
      ihv fun s hs => h s (mentions_binary_iff.mpr (.inr hs))]

/-- Assignments that agree on the symbols that are mentioned give the same value. -/
theorem eval_congr {env env' : String → Option K} {e : Expr K}
    (h : ∀ s, e.mentions s = true → env s = env' s) : e.eval env = e.eval env' := by
  rw [eval_eq_evalBy, eval_eq_evalBy]
  refine evalBy_congr fun s hs => ?_
  rw [symbolValue, symbolValue, h s hs]

/-- **The value of a substitution** is the value in which the symbol stands for the result of the
replacement. -/
theorem evalBy_substitute (e r : Expr K) (name : String) :
    (e.substitute name r).evalBy value
      = e.evalBy (Function.update value name (r.evalBy value)) := by
  induction e with
  | num x => rfl
  | sym s =>
    rw [substitute, evalBy]
    by_cases hs : s = name
    · rw [if_pos hs, hs, Function.update_self]
    · rw [if_neg hs, Function.update_of_ne hs, evalBy]
  | call f args ih =>
    have hargs : evalByArgs value (substituteArgs args name r)
        = evalByArgs (Function.update value name (r.evalBy value)) args := by
      induction args with
      | nil => rfl
      | cons a args ihargs =>
        obtain ⟨ha, hrest⟩ := List.forall_mem_cons.mp ih
        rw [substituteArgs, evalByArgs, evalByArgs, ha, ihargs hrest]
    rw [substitute, evalBy, evalBy, hargs]
  | binary op u v ihu ihv => rw [substitute, evalBy, evalBy, ihu, ihv]

/-- A substitution for a symbol that stands for the result of the replacement changes no value. -/
theorem evalBy_substitute_of_eq {name : String} {r : Expr K} (h : value name = r.evalBy value)
    (e : Expr K) : (e.substitute name r).evalBy value = e.evalBy value := by
  rw [evalBy_substitute, ← h, Function.update_eq_self]

end DensityKernel.Expr
