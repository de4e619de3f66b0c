import DensityKernel.C.SymbolMap
import DensityKernel.Proofs.C.Grammar
import DensityKernel.Proofs.Reals.Meaning
import DensityKernel.Proofs.Reals.Power

/-!
The values of C expressions, and what it is for a text to spell an expression.
A value is missing where the expression has none: both sides have values at
the same points and the same ones there, so that texts are put together without
asking where they are defined.
-/

namespace DensityKernel

open Literal

open Classical in
/-- The result of an operation, if it has one. -/
noncomputable def Operator.result? (op : Operator) (x y : ℝ) : Option ℝ :=
  if op.DefinedAt x y then some (op.onReals x y) else none

open Classical in
/-- The value of a function, if it has one. -/
noncomputable def Elementary.result? (f : Elementary) (x : ℝ) : Option ℝ :=
  if f.DefinedAt x then some (f.onReal x) else none

/-! ### Results at special operands -/

theorem result?_div {x y : ℝ} (hy : y ≠ 0) : Operator.div.result? x y = some (x / y) :=
  if_pos hy

theorem result?_div_zero {x : ℝ} : Operator.div.result? x 0 = none :=
  if_neg fun h => h rfl

theorem result?_pow {x p : ℝ} (h : PowerDefined x p) : Operator.pow.result? x p = some (x ^ p) :=
  if_pos h

theorem result?_pow_none {x p : ℝ} (h : ¬PowerDefined x p) : Operator.pow.result? x p = none :=
  if_neg h

theorem result?_sqrt {x : ℝ} (hx : 0 ≤ x) : Elementary.sqrt.result? x = some √x :=
  if_pos hx

theorem result?_sqrt_none {x : ℝ} (hx : x < 0) : Elementary.sqrt.result? x = none :=
  if_neg (not_le.mpr hx)

/-- The power with exponent minus one is one over the base. -/
theorem result?_pow_minusOne (x : ℝ) :
    Operator.pow.result? x (-1) = Operator.div.result? 1 x := by
  by_cases hx : x = 0
  · have hzero : ¬PowerDefined x (-1) := fun h => absurd (h.2 hx) (by norm_num)
    rw [result?_pow_none hzero, hx, result?_div_zero]
  · rw [result?_div hx, result?_pow (.exponent_minusOne hx), one_div, Real.rpow_neg_one]

/-- No half is an integer, so its powers have no negative base. -/
theorem not_powerDefined_half {x p : ℝ} (hx : x < 0) (hp : 2 * p = 1 ∨ 2 * p = -1) :
    ¬PowerDefined x p := by
  intro h
  obtain ⟨n, rfl⟩ := h.1 hx
  rcases hp with hp | hp
  · have : 2 * n = 1 := by exact_mod_cast hp
    omega
  · have : 2 * n = -1 := by exact_mod_cast hp
    omega

/-- The power with exponent one half is the square root. -/
theorem result?_pow_half (x : ℝ) :
    Operator.pow.result? x (1 / 2) = Elementary.sqrt.result? x := by
  rcases lt_or_ge x 0 with hx | hx
  · have hhalf : ¬PowerDefined x (1 / 2) := not_powerDefined_half hx (.inl (by norm_num))
    rw [result?_pow_none hhalf, result?_sqrt_none hx]
  · have hhalf : PowerDefined x (1 / 2) := .of_nonneg hx fun _ => by norm_num
    rw [result?_pow hhalf, result?_sqrt hx, Real.sqrt_eq_rpow]

/-- The power with exponent minus one half is one over the square root. -/
theorem result?_pow_minusHalf (x : ℝ) : Operator.pow.result? x (-1 / 2) =
    (Elementary.sqrt.result? x).bind (Operator.div.result? 1) := by
  rcases lt_trichotomy x 0 with hx | rfl | hx
  · have hhalf : ¬PowerDefined x (-1 / 2) := not_powerDefined_half hx (.inr (by norm_num))
    rw [result?_pow_none hhalf, result?_sqrt_none hx]
    rfl
  · have hzero : ¬PowerDefined 0 (-1 / 2) := fun h => absurd (h.2 rfl) (by norm_num)
    rw [result?_pow_none hzero, result?_sqrt le_rfl, Real.sqrt_zero, Option.bind_some,
      result?_div_zero]
  · rw [result?_pow (.of_pos hx), result?_sqrt hx.le, Option.bind_some,
      result?_div (Real.sqrt_ne_zero'.mpr hx), Real.sqrt_eq_rpow, one_div, neg_div,
      Real.rpow_neg hx.le]

namespace Expr

variable {K : Type} [Literal K] [Valued K] {ρ : String → ℝ} {u v : Expr K}

open Classical in
/-- The value of an expression, if it is defined. -/
noncomputable def value? (ρ : String → ℝ) (e : Expr K) : Option ℝ :=
  if e.Defined ρ then some (e.value (.usual ρ)) else none

theorem value?_of_defined (h : u.Defined ρ) : u.value? ρ = some (u.value (.usual ρ)) :=
  if_pos h

theorem value?_of_not_defined (h : ¬u.Defined ρ) : u.value? ρ = none :=
  if_neg h

@[simp] theorem value?_num {x : K} (h : isFinite x = true) : (num x).value? ρ = some (real x) :=
  if_pos h

@[simp] theorem value?_sym {name : String} : (sym name : Expr K).value? ρ = some (ρ name) :=
  if_pos trivial

theorem defined_binary_iff {op : Operator} : (binary op u v).Defined ρ ↔
    u.Defined ρ ∧ v.Defined ρ ∧ op.DefinedAt (u.value (.usual ρ)) (v.value (.usual ρ)) :=
  Iff.rfl

@[simp] theorem value?_binary {op : Operator} :
    (binary op u v).value? ρ = (u.value? ρ).bind fun x => (v.value? ρ).bind (op.result? x) := by
  by_cases hu : u.Defined ρ
  · by_cases hv : v.Defined ρ
    · rw [value?_of_defined hu, value?_of_defined hv, Option.bind_some, Option.bind_some,
        Operator.result?]
      by_cases hop : op.DefinedAt (u.value (.usual ρ)) (v.value (.usual ρ))
      · rw [if_pos hop]
        exact value?_of_defined (defined_binary_iff.mpr ⟨hu, hv, hop⟩)
      · rw [if_neg hop]
        exact value?_of_not_defined fun h => hop (defined_binary_iff.mp h).2.2
    · rw [value?_of_not_defined hv, value?_of_not_defined fun h => hv (defined_binary_iff.mp h).2.1]
      cases u.value? ρ <;> rfl
  · rw [value?_of_not_defined hu, value?_of_not_defined fun h => hu (defined_binary_iff.mp h).1]
    rfl

theorem value?_negate : u.negate.value? ρ = (u.value? ρ).map (- ·) := by
  rw [negate, value?_binary, value?_num isFinite_minusOne, real_minusOne, Option.bind_some]
  cases u.value? ρ <;> simp [Operator.result?, Operator.DefinedAt, Operator.onReals]

theorem value?_call {name : String} {f : Elementary} (h : Elementary.lookup? name 1 = some f) :
    (call name [u]).value? ρ = (u.value? ρ).bind f.result? := by
  by_cases hu : u.Defined ρ
  · rw [value?_of_defined hu, Option.bind_some, Elementary.result?]
    by_cases hf : f.DefinedAt (u.value (.usual ρ))
    · rw [if_pos hf, value?_of_defined (defined_call_iff.mpr ⟨f, u, rfl, h, hu, hf⟩), value_call h]
    · rw [if_neg hf]
      refine value?_of_not_defined fun hcall => ?_
      obtain ⟨g, w, hw, hg, -, hdefined⟩ := defined_call_iff.mp hcall
      rw [h] at hg
      cases hg
      cases hw
      exact hf hdefined
  · rw [value?_of_not_defined hu]
    refine value?_of_not_defined fun hcall => ?_
    obtain ⟨g, w, hw, -, hdefined, -⟩ := defined_call_iff.mp hcall
    cases hw
    exact hu hdefined

/-- The value of a call depends on its arguments through their values. -/
theorem value?_call_congr {name : String} {args args' : List (Expr K)}
    (h : args.map (value? ρ) = args'.map (value? ρ)) :
    (call name args).value? ρ = (call name args').value? ρ := by
  have hnone : ∀ {args : List (Expr K)}, (∀ u f, args = [u] → Elementary.lookup? name 1 ≠ some f) →
      (call name args).value? ρ = none := by
    intro args hargs
    refine value?_of_not_defined fun hcall => ?_
    obtain ⟨f, u, rfl, hf, -, -⟩ := defined_call_iff.mp hcall
    exact hargs u f rfl hf
  have hlength : args.length = args'.length := by simpa using congrArg List.length h
  by_cases hone : args.length = 1
  · obtain ⟨u, rfl⟩ := List.length_eq_one_iff.mp hone
    obtain ⟨v, rfl⟩ := List.length_eq_one_iff.mp (hlength.symm.trans hone)
    obtain ⟨huv, -⟩ := List.cons.inj h
    cases hlookup : Elementary.lookup? name 1 with
    | none => rw [hnone fun _ f _ => by simp [hlookup], hnone fun _ f _ => by simp [hlookup]]
    | some f => rw [value?_call hlookup, value?_call hlookup, huv]
  · rw [hnone fun u _ hu => absurd (by rw [hu]; rfl) hone,
      hnone fun u _ hu => absurd (by rw [hlength, hu]; rfl) hone]

end Expr

namespace C

variable (K : Type) [Literal K] [Valued K] [Spelling K]

/-- The value of a number as the literals `K` read it. -/
noncomputable def readBack (t : List Char) : Option ℝ :=
  (Spelling.read? t : Option K).bind fun x => if isFinite x then some (real x) else none

/-- The elementary function that C calls by a name. -/
def functionOf? (w : List Char) : Option Elementary :=
  Elementary.all.find? fun f => f.cName.toList == w

namespace Tree

/-- The value in C, given the values of the operands. -/
noncomputable def value? (σ : String → ℝ) : Tree → Option ℝ
  | .number t => readBack K t
  | .operand path => some (σ (String.ofList path))
  | .call w (.pair x y) =>
    if w = ['p', 'o', 'w'] then (x.value? σ).bind fun a => (y.value? σ).bind (Operator.pow.result? a)
    else none
  | .call w x => (functionOf? w).bind fun f => (x.value? σ).bind f.result?
  | .pair _ _ => none
  | .negative x => (x.value? σ).map (- ·)
  | .binary op x y => (x.value? σ).bind fun a => (y.value? σ).bind (op.result? a)

variable {K} {σ : String → ℝ}

/-- A function of one argument, which is no list of arguments. -/
theorem value?_call {w : List Char} {f : Elementary} {x : Tree} (hf : functionOf? w = some f)
    (hx : ∀ y z, x ≠ .pair y z) : (call w x).value? K σ = (x.value? K σ).bind f.result? := by
  cases x with
  | pair y z => exact absurd rfl (hx y z)
  | number | operand | call | negative | binary => simp [value?, hf]

end Tree

variable {K}

/-- A text that the grammar reads, at a level above that of arguments, is no
list of arguments. -/
theorem Reads.ne_pair {level : Level} {ts : List Token} {x : Tree} (h : Reads level ts x)
    (hlevel : level ≠ .arguments) (y z : Tree) : x ≠ .pair y z := by
  induction h with
  | number | operand | call | negative | factor | term => nofun
  | parens _ ih | unary _ ih | multiplicative _ ih | additive _ ih => exact ih nofun
  | argument | comma => exact absurd rfl hlevel

/-! ### Spelling -/

/-- A text of a level has in C the value of an expression at every point, with
the symbols standing for their C texts. -/
def Spells (symbols : SymbolMap) (level : Level) (cs : List Char) (e : Expr K) : Prop :=
  ∃ ts x, Lexes cs ts ∧ Reads level ts x ∧
    ∀ σ, x.value? K σ = e.value? fun name => σ (symbols.resolve name)

namespace Spells

variable {symbols : SymbolMap} {level : Level} {a b : List Char} {u v : Expr K}

theorem congr (h : Spells symbols level a u) (huv : ∀ ρ, u.value? ρ = v.value? ρ) :
    Spells symbols level a v := by
  obtain ⟨ts, x, hlex, hreads, hvalue⟩ := h
  exact ⟨ts, x, hlex, hreads, fun σ => (hvalue σ).trans (huv _)⟩

/-- A text holds together at a weaker level too, if the grammar says so. -/
theorem weaken {level' : Level} (h : Spells symbols level a u)
    (hweaken : ∀ {ts x}, Reads level ts x → Reads level' ts x) : Spells symbols level' a u := by
  obtain ⟨ts, x, hlex, hreads, hvalue⟩ := h
  exact ⟨ts, x, hlex, hweaken hreads, hvalue⟩

theorem unary (h : Spells symbols .primary a u) : Spells symbols .unary a u :=
  h.weaken .unary

theorem multiplicative (h : Spells symbols .unary a u) : Spells symbols .multiplicative a u :=
  h.weaken .multiplicative

theorem additive (h : Spells symbols .multiplicative a u) : Spells symbols .additive a u :=
  h.weaken .additive

theorem parens (h : Spells symbols .additive a u) :
    Spells symbols .primary ('(' :: (a ++ [')'])) u := by
  obtain ⟨ts, x, hlex, hreads, hvalue⟩ := h
  exact ⟨_, x, hlex.parens, .parens hreads, hvalue⟩

/-- The call of a function. -/
theorem call {w : List Char} {f : Elementary} (hw : isWord w = true)
    (hf : functionOf? w = some f) (h : Spells symbols .additive a u)
    (hv : ∀ ρ, v.value? ρ = (u.value? ρ).bind f.result?) :
    Spells symbols .primary (w ++ '(' :: (a ++ [')'])) v := by
  obtain ⟨ts, x, hlex, hreads, hvalue⟩ := h
  refine ⟨_, _, hlex.call hw, .call w (.argument hreads), fun σ => ?_⟩
  rw [Tree.value?_call hf (hreads.ne_pair nofun), hvalue σ, hv]

/-- The call of `pow`. -/
theorem pow (hu : Spells symbols .additive a u) (hv : Spells symbols .additive b v) :
    Spells symbols .primary
      (['p', 'o', 'w'] ++ '(' :: ((a ++ ',' :: ' ' :: b) ++ [')'])) (.pow u v) := by
  obtain ⟨ts, x, hlex, hreads, hvalue⟩ := hu
  obtain ⟨ts', y, hlex', hreads', hvalue'⟩ := hv
  refine ⟨_, _, (hlex.comma hlex').call (by decide), .call _ (.comma (.argument hreads) hreads'),
    fun σ => ?_⟩
  rw [Tree.value?, if_pos rfl, hvalue σ, hvalue' σ, Expr.value?_binary]

theorem ne_minus (h : Spells symbols .primary a u) : a ≠ '-' :: b := by
  obtain ⟨ts, x, hlex, hreads, -⟩ := h
  exact hreads.ne_minus hlex

/-- A minus in front of an operand. -/
theorem minus (h : Spells symbols .primary a u)
    (hv : ∀ ρ, v.value? ρ = (u.value? ρ).map (- ·)) : Spells symbols .unary ('-' :: a) v := by
  have hminus : ∀ c ∈ a.head?, c ≠ '-' := by
    rintro c hc rfl
    obtain ⟨cs, rfl⟩ := List.head?_eq_some_iff.mp hc
    exact h.ne_minus rfl
  obtain ⟨ts, x, hlex, hreads, hvalue⟩ := h
  refine ⟨_, _, hlex.minus hminus, .negative (.unary hreads), fun σ => ?_⟩
  rw [Tree.value?, hvalue σ, hv]

/-- A product or quotient, the right operand of which is a single one. -/
theorem times {m : Char} {op : Operator} (hm : (m, op) ∈ factorMarks)
    (hu : Spells symbols .multiplicative a u) (hv : Spells symbols .unary b v) :
    Spells symbols .multiplicative (a ++ m :: b) (.binary op u v) := by
  obtain ⟨ts, x, hlex, hreads, hvalue⟩ := hu
  obtain ⟨ts', y, hlex', hreads', hvalue'⟩ := hv
  have hmark : m ∈ ['*', '/'] := List.mem_map_of_mem (f := Prod.fst) hm
  refine ⟨_, _, hlex.times hmark hlex', .factor hm hreads hreads', fun σ => ?_⟩
  rw [Tree.value?, hvalue σ, hvalue' σ, Expr.value?_binary]

/-- A sum or difference, the right operand of which is no sum. -/
theorem plus {m : Char} {op : Operator} (hm : (m, op) ∈ termMarks)
    (hu : Spells symbols .additive a u) (hv : Spells symbols .multiplicative b v) :
    Spells symbols .additive (a ++ ' ' :: m :: ' ' :: b) (.binary op u v) := by
  obtain ⟨ts, x, hlex, hreads, hvalue⟩ := hu
  obtain ⟨ts', y, hlex', hreads', hvalue'⟩ := hv
  have hmark : m ∈ ['+', '-'] := List.mem_map_of_mem (f := Prod.fst) hm
  refine ⟨_, _, hlex.plus hmark hlex', .term hm hreads hreads', fun σ => ?_⟩
  rw [Tree.value?, hvalue σ, hvalue' σ, Expr.value?_binary]

end Spells

/-! ### Sums of sums -/

/-- Adding and then adding or subtracting is the same from the left as from the right. -/
theorem result_add_assoc {m : Char} {op : Operator} (hm : (m, op) ∈ termMarks) (x y z : ℝ) :
    (Operator.add.result? x y).bind (op.result? · z) = (op.result? y z).bind (Operator.add.result? x) := by
  simp only [termMarks, List.mem_cons, Prod.mk.injEq, List.not_mem_nil, or_false] at hm
  rcases hm with ⟨-, rfl⟩ | ⟨-, rfl⟩ <;>
    simp [Operator.result?, Operator.DefinedAt, Operator.onReals, add_assoc, add_sub_assoc]

/-- A sum may stand to the right of a plus without parentheses: C groups the
terms otherwise, which leaves the value as it is. -/
theorem Reads.add {as bs : List Token} {x y : Tree} (hx : Reads .additive as x)
    (hy : Reads .additive bs y) :
    ∃ z, Reads .additive (as ++ .mark '+' :: bs) z ∧
      ∀ σ, z.value? K σ = (Tree.binary .add x y).value? K σ := by
  generalize hlevel : Level.additive = level at hy
  induction hy with
  | additive hy => exact ⟨_, .term (by decide) hx hy, fun σ => rfl⟩
  | @term bs cs y z m op hm hy hz ih =>
    obtain ⟨w, hw, hvalue⟩ := ih hlevel
    refine ⟨.binary op w z, by simpa using hw.term hm hz, fun σ => ?_⟩
    simp only [Tree.value?, hvalue σ]
    cases x.value? K σ with
    | none => rfl
    | some a =>
      cases y.value? K σ with
      | none => rfl
      | some b =>
        cases z.value? K σ with
        | none =>
          simp only [Option.bind_some, Option.bind_none]
          cases Operator.add.result? a b <;> rfl
        | some c => exact result_add_assoc hm a b c
  | number | operand | call | parens | unary | negative | multiplicative | factor | argument
  | comma => nomatch hlevel

theorem Spells.add {symbols : SymbolMap} {a b : List Char} {u v : Expr K}
    (hu : Spells symbols .additive a u) (hv : Spells symbols .additive b v) :
    Spells symbols .additive (a ++ ' ' :: '+' :: ' ' :: b) (.add u v) := by
  obtain ⟨ts, x, hlex, hreads, hvalue⟩ := hu
  obtain ⟨ts', y, hlex', hreads', hvalue'⟩ := hv
  obtain ⟨z, hz, hadd⟩ := hreads.add (K := K) hreads'
  refine ⟨_, z, hlex.plus (by decide) hlex', hz, fun σ => ?_⟩
  rw [hadd σ, Tree.value?, hvalue σ, hvalue' σ, Expr.value?_binary]

end C

end DensityKernel
