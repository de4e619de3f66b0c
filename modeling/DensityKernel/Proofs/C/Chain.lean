import DensityKernel.C.Text
import DensityKernel.Proofs.C.Term
import DensityKernel.Proofs.C.Value

/-!
How C groups the products and quotients of a rendered text. C multiplies and
divides from left to right, whatever the term was, so a text without
parentheses is a chain: a first operand and the operators and operands after
it. Where one text stands after another, their chains are joined.

`asRead` is the expression that C reads in place of a given one. It
follows the rendering of terms with chains in place of texts.
-/

namespace DensityKernel.C

open Literal

/-- The operators between the operands of a chain. -/
inductive Joint where
  | times | divided

namespace Joint

def operator : Joint → Operator
  | times => .mul
  | divided => .div

def mark : Joint → Char
  | times => '*'
  | divided => '/'

theorem mem_factorMarks (j : Joint) : (j.mark, j.operator) ∈ factorMarks := by
  cases j <;> decide

end Joint

/-- Operands as C multiplies and divides them, from left to right. -/
structure Chain (K : Type) where
  head : Expr K
  steps : List (Joint × Expr K)

namespace Chain

variable {K : Type}

/-- One operand, which may be anything in parentheses. -/
def single (e : Expr K) : Chain K :=
  ⟨e, []⟩

/-- The expression of a chain. -/
def expr (c : Chain K) : Expr K :=
  c.steps.foldl (fun e step => .binary step.1.operator e step.2) c.head

/-- One text after another with an operator between them. -/
def join (c : Chain K) (j : Joint) (d : Chain K) : Chain K :=
  ⟨c.head, c.steps ++ (j, d.head) :: d.steps⟩

/-- Puts parentheses around a text when asked to. -/
def enclosed (wrap : Bool) (c : Chain K) : Chain K :=
  if wrap then single c.expr else c

@[simp] theorem expr_enclosed (wrap : Bool) (c : Chain K) : (c.enclosed wrap).expr = c.expr := by
  cases wrap <;> rfl

/-- Texts with asterisks between them. -/
def times (c : Chain K) (cs : List (Chain K)) : Chain K :=
  cs.foldl (·.join .times ·) c

/-- What stands after the slash of a product, if it has divisors. -/
def divisor : List (Chain K) → Option (Chain K)
  | [] => none
  | [d] => some d
  | d :: ds => some (single (times d ds).expr)

/-- A text and a slash with another text, if there is one. -/
def dividedBy (c : Chain K) : Option (Chain K) → Chain K
  | none => c
  | some d => c.join .divided d

variable [Literal K]

/-- A minus in front of a text belongs to its first operand. -/
def negate (c : Chain K) : Chain K :=
  ⟨c.head.negate, c.steps⟩

/-- The coefficient of a product and its other factors. -/
def front : Option K → List (Chain K) → Chain K
  | none, [] => single .one
  | some x, [] => single (.num x)
  | none, c :: cs => times c cs
  | some x, c :: cs =>
    if isOne x then times c cs
    else if isMinusOne x then (times c cs).negate
    else times (single (.num x)) (c :: cs)

end Chain

namespace Term

variable {K : Type} [Literal K]

/-- The chain of a divisor, given the chain of its base. -/
def divisorChain (root : Bool) (base : Term K) (c : Chain K) : Chain K :=
  if root then .single (.call "sqrt" [c.expr]) else c.enclosed base.enclosedAsDivisor

mutual

/-- The chain that C reads in the text of a term. -/
def chain : Term K → Chain K
  | .literal x => .single (.num x)
  | .symbol name => .single (.sym name)
  | .call name args => .single (.call name (argExprs args))
  | .sum u v => .single (.add u.chain.expr v.chain.expr)
  | .difference u v => .single (.sub u.chain.expr v.chain.expr)
  | .quotient u v =>
    (u.chain.enclosed u.enclosedAsFactor).join .divided (v.chain.enclosed v.enclosedAsDenominator)
  | .power base exponent => .single (.pow base.chain.expr exponent.chain.expr)
  | .reciprocal root base => (Chain.single .one).join .divided (divisorChain root base base.chain)
  | .product fs =>
    let factors := match fs with
      | .literal _ :: rest => factorChains rest
      | fs => factorChains fs
    (Chain.front (splitCoefficient fs).1 factors).dividedBy (Chain.divisor (divisorChains fs))

/-- The expressions that C reads in the texts of arguments. -/
def argExprs : List (Term K) → List (Expr K)
  | [] => []
  | a :: args => a.chain.expr :: argExprs args

/-- The chains of the divisors among the factors of a product. -/
def divisorChains : List (Term K) → List (Chain K)
  | [] => []
  | .reciprocal root base :: fs => divisorChain root base base.chain :: divisorChains fs
  | _ :: fs => divisorChains fs

/-- The chains of the factors of a product that are no divisors. -/
def factorChains : List (Term K) → List (Chain K)
  | [] => []
  | f :: fs =>
    if f.isDivisor then factorChains fs
    else f.chain.enclosed f.enclosedAsFactor :: factorChains fs

end

theorem chain_product (fs : List (Term K)) : (product fs).chain =
    (Chain.front (splitCoefficient fs).1 (factorChains (splitCoefficient fs).2)).dividedBy
      (Chain.divisor (divisorChains fs)) := by
  cases fs with
  | nil => simp [chain, splitCoefficient]
  | cons f fs => cases f <;> simp [chain, splitCoefficient]

theorem argExprs_eq_map (args : List (Term K)) : argExprs args = args.map fun a => a.chain.expr := by
  induction args with
  | nil => rfl
  | cons a args ih => rw [argExprs, ih, List.map_cons]

end Term

/-- The expression that C reads in the text of an expression. -/
def asRead {K : Type} [Literal K] (e : Expr K) : Expr K :=
  (Term.ofExpr e).chain.expr

/-! ### Texts of chains -/

/-- A minus in front of the left operand of a product or quotient is one in front of the whole. -/
theorem Joint.result?_neg (j : Joint) (x y : ℝ) :
    j.operator.result? (-x) y = (j.operator.result? x y).map (- ·) := by
  cases j with
  | times => simp [operator, Operator.result?, Operator.DefinedAt, Operator.onReals]
  | divided =>
    by_cases hy : y = 0
    · simp [operator, Operator.result?, Operator.DefinedAt, hy]
    · simp [operator, Operator.result?, Operator.DefinedAt, Operator.onReals, hy, neg_div]

section Values

variable {K : Type} [Literal K] [Valued K] {ρ : String → ℝ}

theorem Chain.value?_step {head e : Expr K} {steps : List (Joint × Expr K)} {j : Joint} :
    (Chain.mk head (steps ++ [(j, e)])).expr.value? ρ =
      ((Chain.mk head steps).expr.value? ρ).bind fun x => (e.value? ρ).bind
        (j.operator.result? x) := by
  simp only [Chain.expr, List.foldl_append, List.foldl_cons, List.foldl_nil, Expr.value?_binary]

/-- The value of a chain with a minus in front. -/
theorem Chain.value?_negated {c d : Chain K} (hsteps : c.steps = d.steps)
    (hhead : c.head.value? ρ = (d.head.value? ρ).map (- ·)) :
    c.expr.value? ρ = (d.expr.value? ρ).map (- ·) := by
  obtain ⟨head, steps⟩ := c
  obtain ⟨head', steps'⟩ := d
  obtain rfl : steps = steps' := hsteps
  induction steps using List.reverseRecOn with
  | nil => exact hhead
  | append_singleton steps step ih =>
    rw [Chain.value?_step, Chain.value?_step, ih hhead]
    cases (Chain.mk head' steps).expr.value? ρ with
    | none => rfl
    | some x =>
      cases step.2.value? ρ with
      | none => rfl
      | some y => exact step.1.result?_neg x y

end Values

section Spelling

variable {K : Type} [Literal K] [Valued K] [Spelling K] {symbols : SymbolMap} {level : Level}

/-- A text is a chain of operands. The first of them holds together as `level`
says, the others at least as operands with a sign do. -/
inductive SpellsChain (symbols : SymbolMap) (level : Level) : List Char → Chain K → Prop
  | single {cs : List Char} {e : Expr K} :
    Spells symbols level cs e → SpellsChain symbols level cs (.single e)
  | step {cs ds : List Char} {c : Chain K} {e : Expr K} (j : Joint) :
    SpellsChain symbols level cs c → Spells symbols .unary ds e →
      SpellsChain symbols level (cs ++ j.mark :: ds) ⟨c.head, c.steps ++ [(j, e)]⟩

namespace SpellsChain

variable {cs ds : List Char} {c d : Chain K}

theorem unary (h : SpellsChain symbols .primary cs c) : SpellsChain symbols .unary cs c := by
  induction h with
  | single h => exact .single h.unary
  | step j _ he ih => exact .step j ih he

theorem ne_minus (h : SpellsChain symbols .primary cs c) : cs ≠ '-' :: ds := by
  induction h generalizing ds with
  | single h => exact h.ne_minus
  | @step cs es c e j _ he ih =>
    cases cs with
    | nil => cases j <;> simp [Joint.mark]
    | cons a cs =>
      intro heq
      cases heq
      exact ih rfl

/-- A chain has in C the value of its expression. -/
theorem spells (h : SpellsChain symbols .unary cs c) : Spells symbols .multiplicative cs c.expr := by
  induction h with
  | single h => exact h.multiplicative
  | step j _ he ih =>
    have := ih.times j.mem_factorMarks he
    rwa [Chain.expr, List.foldl_append]

/-- One chain after another. -/
theorem join (j : Joint) (hc : SpellsChain symbols level cs c)
    (hd : SpellsChain symbols .unary ds d) :
    SpellsChain symbols level (cs ++ j.mark :: ds) (c.join j d) := by
  induction hd with
  | single h => exact .step j hc h
  | step k _ he ih =>
    have := step k ih he
    simpa [Chain.join] using this

/-- A minus in front of a chain is a minus in front of its first operand. -/
theorem minus (hd : SpellsChain symbols .primary ds d) (hsteps : c.steps = d.steps)
    (hhead : ∀ ρ, c.head.value? ρ = (d.head.value? ρ).map (- ·)) :
    SpellsChain symbols .unary ('-' :: ds) c := by
  induction hd generalizing c with
  | single h =>
    obtain ⟨head, steps⟩ := c
    obtain rfl : steps = [] := hsteps
    exact .single (h.minus hhead)
  | @step es fs d e j _ he ih =>
    obtain ⟨head, steps⟩ := c
    obtain rfl : steps = d.steps ++ [(j, e)] := hsteps
    exact .step j (ih (c := ⟨head, d.steps⟩) rfl hhead) he

end SpellsChain

/-- A chain, or a minus in front of one. -/
inductive SpellsSigned (symbols : SymbolMap) : List Char → Chain K → Prop
  | plain {cs : List Char} {c : Chain K} :
    SpellsChain symbols .primary cs c → SpellsSigned symbols cs c
  | minus {ds : List Char} {c d : Chain K} :
    SpellsChain symbols .primary ds d → c.steps = d.steps →
      (∀ ρ, c.head.value? ρ = (d.head.value? ρ).map (- ·)) → SpellsSigned symbols ('-' :: ds) c

namespace SpellsSigned

variable {cs ds : List Char} {c d : Chain K}

theorem unary (h : SpellsSigned symbols cs c) : SpellsChain symbols .unary cs c := by
  cases h with
  | plain h => exact h.unary
  | minus h hsteps hhead => exact h.minus hsteps hhead

theorem join (j : Joint) (hc : SpellsSigned symbols cs c)
    (hd : SpellsChain symbols .unary ds d) :
    SpellsSigned symbols (cs ++ j.mark :: ds) (c.join j d) := by
  cases hc with
  | plain hc => exact .plain (hc.join j hd)
  | minus hc hsteps hhead =>
    refine .minus (hc.join j hd) ?_ hhead
    rw [Chain.join, Chain.join, hsteps]

/-- What is left without the minus is the chain of the negated value. -/
theorem stripped (h : SpellsSigned symbols ('-' :: ds) c) :
    ∃ d : Chain K, SpellsChain symbols .primary ds d ∧
      ∀ ρ, c.expr.value? ρ = (d.expr.value? ρ).map (- ·) := by
  cases h with
  | plain h => exact absurd rfl (SpellsChain.ne_minus h)
  | minus h hsteps hhead => exact ⟨_, h, fun ρ => Chain.value?_negated hsteps (hhead ρ)⟩

end SpellsSigned

end Spelling

end DensityKernel.C
