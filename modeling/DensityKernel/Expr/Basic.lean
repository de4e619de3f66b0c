import DensityKernel.Literal

/-!
Formulas as trees. An expression is a number literal, a symbol, a call, or one
of five operations on two expressions. Two expressions are equal when they are
the same tree over the same literals, so `0.0` and `-0.0` differ.
-/

namespace DensityKernel

/-- The operations of two operands. -/
inductive Operator where
  | add | sub | mul | div | pow
deriving DecidableEq, Repr

/-- Expressions over literals in `K`. -/
inductive Expr (K : Type) where
  | num (value : K)
  | sym (name : String)
  | call (name : String) (args : List (Expr K))
  | binary (op : Operator) (left right : Expr K)
deriving Inhabited

namespace Expr

variable {K : Type}

@[match_pattern] abbrev add (u v : Expr K) : Expr K := .binary .add u v

@[match_pattern] abbrev sub (u v : Expr K) : Expr K := .binary .sub u v

@[match_pattern] abbrev mul (u v : Expr K) : Expr K := .binary .mul u v

@[match_pattern] abbrev div (u v : Expr K) : Expr K := .binary .div u v

@[match_pattern] abbrev pow (u v : Expr K) : Expr K := .binary .pow u v

/-! ### Equality -/

mutual

/-- Trees are compared node by node. -/
def decEq [DecidableEq K] : (a b : Expr K) → Decidable (a = b)
  | .num x, .num y => if h : x = y then isTrue (h ▸ rfl) else isFalse fun e => h (Expr.num.inj e)
  | .sym x, .sym y => if h : x = y then isTrue (h ▸ rfl) else isFalse fun e => h (Expr.sym.inj e)
  | .call f xs, .call g ys =>
    if hf : f = g then
      match decEqArgs xs ys with
      | isTrue hargs => isTrue (hf ▸ hargs ▸ rfl)
      | isFalse hargs => isFalse fun e => hargs (Expr.call.inj e).2
    else isFalse fun e => hf (Expr.call.inj e).1
  | .binary o u v, .binary p u' v' =>
    if ho : o = p then
      match decEq u u' with
      | isFalse hu => isFalse fun e => hu (Expr.binary.inj e).2.1
      | isTrue hu =>
        match decEq v v' with
        | isFalse hv => isFalse fun e => hv (Expr.binary.inj e).2.2
        | isTrue hv => isTrue (ho ▸ hu ▸ hv ▸ rfl)
    else isFalse fun e => ho (Expr.binary.inj e).1
  | .num _, .sym _ | .num _, .call .. | .num _, .binary .. => isFalse nofun
  | .sym _, .num _ | .sym _, .call .. | .sym _, .binary .. => isFalse nofun
  | .call .., .num _ | .call .., .sym _ | .call .., .binary .. => isFalse nofun
  | .binary .., .num _ | .binary .., .sym _ | .binary .., .call .. => isFalse nofun

/-- Arguments are compared in order. -/
def decEqArgs [DecidableEq K] : (xs ys : List (Expr K)) → Decidable (xs = ys)
  | [], [] => isTrue rfl
  | x :: xs, y :: ys =>
    match decEq x y with
    | isFalse h => isFalse fun e => h (List.cons.inj e).1
    | isTrue h =>
      match decEqArgs xs ys with
      | isFalse hs => isFalse fun e => hs (List.cons.inj e).2
      | isTrue hs => isTrue (h ▸ hs ▸ rfl)
  | [], _ :: _ | _ :: _, [] => isFalse nofun

end

instance [DecidableEq K] : DecidableEq (Expr K) := decEq

/-! ### Literals and symbols -/

/-- The value of a number literal. -/
def literal? : Expr K → Option K
  | .num x => some x
  | _ => none

/-- The name of a symbol. -/
def symbol? : Expr K → Option String
  | .sym name => some name
  | _ => none

section Literal

variable [Literal K]

/-- A literal zero, of either sign. -/
def isZero : Expr K → Bool
  | .num x => Literal.isZero x
  | _ => false

/-- A literal one. -/
def isOne : Expr K → Bool
  | .num x => Literal.isOne x
  | _ => false

/-- The literal zero. -/
def zero : Expr K := .num Literal.zero

/-- The literal one. -/
def one : Expr K := .num Literal.one

/-- The product with minus one. -/
def negate (u : Expr K) : Expr K := .mul (.num Literal.minusOne) u

end Literal

/-! ### Size -/

mutual

/-- The number of nodes. -/
def size : Expr K → Nat
  | .num _ | .sym _ => 1
  | .call _ args => 1 + sizeArgs args
  | .binary _ u v => 1 + u.size + v.size

def sizeArgs : List (Expr K) → Nat
  | [] => 0
  | a :: args => a.size + sizeArgs args

end

mutual

/-- The number of nodes on the longest path from the root. -/
def depth : Expr K → Nat
  | .num _ | .sym _ => 1
  | .call _ args => 1 + depthArgs args
  | .binary _ u v => 1 + max u.depth v.depth

def depthArgs : List (Expr K) → Nat
  | [] => 0
  | a :: args => max a.depth (depthArgs args)

end

/-! ### Symbols -/

mutual

/-- The symbol `name` occurs. -/
def mentions (name : String) : Expr K → Bool
  | .num _ => false
  | .sym s => s == name
  | .call _ args => anyMentions name args
  | .binary _ u v => u.mentions name || v.mentions name

def anyMentions (name : String) : List (Expr K) → Bool
  | [] => false
  | a :: args => a.mentions name || anyMentions name args

end

mutual

/-- All occurrences of symbols, from left to right. -/
def symbols : Expr K → List String
  | .num _ => []
  | .sym s => [s]
  | .call _ args => symbolsArgs args
  | .binary _ u v => u.symbols ++ v.symbols

def symbolsArgs : List (Expr K) → List String
  | [] => []
  | a :: args => a.symbols ++ symbolsArgs args

end

mutual

/-- Replaces every occurrence of a symbol at once; the replacement itself is
not searched. -/
def substitute (e : Expr K) (name : String) (replacement : Expr K) : Expr K :=
  match e with
  | .num x => .num x
  | .sym s => if s = name then replacement else .sym s
  | .call f args => .call f (substituteArgs args name replacement)
  | .binary op u v => .binary op (u.substitute name replacement) (v.substitute name replacement)

def substituteArgs (args : List (Expr K)) (name : String) (replacement : Expr K) : List (Expr K) :=
  match args with
  | [] => []
  | a :: args => a.substitute name replacement :: substituteArgs args name replacement

end

end Expr

end DensityKernel
