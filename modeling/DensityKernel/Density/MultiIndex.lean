import DensityKernel.Density.VariableList

/-!
Derivative orders and multi-indices. A multi-index counts how often each
variable was differentiated against, so it does not depend on the order in
which that happened. No index goes beyond the fourth order.
-/

namespace DensityKernel

/-- The highest derivative order that code is generated for. -/
def maxOrder : Nat := 4

/-- A derivative order from one to four. -/
structure DerivativeOrder where
  toNat : Nat
  one_le : 1 ≤ toNat
  le_max : toNat ≤ maxOrder

namespace DerivativeOrder

def ofNat (order : Nat) : Except Error DerivativeOrder :=
  if h : 1 ≤ order ∧ order ≤ maxOrder then .ok ⟨order, h.1, h.2⟩ else .error (.invalidOrder order)

def first : DerivativeOrder := ⟨1, by decide, by decide⟩

def second : DerivativeOrder := ⟨2, by decide, by decide⟩

def third : DerivativeOrder := ⟨3, by decide, by decide⟩

def fourth : DerivativeOrder := ⟨4, by decide, by decide⟩

/-- All orders from the first on. -/
def upTo (order : DerivativeOrder) : List DerivativeOrder :=
  [first, second, third, fourth].filter (·.toNat ≤ order.toNat)

end DerivativeOrder

/-- How often each variable was differentiated against. -/
structure MultiIndex where
  ra : Nat
  rb : Nat
  ga : Nat
  gb : Nat
  gab : Nat
deriving DecidableEq, Repr

namespace MultiIndex

/-- The index of the function itself. -/
def zero : MultiIndex := ⟨0, 0, 0, 0, 0⟩

def count (index : MultiIndex) : Variable → Nat
  | .ra => index.ra
  | .rb => index.rb
  | .ga => index.ga
  | .gb => index.gb
  | .gab => index.gab

/-- The counts in canonical order. -/
def counts (index : MultiIndex) : List Nat :=
  Variable.all.map index.count

/-- The order of the derivative. -/
def order (index : MultiIndex) : Nat :=
  index.ra + index.rb + index.ga + index.gb + index.gab

/-- One more differentiation, whatever the order. -/
def bump (index : MultiIndex) : Variable → MultiIndex
  | .ra => { index with ra := index.ra + 1 }
  | .rb => { index with rb := index.rb + 1 }
  | .ga => { index with ga := index.ga + 1 }
  | .gb => { index with gb := index.gb + 1 }
  | .gab => { index with gab := index.gab + 1 }

/-- One more differentiation, up to the highest order. -/
def increment (index : MultiIndex) (v : Variable) : Except Error MultiIndex :=
  if index.order < maxOrder then .ok (index.bump v) else .error (.invalidOrder (index.order + 1))

/-- The index of differentiations one after the other. -/
def ofPath (path : List Variable) : Except Error MultiIndex :=
  path.foldlM increment zero

/-- The last place in `vars` of a variable differentiated against; none for the
zero index and for one that uses a variable outside the list. -/
def lastPosition? (index : MultiIndex) (vars : VariableList) : Option Nat := do
  let used := Variable.all.filter (0 < index.count ·)
  let positions ← used.mapM vars.idxOf?
  positions.max?

/-- The name of the derivative in the generated code: the counts as digits, the
one of the scalar product only when it is not zero. -/
def slot (index : MultiIndex) : String :=
  "df" ++ toString index.ra ++ toString index.rb ++ toString index.ga ++ toString index.gb
    ++ if 0 < index.gab then toString index.gab else ""

/-- Lexicographic in canonical order. -/
def compareCounts (a b : MultiIndex) : Ordering :=
  (compare a.ra b.ra).then <| (compare a.rb b.rb).then <| (compare a.ga b.ga).then <|
    (compare a.gb b.gb).then (compare a.gab b.gab)

end MultiIndex

end DensityKernel
