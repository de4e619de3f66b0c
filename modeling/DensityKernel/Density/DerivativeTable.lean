import DensityKernel.Density.MultiIndex
import DensityKernel.Differentiator

/-!
All partial derivatives of one expression up to some order. A layer holds the
derivatives of one order; each is obtained from one derivative of the order
below, by a variable that does not stand before those already used, so every
multi-index is reached exactly once. An extension that fails keeps the layers
that were complete.
-/

namespace DensityKernel

/-- The derivatives of one order, in the order in which they are listed. -/
abbrev Layer (K : Type) := List (MultiIndex × Expr K)

structure DerivativeTable (K : Type) where
  base : Expr K
  vars : VariableList
  differentiator : Differentiator := {}
  /-- The layer of order `j + 1` at place `j`. -/
  layers : List (Layer K) := []

namespace DerivativeTable

variable {K : Type}

/-- All derivatives, lower orders first. -/
def entries (t : DerivativeTable K) : Layer K :=
  t.layers.flatten

/-- The highest complete order. -/
def order (t : DerivativeTable K) : Nat :=
  t.layers.length

/-- The number of derivatives; the expression itself does not count. -/
def size (t : DerivativeTable K) : Nat :=
  t.entries.length

def isEmpty (t : DerivativeTable K) : Bool :=
  t.entries.isEmpty

/-- The derivative has been computed. -/
def contains (t : DerivativeTable K) (index : MultiIndex) : Bool :=
  t.entries.any (·.1 == index)

/-- The derivative of an index; that of the zero index is the expression. -/
def get? (t : DerivativeTable K) (index : MultiIndex) : Option (Expr K) :=
  if index.order = 0 then some t.base else t.entries.lookup index

/-- The derivative along a path. -/
def getPath? (t : DerivativeTable K) (path : List Variable) : Option (Expr K) :=
  match MultiIndex.ofPath path with
  | .ok index => t.get? index
  | .error _ => none

/-- The derivatives of one order, none if it is not complete. -/
def layer (t : DerivativeTable K) (order : DerivativeOrder) : Layer K :=
  (t.layers[order.toNat - 1]?).getD []

/-- The derivatives up to an order, lower orders first. -/
def upTo (t : DerivativeTable K) (order : DerivativeOrder) : Layer K :=
  (t.layers.take order.toNat).flatten

variable [Literal K] [DecidableEq K] [Spelling K]

/-- One derivative of the next layer. That of a literal zero needs no work. -/
def child (t : DerivativeTable K) (parent : MultiIndex × Expr K) (v : Variable) :
    Except Error (MultiIndex × Expr K) := do
  let index ← parent.1.increment v
  let e ← if parent.2.isZero then .ok Expr.zero else t.differentiator.differentiate parent.2 v.name
  .ok (index, e)

/-- The variables that extend an index: from the last one used. -/
def extensions (t : DerivativeTable K) (index : MultiIndex) : List Variable :=
  t.vars.toList.drop ((index.lastPosition? t.vars).getD 0)

/-- What the next layer is computed from. -/
def parents (t : DerivativeTable K) : Layer K :=
  t.layers.getLast?.getD [(MultiIndex.zero, t.base)]

/-- The next layer. The first derivative that fails is the error. -/
def nextLayer (t : DerivativeTable K) : Except Error (Layer K) :=
  (t.parents.flatMap fun parent => (t.extensions parent.1).map fun v => (parent, v)).mapM
    fun (parent, v) => t.child parent v

/-- Adds layers as long as none fails. -/
def extend : Nat → DerivativeTable K → DerivativeTable K × Except Error Unit
  | 0, t => (t, .ok ())
  | count + 1, t =>
    match t.nextLayer with
    | .error e => (t, .error e)
    | .ok layer => extend count { t with layers := t.layers ++ [layer] }

/-- Adds the layers that are missing up to an order. -/
def extendTo (t : DerivativeTable K) (order : DerivativeOrder) :
    DerivativeTable K × Except Error Unit :=
  extend (order.toNat - t.order) t

end DerivativeTable

end DensityKernel
