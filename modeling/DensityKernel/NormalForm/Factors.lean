import DensityKernel.Expr.Printer

/-!
Products in order: one leading coefficient, factors of equal base merged into
one power, and factors sorted by the text of their base.
-/

namespace DensityKernel.NormalForm

variable {K : Type} [Literal K]

/-- The factors of a product, from left to right. -/
def factors : Expr K → List (Expr K)
  | .binary .mul u v => factors u ++ factors v
  | e => [e]

/-- The product of the literals among some factors, starting from a given one. -/
def coefficient (start : K) (fs : List (Expr K)) : K :=
  (fs.filterMap Expr.literal?).foldl (· * ·) start

/-- The factors that are no literals. -/
def nonLiterals (fs : List (Expr K)) : List (Expr K) :=
  fs.filter fun f => f.literal?.isNone

/-- Base and literal exponent of a factor; the exponent is one where none is
written. -/
def splitPower : Expr K → Expr K × K
  | .binary .pow base (.num n) => (base, n)
  | e => (e, Literal.one)

/-- A base with its total exponent and its text, by which factors are sorted. -/
structure PowerGroup (K : Type) where
  base : Expr K
  text : String
  exponent : K

/-- The factor of a group; an exponent of one is left out. -/
def PowerGroup.factor (group : PowerGroup K) : Expr K :=
  if Literal.isOne group.exponent then group.base else .pow group.base (.num group.exponent)

/-- Adds an exponent to that of an equal base, or appends a group. Bases with
different texts differ, which is the cheaper question. -/
def addPower [DecidableEq K] (new : PowerGroup K) : List (PowerGroup K) → List (PowerGroup K)
  | [] => [new]
  | group :: groups =>
    if group.text = new.text ∧ group.base = new.base then
      { group with exponent := new.exponent + group.exponent } :: groups
    else group :: addPower new groups

/-- The distinct bases among some factors, in order of their first occurrence,
with their total exponents. -/
def gatherPowers [DecidableEq K] [Spelling K] (fs : List (Expr K)) : List (PowerGroup K) :=
  fs.foldl (fun groups f =>
    let (base, n) := splitPower f
    addPower ⟨base, base.text, n⟩ groups) []

/-- The product from left to right with the coefficient in front, which is left
out if it is one. -/
def buildProduct (coeff : K) : List (Expr K) → Expr K
  | [] => .num coeff
  | f :: fs => fs.foldl .mul (if Literal.isOne coeff then f else .mul (.num coeff) f)

/-- Sorts by text, code point by code point; entries with equal texts keep their
order. -/
def sortByText {α : Type} (entries : List (String × α)) : List α :=
  (entries.mergeSort fun a b => decide (a.1 ≤ b.1)).map (·.2)

/-- The ordered form of a product. A zero coefficient makes it zero, and a base
with total exponent zero is dropped. -/
def orderedProduct [DecidableEq K] [Spelling K] (e : Expr K) : Expr K :=
  let fs := factors e
  let coeff := coefficient Literal.one fs
  if Literal.isZero coeff then Expr.zero
  else
    let groups := (gatherPowers (nonLiterals fs)).filter fun group => !Literal.isZero group.exponent
    buildProduct coeff (sortByText (groups.map fun group => (group.text, group.factor)))

/-- Puts a product in order. -/
def collectFactors [DecidableEq K] [Spelling K] : Expr K → Option (Expr K)
  | .binary .mul u v =>
    let ordered := orderedProduct (.mul u v)
    if ordered = .mul u v then none else some ordered
  | _ => none

end DensityKernel.NormalForm
