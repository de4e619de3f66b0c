import DensityKernel.Formula.Parser
import DensityKernel.C.Text
import DensityKernel.C.ZeroLines
import DensityKernel.Density.DerivativeTable

/-!
The statements that add derivatives to their slots. A block lists them by
order, one to a line, with an empty line between orders if that is asked for;
statements that add zero are commented out.
-/

namespace DensityKernel.C

/-- How statements are written. -/
structure StatementFormat where
  /-- In front of the slot. -/
  accumulator : String := "ds->"
  /-- In front of the value in parentheses. -/
  factor : String := ""
  /-- After the value. -/
  scale : String := "*factor"
  indent : String := "  "
  /-- An empty line between statements of different orders. -/
  separateOrders : Bool := true
  symbols : SymbolMap := .constants

/-- One derivative and its C text. -/
structure Statement where
  index : MultiIndex
  value : String
deriving DecidableEq, Repr

namespace Statement

/-- The value is the text of zero. -/
def isZero (s : Statement) : Bool :=
  s.value == "0"

def slot (s : Statement) : String :=
  s.index.slot

def order (s : Statement) : Nat :=
  s.index.order

/-- The statement without indentation. -/
def text (format : StatementFormat) (s : Statement) : String :=
  format.accumulator ++ s.slot ++ " += " ++ format.factor ++ "(" ++ s.value ++ ")" ++ format.scale
    ++ ";"

/-- The lines of statements that follow one of order `previous`, each with its
line feed. -/
def linesAfter (format : StatementFormat) (previous : Option Nat) : List Statement → String
  | [] => ""
  | s :: rest =>
    (if format.separateOrders && previous.any (· != s.order) then "\n" else "")
      ++ format.indent ++ s.text format ++ "\n" ++ linesAfter format (some s.order) rest

end Statement

namespace StatementFormat

/-- How a statement that adds zero ends. -/
def zeroTail (format : StatementFormat) : String :=
  "= " ++ format.factor ++ "(0)" ++ format.scale ++ ";"

/-- The text of some statements, those that add zero commented out. -/
def layout (format : StatementFormat) (statements : List Statement) : String :=
  commentLines format.zeroTail (Statement.linesAfter format none statements)

variable {K : Type} [Literal K] [Spelling K]

/-- The statements of a table up to an order; layers that are missing give
none. -/
def statements (format : StatementFormat) (table : DerivativeTable K) (order : DerivativeOrder) :
    Except Error (List Statement) :=
  (table.upTo order).mapM fun (index, e) => do
    let value ← render format.symbols e
    .ok ⟨index, value⟩

/-- The text of the statements of a table up to an order. -/
def block (format : StatementFormat) (table : DerivativeTable K) (order : DerivativeOrder) :
    Except Error String := do
  let statements ← format.statements table order
  .ok (format.layout statements)

end StatementFormat

/-- The statements of a formula in some variables up to an order, over the
fields of the density point. The formula is read first. -/
def derivativeBlock (K : Type) [Literal K] [DecidableEq K] [Spelling K] (formula : String)
    (chosen : List Variable) (order : Nat) : Except Error String := do
  let e ← Expr.parse (K := K) formula
  let order ← DerivativeOrder.ofNat order
  let vars ← VariableList.ofList chosen
  let (table, outcome) := DerivativeTable.extendTo ⟨e, vars, {}, []⟩ order
  outcome
  ({ symbols := .density } : StatementFormat).block table order

end DensityKernel.C
