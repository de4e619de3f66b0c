import DensityKernel.NormalForm.Factors

/-!
Sums in order: like terms merged, cancelled terms dropped, the constant first
and the other terms sorted by their text. Terms with a negative coefficient
are written as subtractions.
-/

namespace DensityKernel.NormalForm

variable {K : Type} [Literal K]

/-- A coefficient and what it multiplies; none for a constant. -/
structure Term (K : Type) where
  coefficient : K
  rest : Option (Expr K)

/-- The term that an expression other than a sum is, with a sign. -/
def Term.ofExpr (sign : K) : Expr K → Term K
  | .num x => ⟨sign * x, none⟩
  | .binary .mul u v =>
    let fs := factors (.mul u v)
    match nonLiterals fs with
    | [] => ⟨NormalForm.coefficient sign fs, none⟩
    | rest => ⟨NormalForm.coefficient sign fs, some (buildProduct Literal.one rest)⟩
  | e => ⟨sign, some e⟩

/-- The expression of a term. -/
def Term.toExpr (term : Term K) : Expr K :=
  match term.rest with
  | none => .num term.coefficient
  | some rest => buildProduct term.coefficient [rest]

/-- The terms of a sum, from left to right, each with its sign. -/
def terms (sign : K) : Expr K → List (Term K)
  | .binary .add u v => terms sign u ++ terms sign v
  | .binary .sub u v => terms sign u ++ terms (-sign) v
  | e => [Term.ofExpr sign e]

/-- Like terms taken together, with the text by which terms are sorted. -/
structure LikeTerms (K : Type) where
  rest : Expr K
  text : String
  sum : K
  /-- The largest magnitude among the coefficients. -/
  scale : K

/-- Adds a coefficient to that of an equal rest, or appends a group. -/
def addTerm [DecidableEq K] (rest : Expr K) (text : String) (x : K) :
    List (LikeTerms K) → List (LikeTerms K)
  | [] => [⟨rest, text, x, Literal.magnitude x⟩]
  | group :: groups =>
    if group.text = text ∧ group.rest = rest then
      { group with
        sum := group.sum + x
        scale := Literal.max group.scale (Literal.magnitude x) } :: groups
    else group :: addTerm rest text x groups

/-- The distinct rests among some terms, in order of their first occurrence. -/
def gatherTerms [DecidableEq K] [Spelling K] (ts : List (Term K)) : List (LikeTerms K) :=
  ts.foldl (fun groups t => match t.rest with
    | none => groups
    | some rest => addTerm rest rest.text t.coefficient groups) []

/-- The sum of the constants among some terms. -/
def constantPart (ts : List (Term K)) : K :=
  ts.foldl (fun sum t => if t.rest.isNone then sum + t.coefficient else sum) Literal.zero

/-- Adds a term to a sum; one with a negative coefficient is subtracted. -/
def appendTerm (sum : Expr K) (term : Term K) : Expr K :=
  if Literal.isNegative term.coefficient then
    .sub sum ({ term with coefficient := -term.coefficient } : Term K).toExpr
  else .add sum term.toExpr

/-- The sum of some terms from left to right. -/
def buildSum : List (Term K) → Expr K
  | [] => Expr.zero
  | t :: ts => ts.foldl appendTerm t.toExpr

/-- The ordered form of a sum. -/
def orderedSum [DecidableEq K] [Spelling K] (e : Expr K) : Expr K :=
  let ts := terms Literal.one e
  let constant := constantPart ts
  let groups := (gatherTerms ts).filter fun group => !Literal.cancels group.sum group.scale
  let sorted := sortByText (groups.map fun group =>
    (group.text, (⟨group.sum, some group.rest⟩ : Term K)))
  buildSum (if Literal.isZero constant then sorted else ⟨constant, none⟩ :: sorted)

/-- Puts a sum in order. -/
def collectTerms [DecidableEq K] [Spelling K] (e : Expr K) : Option (Expr K) :=
  if e.isSum then
    let ordered := orderedSum e
    if ordered = e then none else some ordered
  else none

end DensityKernel.NormalForm
