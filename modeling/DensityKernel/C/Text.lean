import DensityKernel.C.SymbolMap
import DensityKernel.C.Term
import DensityKernel.Error

/-!
The C text of an expression. Powers are calls of `pow` or `sqrt`, divisors of
a product stand after a slash, and parentheses are written where the grammar
of C asks for them. Where two literal operands would meet in a division, whole
literals are written with a point, so that C does not divide integers.
-/

namespace DensityKernel.C

variable {K : Type} [Literal K] [Spelling K]

/-- The text of a literal; whole numbers have no point. -/
def numberText (x : K) : Except Error String :=
  if Literal.isFinite x then .ok (Spelling.inC x)
  else .error (.unrenderable (.nonFinite (Spelling.plain x)))

/-- The text marks a number with a point or an exponent. -/
def hasPoint (text : String) : Bool :=
  text.toList.any fun c => c == '.' || c == 'e' || c == 'E'

/-- The text of a literal that C reads as a floating number. -/
def floatText (x : K) : Except Error String := do
  let text ← numberText x
  .ok (if hasPoint text then text else text ++ ".0")

/-- The text of a literal in one of the two styles. -/
def literalText (floating : Bool) (x : K) : Except Error String :=
  if floating then floatText x else numberText x

/-- Puts parentheses around a text when asked to. -/
def enclosed (wrap : Bool) (text : String) : String :=
  if wrap then "(" ++ text ++ ")" else text

/-- The text without a leading minus, if it has one. -/
def withoutMinus? (text : String) : Option String :=
  match text.toList with
  | '-' :: rest => some (String.ofList rest)
  | _ => none

namespace Term

/-- Needs parentheses as a factor or a numerator. -/
def enclosedAsFactor : Term K → Bool
  | .sum .. | .difference .. | .quotient .. => true
  | .literal x => Literal.isNegative x
  | _ => false

/-- Needs parentheses as the denominator of a quotient. -/
def enclosedAsDenominator : Term K → Bool
  | .symbol _ | .call .. | .power .. | .reciprocal .. => false
  | .literal x => !Literal.isNonNegative x
  | _ => true

/-- Needs parentheses as a divisor in a product. -/
def enclosedAsDivisor : Term K → Bool
  | .sum .. | .difference .. | .product _ => true
  | _ => false

/-- Needs parentheses after a minus, whatever its text. -/
def enclosedAfterMinus : Term K → Bool
  | .sum .. | .difference .. => true
  | _ => false

/-- A leading minus can be merged with a plus before it. -/
def mergesMinus : Term K → Bool
  | .product _ | .literal _ => true
  | _ => false

end Term

/-- The text of a sum, given the texts of its terms. -/
def sumText (right : Term K) (leftText rightText : String) : String :=
  match right.mergesMinus, withoutMinus? rightText with
  | true, some rest => leftText ++ " - " ++ rest
  | _, _ => leftText ++ " + " ++ rightText

/-- The text of a difference, given the texts of its terms. -/
def differenceText (right : Term K) (leftText rightText : String) : String :=
  leftText ++ " - "
    ++ enclosed (right.enclosedAfterMinus || (withoutMinus? rightText).isSome) rightText

/-- The text of a divisor, given the text of its base. -/
def divisorText (root : Bool) (base : Term K) (baseText : String) : String :=
  if root then "sqrt(" ++ baseText ++ ")" else enclosed base.enclosedAsDivisor baseText

/-- The text after the slash of a product, if it has divisors. -/
def joinDivisors : List String → Option String
  | [] => none
  | [d] => some d
  | ds => some ("(" ++ String.intercalate "*" ds ++ ")")

/-- The coefficient as it stands before other factors. -/
def leadText (floating : Bool) : Option K → Except Error String
  | none => .ok ""
  | some c =>
    if Literal.isOne c then .ok ""
    else if Literal.isMinusOne c then .ok "-"
    else do
      let text ← literalText floating c
      .ok (text ++ "*")

/-- The text of a product from its coefficient, its other factors, and what
stands after its slash. -/
def productText (floating : Bool) (coefficient : Option K) (factors : List String)
    (divisor : Option String) : Except Error String :=
  match coefficient, factors, divisor with
  | some c, [], none => literalText floating c
  | none, [], none => .ok "1"
  | none, [], some d => .ok ("1.0/" ++ d)
  | some c, [], some d =>
    if Literal.isMinusOne c then .ok ("-1.0/" ++ d)
    else if Literal.isOne c then .ok ("1.0/" ++ d)
    else do
      let text ← floatText c
      .ok (text ++ "/" ++ d)
  | c, f :: fs, d => do
    let lead ← leadText floating c
    .ok (lead ++ String.intercalate "*" (f :: fs) ++ (d.map ("/" ++ ·)).getD "")

namespace Term

/-- The coefficient in front of a product and the other factors. -/
def splitCoefficient : List (Term K) → Option K × List (Term K)
  | .literal c :: rest => (some c, rest)
  | fs => (none, fs)

/-- The factors of a product are written with points: there is a divisor, and
all else is computed from literals. -/
def dividesLiterals (fs : List (Term K)) : Bool :=
  fs.any isDivisor && fs.all fun f => f.isDivisor || f.isNumeric

mutual

/-- The text of a term. With `floating` all literals are written with a point
or an exponent, up to the arguments of calls. -/
def text (symbols : SymbolMap) (floating : Bool) : Term K → Except Error String
  | .literal x => literalText floating x
  | .symbol name => .ok (symbols.resolve name)
  | .call name args =>
    match Elementary.lookup? name args.length with
    | none => .error (.unrenderable (.noFunction name))
    | some f => do
      let texts ← argTexts symbols floating args
      .ok (f.cName ++ "(" ++ String.intercalate ", " texts ++ ")")
  | .sum u v => do
    let left ← u.text symbols floating
    let right ← v.text symbols floating
    .ok (sumText v left right)
  | .difference u v => do
    let left ← u.text symbols floating
    let right ← v.text symbols floating
    .ok (differenceText v left right)
  | .quotient u v => do
    let left ← u.text symbols (floating || u.isNumeric)
    let right ← v.text symbols (floating || v.isNumeric)
    .ok (enclosed u.enclosedAsFactor left ++ "/" ++ enclosed v.enclosedAsDenominator right)
  | .power base exponent => do
    let baseText ← base.text symbols floating
    match exponent with
    | .literal n =>
      if Literal.eq n Literal.half then .ok ("sqrt(" ++ baseText ++ ")")
      else do
        let exponentText ← literalText floating n
        .ok ("pow(" ++ baseText ++ ", " ++ exponentText ++ ")")
    | exponent => do
      let exponentText ← exponent.text symbols floating
      .ok ("pow(" ++ baseText ++ ", " ++ exponentText ++ ")")
  | .reciprocal root base => do
    let baseText ← base.text symbols floating
    .ok ("1.0/" ++ divisorText root base baseText)
  | .product fs => do
    let rest := (splitCoefficient fs).2
    let divisors ← divisorTexts symbols floating fs
    let floating := floating || dividesLiterals rest
    let factors ← match fs with
      | .literal _ :: rest => factorTexts symbols floating rest
      | fs => factorTexts symbols floating fs
    productText floating (splitCoefficient fs).1 factors (joinDivisors divisors)

/-- The texts of arguments. -/
def argTexts (symbols : SymbolMap) (floating : Bool) : List (Term K) → Except Error (List String)
  | [] => .ok []
  | a :: args => do
    let t ← a.text symbols floating
    let ts ← argTexts symbols floating args
    .ok (t :: ts)

/-- The texts of the divisors among the factors of a product. -/
def divisorTexts (symbols : SymbolMap) (floating : Bool) :
    List (Term K) → Except Error (List String)
  | [] => .ok []
  | .reciprocal root base :: fs => do
    let t ← base.text symbols floating
    let ts ← divisorTexts symbols floating fs
    .ok (divisorText root base t :: ts)
  | _ :: fs => divisorTexts symbols floating fs

/-- The texts of the factors of a product that are no divisors. -/
def factorTexts (symbols : SymbolMap) (floating : Bool) :
    List (Term K) → Except Error (List String)
  | [] => .ok []
  | f :: fs =>
    if f.isDivisor then factorTexts symbols floating fs
    else do
      let t ← f.text symbols floating
      let ts ← factorTexts symbols floating fs
      .ok (enclosed f.enclosedAsFactor t :: ts)

end

end Term

/-- The C text of an expression. -/
def render (symbols : SymbolMap) (e : Expr K) : Except Error String :=
  (Term.ofExpr e).text symbols false

end DensityKernel.C
