import DensityKernel.Error
import DensityKernel.Expr.Basic

/-!
The tokens of a formula. A token text is cut off as long as possible
(`Token.firstText`) and then read on its own (`Token.ofText?`).
-/

namespace DensityKernel

namespace Operator

/-- The sign in a formula. -/
def symbol : Operator → String
  | .add => "+"
  | .sub => "-"
  | .mul => "*"
  | .div => "/"
  | .pow => "^"

end Operator

inductive Token (K : Type) where
  | number (value : K)
  | name (text : String)
  | operator (op : Operator)
  | leftParen
  | rightParen
  | comma
deriving DecidableEq

/-- A token with the bytes that it covers. -/
structure Lexeme (K : Type) where
  token : Token K
  span : Span
deriving DecidableEq

namespace Token

variable {K : Type} [Spelling K]

/-- The spelling in a message. -/
def text : Token K → String
  | number value => Spelling.plain value
  | name text => text
  | operator op => op.symbol
  | leftParen => "("
  | rightParen => ")"
  | comma => ","

/-- A digit or a point. -/
def startsNumber (c : Char) : Bool :=
  c.isDigit || c == '.'

def startsName (c : Char) : Bool :=
  c.isAlpha || c == '_'

def continuesName (c : Char) : Bool :=
  c.isAlphanum || c == '_'

/-- The exponent at the front of a text: its letter, an optional sign and all
digits that follow. Without a digit there is no exponent. -/
def exponentText : List Char → List Char
  | [] => []
  | e :: rest =>
    if e == 'e' || e == 'E' then
      match rest with
      | [] => []
      | s :: after =>
        if s == '+' || s == '-' then
          let digits := after.takeWhile Char.isDigit
          if digits.isEmpty then [] else e :: s :: digits
        else
          let digits := rest.takeWhile Char.isDigit
          if digits.isEmpty then [] else e :: digits
    else []

/-- Digits and points, then an exponent. -/
def numberText (cs : List Char) : List Char :=
  cs.takeWhile startsNumber ++ exponentText (cs.dropWhile startsNumber)

/-- The longest text of a token that begins with `c`. -/
def firstText (c : Char) (rest : List Char) : List Char :=
  if startsNumber c then numberText (c :: rest)
  else if startsName c then c :: rest.takeWhile continuesName
  else if c == '*' && rest.head? == some '*' then ['*', '*']
  else [c]

/-- The token that a whole text spells. Two asterisks are another spelling of
the caret. -/
def ofText? : List Char → Option (Token K)
  | [] => none
  | ['('] => some .leftParen
  | [')'] => some .rightParen
  | [','] => some .comma
  | ['+'] => some (.operator .add)
  | ['-'] => some (.operator .sub)
  | ['*'] => some (.operator .mul)
  | ['/'] => some (.operator .div)
  | ['^'] | ['*', '*'] => some (.operator .pow)
  | c :: rest =>
    if startsNumber c then (Spelling.read? (c :: rest)).map .number
    else if startsName c then some (.name (String.ofList (c :: rest)))
    else none

end Token

end DensityKernel
