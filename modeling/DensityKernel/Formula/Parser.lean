import DensityKernel.Formula.Lexer
import DensityKernel.Text.Blank

/-!
Reading formulas. The grammar has five levels, sums, products, signs, powers
and atoms; powers group to the right and a sign binds its whole power, so that
`-x^2` is `-(x^2)` and `2^-3^2` is `2^(-(3^2))`.

The parser keeps what is still open as a stack of frames and takes one token
at a time. An operator closes the frames whose right operand it cannot extend;
a closing parenthesis, a comma and the end close all down to the innermost
parenthesis. The token that cannot be taken is the one that is reported.
-/

namespace DensityKernel

namespace Operator

/-- How tightly an operator binds: one for sums, two for products, four for
powers. Signs stand between the last two. -/
def binding : Operator → Nat
  | .add | .sub => 1
  | .mul | .div => 2
  | .pow => 4

/-- The loosest operator that may stand in the right operand: any that binds
more tightly, and for a power also another power. -/
def rightBinding : Operator → Nat
  | .pow => 4
  | op => op.binding + 1

end Operator

/-- Something begun that waits for an expression. -/
inductive Frame (K : Type) where
  /-- An operator with its left operand. -/
  | operand (left : Expr K) (op : Operator)
  | sign (negative : Bool)
  /-- A parenthesis. -/
  | group
  /-- A call with the arguments that are complete, the last one first. -/
  | call (name : String) (done : List (Expr K))

/-- What the next token continues. -/
inductive Expecting (K : Type) where
  | operand
  /-- The first argument of a call, which may be missing. -/
  | argument (name : String)
  /-- A name was read; an opening parenthesis makes it a call. -/
  | afterName (name : String)
  /-- An operand is complete. -/
  | operator (value : Expr K)

/-- The frames begun, the innermost first, and what comes next. The frame of a
call is begun with its first argument. -/
structure ParseState (K : Type) where
  expecting : Expecting K
  frames : List (Frame K)

namespace Frame

variable {K : Type}

/-- The loosest operator that may extend the expression a frame waits for. -/
def binding : Frame K → Nat
  | operand _ op => op.rightBinding
  | sign _ => 3
  | group | call .. => 0

/-- A minus before a literal belongs to the literal. -/
def negated [Literal K] : Expr K → Expr K
  | .num x => .num (-x)
  | e => e.negate

/-- The expression that a frame makes of the one it waits for. -/
def fill [Literal K] : Frame K → Expr K → Expr K
  | operand left op, e => .binary op left e
  | sign true, e => negated e
  | sign false, e | group, e | call .., e => e

/-- Fills frames as long as they do not admit an operator of the given
binding. -/
def close [Literal K] (binding : Nat) (e : Expr K) : List (Frame K) → Expr K × List (Frame K)
  | [] => (e, [])
  | f :: frames =>
    if binding < f.binding then close binding (f.fill e) frames else (e, f :: frames)

end Frame

namespace ParseState

variable {K : Type} [Literal K] [Spelling K]

/-- What a message says is missing after a complete operand: the end of the
innermost parenthesis, or of the formula. -/
def missing : List (Frame K) → String
  | [] => "end of input"
  | .group :: _ => ")"
  | .call .. :: _ => ", or )"
  | _ :: frames => missing frames

/-- Takes a token where an operand is expected. -/
def takeOperand (frames : List (Frame K)) (lexeme : Lexeme K) : Except Error (ParseState K) :=
  match lexeme.token with
  | .number x => .ok ⟨.operator (.num x), frames⟩
  | .name name => .ok ⟨.afterName name, frames⟩
  | .leftParen => .ok ⟨.operand, .group :: frames⟩
  | .operator .add => .ok ⟨.operand, .sign false :: frames⟩
  | .operator .sub => .ok ⟨.operand, .sign true :: frames⟩
  | token => .error (.invalidToken token.text (some lexeme.span))

/-- Takes a token after a complete operand. -/
def takeOperator (e : Expr K) (frames : List (Frame K)) (lexeme : Lexeme K) :
    Except Error (ParseState K) :=
  let unexpected (expected : String) : Except Error (ParseState K) :=
    .error (.unexpectedToken expected lexeme.token.text (some lexeme.span))
  match lexeme.token with
  | .operator op =>
    let (e, frames) := Frame.close op.binding e frames
    .ok ⟨.operand, .operand e op :: frames⟩
  | .rightParen =>
    match Frame.close 0 e frames with
    | (e, .group :: frames) => .ok ⟨.operator e, frames⟩
    | (e, .call name done :: frames) => .ok ⟨.operator (.call name (e :: done).reverse), frames⟩
    | (_, frames) => unexpected (missing frames)
  | .comma =>
    match Frame.close 0 e frames with
    | (e, .call name done :: frames) => .ok ⟨.operand, .call name (e :: done) :: frames⟩
    | (_, frames) => unexpected (missing frames)
  | _ => unexpected (missing frames)

/-- Takes one token. -/
def step (state : ParseState K) (lexeme : Lexeme K) : Except Error (ParseState K) :=
  match state.expecting with
  | .operand => takeOperand state.frames lexeme
  | .argument name =>
    match lexeme.token with
    | .rightParen => .ok ⟨.operator (.call name []), state.frames⟩
    | _ => takeOperand (.call name [] :: state.frames) lexeme
  | .afterName name =>
    match lexeme.token with
    | .leftParen => .ok ⟨.argument name, state.frames⟩
    | _ => takeOperator (.sym name) state.frames lexeme
  | .operator e => takeOperator e state.frames lexeme

/-- The expression when the input ends after a complete operand. -/
def finishOperand (e : Expr K) (frames : List (Frame K)) : Except Error (Expr K) :=
  match Frame.close 0 e frames with
  | (e, []) => .ok e
  | (_, frames) => .error (.unexpectedToken (missing frames) "end of input" none)

/-- The expression when the input ends. -/
def finish (state : ParseState K) : Except Error (Expr K) :=
  match state.expecting with
  | .operand | .argument _ => .error .unexpectedEnd
  | .afterName name => finishOperand (.sym name) state.frames
  | .operator e => finishOperand e state.frames

/-- Nothing read yet. -/
def start : ParseState K := ⟨.operand, []⟩

end ParseState

namespace Expr

variable {K : Type} [Literal K] [Spelling K]

/-- The expression that a list of lexemes spells. -/
def ofLexemes (lexemes : List (Lexeme K)) : Except Error (Expr K) := do
  let state ← lexemes.foldlM ParseState.step ParseState.start
  state.finish

/-- Reads a formula. One that holds nothing but blanks is empty, whatever the
blanks. -/
def parse (formula : String) : Except Error (Expr K) :=
  if Text.allBlank formula then .error .emptyFormula
  else do
    let lexemes ← Lexeme.scan formula
    ofLexemes lexemes

end Expr

end DensityKernel
