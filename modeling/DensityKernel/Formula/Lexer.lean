import DensityKernel.Formula.Token

/-!
Splitting a formula into lexemes. Between tokens only ASCII white space is
skipped; the first text that spells no token is the error.
-/

namespace DensityKernel.Lexeme

variable {K : Type} [Spelling K]

/-- Space, tab, line feed, form feed and carriage return. -/
def isSkipped (c : Char) : Bool :=
  c == ' ' || c == '\t' || c == '\n' || c == '\x0c' || c == '\r'

/-- The number of bytes in UTF-8. -/
def byteCount : List Char → Nat
  | [] => 0
  | c :: cs => c.utf8Size + byteCount cs

/-- The error for a text that spells no token. -/
def rejected (text : List Char) (span : Span) : Error :=
  if (text.head?.map Token.startsNumber).getD false then
    .invalidNumber (String.ofList text) (some span)
  else .invalidToken (String.ofList text) (some span)

/-- The lexemes of a text that begins at byte `position` of the formula. -/
def scanFrom (position : Nat) : List Char → Except Error (List (Lexeme K))
  | [] => .ok []
  | c :: rest =>
    if isSkipped c then scanFrom (position + 1) rest
    else
      let text := Token.firstText c rest
      let stop := position + byteCount text
      match Token.ofText? text with
      | none => .error (rejected text ⟨position, stop⟩)
      | some token => do
        let lexemes ← scanFrom stop (rest.drop (text.length - 1))
        .ok (⟨token, ⟨position, stop⟩⟩ :: lexemes)
termination_by cs => cs.length
decreasing_by
  · simp
  · simp only [List.length_drop, List.length_cons]
    omega

/-- The lexemes of a formula. -/
def scan (formula : String) : Except Error (List (Lexeme K)) :=
  scanFrom 0 formula.toList

end DensityKernel.Lexeme
