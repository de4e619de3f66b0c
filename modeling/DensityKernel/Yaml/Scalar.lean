import DensityKernel.Yaml.Placed

/-!
Scalars that stand in a line: plain ones and those in quotes. They may go on
over several lines, whose breaks are folded: a single line feed between two
words is a space, and of several line feeds the first is dropped.
-/

namespace DensityKernel.Yaml

/-- A scalar as it is written. Only a plain one, without quotes and block mark,
may stand for a value of another type than text. -/
structure Scalar where
  plain : Bool
  text : String
deriving DecidableEq, Repr

/-- Nothing written at all. -/
def Scalar.empty : Scalar := ⟨true, ""⟩

/-! ### Between words -/

/-- What stands between two words of a scalar. Both lists are reversed. -/
inductive Gap where
  | blanks (text : List Char)
  /-- Lines end here: the break of the first one, which a backslash may hide,
  and the breaks of the lines after it. -/
  | lines (first : Option Char) (more : List Char)
deriving DecidableEq, Repr

namespace Gap

/-- No gap at all. -/
def none : Gap := .blanks []

/-- The gap with one more blank or line break. Blanks next to a break do not
count. -/
def pass (c : Char) : Gap → Gap
  | .blanks text => if isBreak c then .lines (some c) [] else .blanks (c :: text)
  | .lines first more => if isBreak c then .lines first (c :: more) else .lines first more

/-- A line ends in the gap. -/
def isBroken : Gap → Bool
  | .blanks _ => false
  | .lines .. => true

/-- What the gap stands for. -/
def text : Gap → List Char
  | .blanks text => text.reverse
  | .lines Option.none more => more.reverse
  | .lines (some first) more =>
    if first != '\n' then first :: more.reverse
    else if more.isEmpty then [' ']
    else more.reverse

end Gap

/-! ### Plain scalars -/

/-- Characters that end a plain scalar in a flow collection. -/
def isFlowIndicator (c : Char) : Bool :=
  c == ',' || c == '[' || c == ']' || c == '\x7b' || c == '\x7d'

/-- A plain scalar may begin here. -/
def startsPlain (flow : Bool) : List Placed → Bool
  | [] => false
  | c :: cs =>
    if atDocumentMarker (c :: cs) then false
    else if c.char == '-' then !atBlank cs
    else if c.char == '?' || c.char == ':' then !flow && !atBlank cs
    else !(isBlank c.char || isFlowIndicator c.char || "#&*!|>'\"%@`".toList.contains c.char)

/-- In a flow collection a colon must not run into an indicator. -/
def collides (flow : Bool) (c : Placed) (cs : List Placed) : Bool :=
  flow && c.char == ':' && (cs.head?.any fun d => d.char == '?' || isFlowIndicator d.char)

/-- A plain scalar ends before this character, wherever it stands. -/
def endsPlain (flow : Bool) (c : Placed) (cs : List Placed) : Bool :=
  (c.char == ':' && atBlank cs) || (flow && isFlowIndicator c.char)

/-- A plain scalar ends after a gap if a comment begins there, or a line that is
indented by less than `indent`, or a document. -/
def endsAfterGap (flow : Bool) (indent : Nat) (c : Placed) (cs : List Placed) : Bool :=
  c.char == '#' || (!flow && c.column < indent) || atDocumentMarker (c :: cs)

/-- The rest of a plain scalar after a gap. A tab must not stand where a line
has to be indented. -/
def plainText? (flow : Bool) (indent : Nat) (gap : Gap) : Reader (List Char)
  | [] => some ⟨[], gap.isBroken, []⟩
  | c :: cs =>
    if isBlank c.char then
      if gap.isBroken && c.char == '\t' && c.column < indent then none
      else plainText? flow indent (gap.pass c.char) cs
    else if gap != .none && endsAfterGap flow indent c cs then some ⟨[], gap.isBroken, c :: cs⟩
    else if collides flow c cs then none
    else if endsPlain flow c cs then some ⟨[], gap.isBroken, c :: cs⟩
    else (plainText? flow indent .none cs).map (·.map fun text => gap.text ++ c.char :: text)

/-! ### Quoted scalars -/

/-- The rest of a scalar in single quotes after a gap. A quote in it is written
twice. -/
def singleQuoted? (gap : Gap) : Reader (List Char)
  | [] => none
  | c :: cs =>
    if isBlank c.char then singleQuoted? (gap.pass c.char) cs
    else if atDocumentMarker (c :: cs) then none
    else if c.char == '\'' then
      match cs with
      | [] => some ⟨gap.text, false, []⟩
      | d :: ds =>
        if d.char == '\'' then
          (singleQuoted? .none ds).map (·.map fun text => gap.text ++ '\'' :: text)
        else some ⟨gap.text, false, d :: ds⟩
    else (singleQuoted? .none cs).map (·.map fun text => gap.text ++ c.char :: text)

/-- The character of an escape with one letter. -/
def simpleEscape? (c : Char) : Option Char :=
  [('0', '\x00'), ('a', '\x07'), ('b', '\x08'), ('t', '\t'), ('\t', '\t'), ('n', '\n'),
   ('v', '\x0b'), ('f', '\x0c'), ('r', '\r'), ('e', '\x1b'), (' ', ' '), ('"', '"'), ('/', '/'),
   ('\\', '\\'), ('N', '\u0085'), ('_', '\u00A0'), ('L', '\u2028'), ('P', '\u2029')].lookup c

/-- The number of digits of an escape with a code point. -/
def escapeWidth? (c : Char) : Option Nat :=
  [('x', 2), ('u', 4), ('U', 8)].lookup c

def hexDigit? (c : Char) : Option Nat :=
  if c.isDigit then some (c.toNat - '0'.toNat)
  else if 'a' ≤ c ∧ c ≤ 'f' then some (c.toNat - 'a'.toNat + 10)
  else if 'A' ≤ c ∧ c ≤ 'F' then some (c.toNat - 'A'.toNat + 10)
  else none

/-- The character with a code point in hexadecimal digits. -/
def hexChar? (digits : List Char) : Option Char := do
  let values ← digits.mapM hexDigit?
  let code := values.foldl (fun n d => 16 * n + d) 0
  if code.isValidChar then some (Char.ofNat code) else none

/-- What an escape stands for, given the text from the character after the
backslash on, and how many characters belong to it. -/
def escape? : List Placed → Option (Char × Nat)
  | [] => none
  | e :: cs =>
    match simpleEscape? e.char, escapeWidth? e.char with
    | some x, _ => some (x, 1)
    | none, some width =>
      let digits := (cs.take width).map Placed.char
      if digits.length < width then none else (hexChar? digits).map fun x => (x, width + 1)
    | none, none => none

/-- The rest of a scalar in double quotes after a gap. A backslash at the end of
a line hides the line break. -/
def doubleQuoted? (gap : Gap) : Reader (List Char)
  | [] => none
  | c :: cs =>
    if isBlank c.char then doubleQuoted? (gap.pass c.char) cs
    else if atDocumentMarker (c :: cs) then none
    else if c.char == '"' then some ⟨gap.text, false, cs⟩
    else if c.char == '\\' then
      if cs.head?.any fun d => isBreak d.char then
        (doubleQuoted? (.lines none []) (cs.drop 1)).map (·.map fun text => gap.text ++ text)
      else
        match escape? cs with
        | none => none
        | some (x, width) =>
          (doubleQuoted? .none (cs.drop width)).map (·.map fun text => gap.text ++ x :: text)
    else (doubleQuoted? .none cs).map (·.map fun text => gap.text ++ c.char :: text)
termination_by cs => cs.length
decreasing_by
  all_goals simp only [List.length_drop, List.length_cons]
  all_goals omega

/-- A scalar in quotes or a plain one. Lines with which a plain one goes on are
indented by at least `indent`, except in a flow collection. -/
def lineScalar? (flow : Bool) (indent : Nat) : Reader Scalar
  | [] => none
  | c :: cs =>
    if c.char == '"' then
      (doubleQuoted? .none cs).map (·.map fun text => ⟨false, String.ofList text⟩)
    else if c.char == '\'' then
      (singleQuoted? .none cs).map (·.map fun text => ⟨false, String.ofList text⟩)
    else if startsPlain flow (c :: cs) then
      (plainText? flow indent .none (c :: cs)).map (·.map fun text => ⟨true, String.ofList text⟩)
    else none

end DensityKernel.Yaml
