import DensityKernel.Yaml.Scalar

/-!
Block scalars: the lines after a bar or an angle bracket, as far as they are
indented. After a bar every line break is kept; after an angle bracket a line
feed between two lines that are not indented further is folded.
-/

namespace DensityKernel.Yaml

/-- What happens to the line breaks at the end: the first of them is kept, or
none, or all. -/
inductive Chomping where
  | clip | strip | keep
deriving DecidableEq, Repr

/-! ### The line of the mark -/

/-- The sign that chooses the chomping. -/
def takeChomping : List Placed → Option Chomping × List Placed
  | [] => (none, [])
  | c :: cs =>
    if c.char == '-' then (some .strip, cs)
    else if c.char == '+' then (some .keep, cs)
    else (none, c :: cs)

/-- The digit that tells how far the lines are indented. Zero is no such digit. -/
def takeIndentation? : List Placed → Option (Option Nat × List Placed)
  | [] => some (none, [])
  | c :: cs =>
    if c.char == '0' then none
    else if c.char.isDigit then some (some (c.char.toNat - '0'.toNat), cs)
    else some (none, c :: cs)

/-- Blanks and a comment to the end of the line, which is passed. -/
def finishLine? (cs : List Placed) : Option (List Placed) :=
  match cs.dropWhile fun c => isSpace c.char with
  | [] => some []
  | c :: rest =>
    if isBreak c.char then some rest
    else if c.char == '#' then some ((rest.dropWhile fun c => !isBreak c.char).drop 1)
    else none

/-- Sign and digit after the mark, in either order, and the lines below. -/
def blockHeader? (cs : List Placed) : Option (Chomping × Option Nat × List Placed) := do
  let (before, cs) := takeChomping cs
  let (indentation, cs) ← takeIndentation? cs
  let (after, cs) := if before.isNone then takeChomping cs else (none, cs)
  let lines ← finishLine? cs
  some ((before.or after).getD .clip, indentation, lines)

/-! ### The lines below -/

/-- How far the lines are indented if no digit says it: as far as the deepest of
the empty lines at the start and the first line with text, and at least by
`least`. The end of the text ends a line. A tab must not come before text. -/
def blockIndentation? (least : Nat) : List Placed → Option Nat
  | [] => some least
  | c :: cs =>
    if c.char == ' ' then
      blockIndentation? (if cs.isEmpty then max least (c.column + 1) else least) cs
    else if c.char == '\t' then none
    else if isBreak c.char then blockIndentation? (max least c.column) cs
    else some (max least c.column)

/-- What stands between two lines of text: the break that ends the first, if
there is one, and the breaks of the empty lines after it, last one first. -/
structure LineGap where
  ended : Option Char
  empty : List Char
deriving DecidableEq, Repr

/-- What the gap stands for when both lines are there. `spaced` says that one of
them begins with a blank. -/
def LineGap.text (gap : LineGap) (literal spaced : Bool) : List Char :=
  if !literal && !spaced && gap.ended == some '\n' then
    if gap.empty.isEmpty then [' '] else gap.empty.reverse
  else gap.ended.toList ++ gap.empty.reverse

/-- What the gap stands for at the end of the scalar. -/
def LineGap.chomped (gap : LineGap) : Chomping → List Char
  | .strip => []
  | .clip => gap.ended.toList
  | .keep => gap.ended.toList ++ gap.empty.reverse

/-- The rest of a block scalar: of a line of it, or after a gap. `spaced` says
that the last line began with a blank. Indentation consists of spaces. -/
def blockText? (literal : Bool) (chomping : Chomping) (indent : Nat) :
    (spaced : Bool) → (gap : Option LineGap) → Reader (List Char)
  | _, gap, [] => some ⟨(gap.map (·.chomped chomping)).getD [], true, []⟩
  | spaced, none, c :: cs =>
    if isBreak c.char then blockText? literal chomping indent spaced (some ⟨some c.char, []⟩) cs
    else (blockText? literal chomping indent spaced none cs).map (·.map (c.char :: ·))
  | spaced, some gap, c :: cs =>
    if isBreak c.char then
      blockText? literal chomping indent spaced (some ⟨gap.ended, c.char :: gap.empty⟩) cs
    else if indent ≤ c.column then
      (blockText? literal chomping indent (isSpace c.char) none cs).map
        (·.map fun text => gap.text literal (spaced || isSpace c.char) ++ c.char :: text)
    else if c.char == ' ' then blockText? literal chomping indent spaced (some gap) cs
    else if c.char == '\t' then none
    else some ⟨gap.chomped chomping, true, c :: cs⟩

/-- A block scalar after its mark, as a value in a mapping indented by `parent`. -/
def blockScalar? (literal : Bool) (parent : Nat) : Reader Scalar := fun cs => do
  let (chomping, digit, lines) ← blockHeader? cs
  let indent ← match digit with
    | some n => some (parent + n)
    | none => blockIndentation? (parent + 1) lines
  let found ← blockText? literal chomping indent false (some ⟨none, []⟩) lines
  some (found.map fun text => ⟨false, String.ofList text⟩)

end DensityKernel.Yaml
