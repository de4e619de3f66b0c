/-!
The characters of a document with their places. Lines and columns decide what
a line of a document means: how far it is indented, and whether a name and its
colon share a line.
-/

namespace DensityKernel.Yaml

/-- Line feed, line separator and paragraph separator. -/
def isBreak (c : Char) : Bool :=
  c == '\n' || c == '\u2028' || c == '\u2029'

def isSpace (c : Char) : Bool :=
  c == ' ' || c == '\t'

def isBlank (c : Char) : Bool :=
  isSpace c || isBreak c

/-- A character with its place; lines and columns count from zero. -/
structure Placed where
  char : Char
  line : Nat
  column : Nat
deriving DecidableEq, Repr

/-- The places of the characters of a text that begins at the given one. -/
def place (line column : Nat) : List Char → List Placed
  | [] => []
  | c :: cs =>
    ⟨c, line, column⟩ ::
      if isBreak c then place (line + 1) 0 cs else place line (column + 1) cs

/-- Places do not change the text. -/
theorem map_char_place (line column : Nat) (cs : List Char) :
    (place line column cs).map Placed.char = cs := by
  induction cs generalizing line column with
  | nil => rfl
  | cons c cs ih =>
    simp only [place, List.map_cons, List.cons.injEq, true_and]
    split
    · exact ih (line + 1) 0
    · exact ih line (column + 1)

/-- A blank, a line break or the end of the text comes next. -/
def atBlank : List Placed → Bool
  | [] => true
  | c :: _ => isBlank c.char

/-- A line begins here with three equal marks that stand on their own. -/
def atMarker (mark : Char) : List Placed → Bool
  | a :: b :: c :: rest =>
    a.column == 0 && a.char == mark && b.char == mark && c.char == mark && atBlank rest
  | _ => false

/-- The start or the end of a document is marked here. -/
def atDocumentMarker (cs : List Placed) : Bool :=
  atMarker '-' cs || atMarker '.' cs

/-- Passes blanks, line breaks and comments. Outside of flow collections no tab
may stand before the first word of a line; `fresh` says that no word of the
line has come yet, and the result says so of the place that is reached. -/
def skipBlanks (flow : Bool) : (fresh comment : Bool) → List Placed → Bool × List Placed
  | fresh, _, [] => (fresh, [])
  | fresh, comment, c :: cs =>
    if isBreak c.char then skipBlanks flow true false cs
    else if comment || c.char == ' ' || (c.char == '\t' && (flow || !fresh)) then
      skipBlanks flow fresh comment cs
    else if c.char == '#' then skipBlanks flow fresh true cs
    else (fresh, c :: cs)

/-- Something read off the front of a text, and what follows it. -/
structure Found (α : Type) where
  value : α
  /-- No word has come yet on the line on which the rest begins. -/
  fresh : Bool
  rest : List Placed

/-- A function that reads a value off the front of a text, or fails. -/
abbrev Reader (α : Type) := List Placed → Option (Found α)

/-- Applies a function to the value that was found. -/
def Found.map {α β : Type} (f : α → β) (found : Found α) : Found β :=
  ⟨f found.value, found.fresh, found.rest⟩

end DensityKernel.Yaml
