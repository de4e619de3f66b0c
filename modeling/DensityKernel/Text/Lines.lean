import DensityKernel.Text.Blank

/-!
Texts as lines. `splitLines` cuts at every line feed, so that a text has one
line more than line feeds and joining its lines gives it back.
-/

namespace DensityKernel.Text

/-- The lines of a text. -/
def splitLines : List Char → List (List Char)
  | [] => [[]]
  | c :: cs =>
    if c = '\n' then [] :: splitLines cs
    else
      match splitLines cs with
      | [] => [[c]]
      | line :: lines => (c :: line) :: lines

/-- The text of some lines. -/
def joinLines : List (List Char) → List Char
  | [] => []
  | [line] => line
  | line :: lines => line ++ '\n' :: joinLines lines

theorem splitLines_ne_nil (cs : List Char) : splitLines cs ≠ [] := by
  cases cs with
  | nil => simp [splitLines]
  | cons c cs =>
    simp only [splitLines]
    split
    · simp
    · split <;> simp

theorem joinLines_splitLines (cs : List Char) : joinLines (splitLines cs) = cs := by
  induction cs with
  | nil => rfl
  | cons c cs ih =>
    simp only [splitLines]
    obtain ⟨line, lines, h⟩ := List.exists_cons_of_ne_nil (splitLines_ne_nil cs)
    rw [h] at ih ⊢
    by_cases hc : c = '\n'
    · subst hc
      simp [joinLines, ih]
    · cases lines <;> simp_all [joinLines]

/-- Applies a function to every line of a text. -/
def mapLines (f : List Char → List Char) (s : String) : String :=
  String.ofList (joinLines ((splitLines s.toList).map f))

/-- The blanks that a line starts with, and the rest of it. -/
def splitIndent (line : List Char) : List Char × List Char :=
  (line.takeWhile isBlank, line.dropWhile isBlank)

/-- The lines of a text without their ends: a line ends at a line feed, with a
carriage return before it or not, and nothing follows a last line feed. -/
def bareLines (s : String) : List (List Char) :=
  let ended := (splitLines s.toList).dropLast
  let last := ((splitLines s.toList).getLast?).getD []
  let bare := ended.map fun line => if line.getLast? = some '\r' then line.dropLast else line
  if last.isEmpty then bare else bare ++ [last]

/-- Puts a text in front of every line; a line feed at the end is lost. -/
def indentLines (indent : String) (s : String) : String :=
  String.intercalate "\n" ((bareLines s).map fun line => indent ++ String.ofList line)

end DensityKernel.Text
