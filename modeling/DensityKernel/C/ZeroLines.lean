import DensityKernel.Text.Lines

/-!
Commenting out the lines of C code that add nothing. Such a line is known by
its end, the assignment of a parenthesised zero; the comment mark goes after
its indentation, and a line that is a comment already stays as it is.
-/

namespace DensityKernel.C

/-- Comments out a line that ends with `tail`. -/
def commentLine (tail line : List Char) : List Char :=
  let (indent, body) := Text.splitIndent line
  if tail.isSuffixOf body && !(['/', '/'].isPrefixOf body) then indent ++ ['/', '/', ' '] ++ body
  else line

/-- Comments out every line that ends with `tail`. -/
def commentLines (tail code : String) : String :=
  Text.mapLines (commentLine tail.toList) code

/-- Comments out the lines that add zero with the usual scale. -/
def commentZeroLines (code : String) : String :=
  commentLines "= (0)*factor;" code

end DensityKernel.C
