/-!
Positions in a formula. A span is a half-open range of byte offsets; messages
count positions from one and name a range by its first and last position.
-/

namespace DensityKernel

/-- The bytes from `start` up to but not including `stop`. -/
structure Span where
  start : Nat
  stop : Nat
deriving DecidableEq, Repr, Inhabited

namespace Span

/-- The span of a single byte. -/
def single (position : Nat) : Span :=
  ⟨position, position + 1⟩

/-- The span covers at least one byte. -/
def isValid (s : Span) : Bool :=
  s.start < s.stop

/-- The text that follows a message: empty when nothing is covered. -/
def text (s : Span) : String :=
  if !s.isValid then ""
  else if s.stop - s.start = 1 then s!" at position {s.start + 1}"
  else s!" at positions {s.start + 1}-{s.stop}"

end Span

end DensityKernel
