import DensityKernel.Density.Variable

/-!
How symbols are spelled in C. A symbol without an entry is written as it is.
-/

namespace DensityKernel.C

/-- Symbols with their C texts; of two entries for one symbol the front one
counts. -/
structure SymbolMap where
  entries : List (String × String)
deriving DecidableEq, Repr

namespace SymbolMap

/-- The mathematical constants. -/
def constants : SymbolMap :=
  ⟨[("pi", "M_PI"), ("e", "M_E")]⟩

/-- Adds an entry, or replaces the one for the same symbol. -/
def insert (map : SymbolMap) (symbol text : String) : SymbolMap :=
  ⟨(symbol, text) :: map.entries⟩

/-- The constants, and the density variables as fields of the density point. -/
def density : SymbolMap :=
  Variable.all.foldl (fun map v => map.insert v.name v.accessor) constants

/-- The C text of a symbol. -/
def resolve (map : SymbolMap) (symbol : String) : String :=
  (map.entries.lookup symbol).getD symbol

end SymbolMap

end DensityKernel.C
