import DensityKernel.Number.Binary

/-!
Doubles as data. A `Double` is its bit pattern, so two of them are equal
exactly when all their bits are: `0` differs from `-0`, and NaN comes with
either sign although no text shows it. Arithmetic is that of `Float` on
numbers; which NaN an operation has is said here.
-/

namespace DensityKernel

/-- A double-precision number as its bit pattern. -/
structure Double where
  bits : UInt64
deriving DecidableEq, Repr

namespace Double

def ofFloat (x : Float) : Double := ⟨x.toBits⟩

def toFloat (x : Double) : Float := .ofBits x.bits

/-- What the bits stand for. -/
def value (x : Double) : Number.Value := .ofBits x.bits

def isNaN (x : Double) : Bool := x.value == .nan

/-- Finite and without fractional part. -/
def isWhole (x : Double) : Bool :=
  match x.value with
  | .finite value => value.isWhole
  | _ => false

/-- An even integer; zero of either sign is one. -/
def isEven (x : Double) : Bool :=
  match x.value with
  | .finite value => value.isEven
  | _ => false

/-! ### Signs -/

/-- The bit that holds the sign. -/
def signBit : UInt64 := 0x8000000000000000

/-- The other sign, also of zero and NaN. -/
def negate (x : Double) : Double := ⟨x.bits ^^^ signBit⟩

/-- The same number without its sign. -/
def magnitude (x : Double) : Double := ⟨x.bits &&& ~~~signBit⟩

theorem negate_negate (x : Double) : x.negate.negate = x := by
  simp only [negate, UInt64.xor_assoc, UInt64.xor_self, UInt64.xor_zero]

/-! ### Arithmetic -/

/-- The NaN of an operation that has no value at its operands. -/
def undefined : Double := ⟨0xFFF8000000000000⟩

/-- An operation of two operands. An operand that is NaN is the result, the left
one if both are. -/
def combine (f : Float → Float → Float) (x y : Double) : Double :=
  if x.isNaN then x
  else if y.isNaN then y
  else
    let result := f x.toFloat y.toFloat
    if result.isNaN then undefined else ofFloat result

instance : Add Double := ⟨combine Float.add⟩

instance : Sub Double := ⟨combine Float.sub⟩

instance : Mul Double := ⟨combine Float.mul⟩

instance : Div Double := ⟨combine Float.div⟩

instance : Neg Double := ⟨negate⟩

/-- A function of one argument. -/
def map (f : Float → Float) (x : Double) : Double := ofFloat (f x.toFloat)

/-- The larger of two doubles; a number wins against NaN. -/
def larger (x y : Double) : Double :=
  if x.isNaN then y else if y.isNaN then x else if x.toFloat < y.toFloat then y else x

end Double

end DensityKernel
