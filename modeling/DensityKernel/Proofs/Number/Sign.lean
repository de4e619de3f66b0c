import DensityKernel.Proofs.Number.RealValue

/-!
The sign of a double. The opposite number and the magnitude have the bits of the
double but for the sign.
-/

namespace DensityKernel.Double

open Number

/-! ### The opposite number -/

/-- Bits outside of a mask do not matter to it. -/
theorem xor_and {x s mask : UInt64} (h : s &&& mask = 0) : (x ^^^ s) &&& mask = x &&& mask := by
  have hzero := congrArg UInt64.toNat h
  rw [UInt64.toNat_and] at hzero
  apply UInt64.toNat_inj.mp
  rw [UInt64.toNat_and, UInt64.toNat_xor, Nat.and_xor_distrib_right, hzero, UInt64.toNat_and]
  exact Nat.xor_zero _

theorem signBit_flip (x : UInt64) : ((x ^^^ signBit) >>> 63 == 1) = !(x >>> 63 == 1) := by
  have hbit : x >>> 63 = 0 ∨ x >>> 63 = 1 := by
    have hshift : (x >>> 63).toNat = x.toNat / 2 ^ 63 := by
      rw [UInt64.toNat_shiftRight]
      exact Nat.shiftRight_eq_div_pow _ _
    have := x.toNat_lt
    rcases (by omega : x.toNat / 2 ^ 63 = 0 ∨ x.toNat / 2 ^ 63 = 1) with h | h
    · exact .inl (UInt64.toNat_inj.mp (hshift.trans h))
    · exact .inr (UInt64.toNat_inj.mp (hshift.trans h))
  rw [UInt64.shiftRight_xor]
  rcases hbit with h | h <;> rw [h] <;> decide

theorem value_negate {x : Double} {b : Binary} (h : x.value = .finite b) :
    x.negate.value = .finite { b with negative := !b.negative } := by
  have hbiased : ((x.bits ^^^ signBit) >>> 52) &&& (0x7FF : UInt64) =
      (x.bits >>> 52) &&& (0x7FF : UInt64) := by
    rw [UInt64.shiftRight_xor]
    exact xor_and (by decide)
  have hfraction : (x.bits ^^^ signBit) &&& (0xFFFFFFFFFFFFF : UInt64) =
      x.bits &&& (0xFFFFFFFFFFFFF : UInt64) := xor_and (by decide)
  show Value.ofBits (x.bits ^^^ signBit) = _
  simp only [value, Value.ofBits, hbiased, hfraction, signBit_flip] at h ⊢
  split at h
  · split at h <;> exact absurd h (by simp)
  · next hmax =>
    rw [if_neg hmax]
    split at h
    · next hleast =>
      rw [if_pos hleast]
      cases h
      rfl
    · next hleast =>
      rw [if_neg hleast]
      cases h
      rfl

/-- The other sign is that of the other number. -/
theorem real_negate {x : Double} (h : Literal.isFinite x = true) :
    Literal.isFinite x.negate = true ∧ x.negate.real = -x.real := by
  obtain ⟨b, hb⟩ := isFinite_iff.mp h
  have hnegate := value_negate hb
  refine ⟨isFinite_iff.mpr ⟨_, hnegate⟩, ?_⟩
  rw [real_of_value hnegate, real_of_value hb, Binary.real, Binary.real]
  cases b.negative <;> simp

theorem isFinite_negate (x : Double) : Literal.isFinite x.negate = Literal.isFinite x := by
  rw [Bool.eq_iff_iff]
  refine ⟨fun h => ?_, fun h => (real_negate h).1⟩
  have hneg := (real_negate h).1
  rwa [negate_negate] at hneg

theorem real_of_not_isFinite {x : Double} (h : Literal.isFinite x = false) : x.real = 0 := by
  rw [real]
  split
  · next b hb => exact absurd (isFinite_iff.mpr ⟨b, hb⟩) (by rw [h]; decide)
  · rfl

theorem real_negate_eq (x : Double) : x.negate.real = -x.real := by
  cases h : Literal.isFinite x with
  | true => exact (real_negate h).2
  | false =>
    rw [real_of_not_isFinite h, real_of_not_isFinite ((isFinite_negate x).trans h), neg_zero]

/-! ### Magnitudes -/

/-- A magnitude is the number of the other bits. -/
theorem value_magnitude (x : Double) :
    x.magnitude.value =
      match x.value with
      | .nan => .nan
      | .infinite _ => .infinite false
      | .finite b => .finite { b with negative := false } := by
  have hbiased : ((x.bits &&& ~~~signBit) >>> 52) &&& (0x7FF : UInt64) =
      (x.bits >>> 52) &&& (0x7FF : UInt64) := by
    rw [UInt64.shiftRight_and, UInt64.and_assoc]
    exact congrArg (x.bits >>> 52 &&& ·) (by decide)
  have hfraction : (x.bits &&& ~~~signBit) &&& (0xFFFFFFFFFFFFF : UInt64) =
      x.bits &&& (0xFFFFFFFFFFFFF : UInt64) := by
    rw [UInt64.and_assoc]
    exact congrArg (x.bits &&& ·) (by decide)
  have hsign : (x.bits &&& ~~~signBit) >>> 63 = 0 := by
    rw [UInt64.shiftRight_and, show (~~~signBit) >>> 63 = 0 by decide, UInt64.and_zero]
  show Value.ofBits (x.bits &&& ~~~signBit) = _
  simp only [value, Value.ofBits, hbiased, hfraction, hsign]
  split
  · split <;> rfl
  · split <;> rfl

theorem value_magnitude_finite {x : Double} {b : Binary} (h : x.value = .finite b) :
    x.magnitude.value = .finite { b with negative := false } := by
  rw [value_magnitude, h]

theorem real_magnitude {x : Double} (h : Literal.isFinite x = true) :
    Literal.isFinite x.magnitude = true ∧ x.magnitude.real = |x.real| := by
  obtain ⟨b, hb⟩ := isFinite_iff.mp h
  have hmagnitude := value_magnitude_finite hb
  refine ⟨isFinite_iff.mpr ⟨_, hmagnitude⟩, ?_⟩
  rw [real_of_value hmagnitude, real_of_value hb, Binary.real, Binary.real]
  cases b.negative <;> simp

end DensityKernel.Double
