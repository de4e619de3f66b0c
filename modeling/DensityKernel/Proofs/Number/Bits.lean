import DensityKernel.Number.Double
import Mathlib

/-!
The bits of a double, read in two ways. `Value.ofBits` takes sign, significand
and exponent from them; the operations on `Float` unpack them into the same
numbers. Reading the bits of a double as a `Float` and unpacking it again
changes nothing.
-/

namespace DensityKernel.Number

open Float.Model

/-! ### Packing -/

/-- The significands and exponents of the finite doubles other than zero. Only
at the least exponent a significand may lack its leading bit. -/
structure IsCanonical (m : ℕ) (e : ℤ) : Prop where
  pos : 0 < m
  lt : m < 2 ^ 53
  ge : -1074 ≤ e
  le : e ≤ 971
  normal : -1074 < e → 2 ^ 52 ≤ m

theorem unpackSign_packComponents {spec : Format} {sign exponent mantissa} :
    UnpackedFloat.unpackSign (UnpackedFloat.packComponents spec sign exponent mantissa) =
      sign.toBitVec := by
  ext i hi
  obtain rfl : i = 0 := by omega
  simp [UnpackedFloat.unpackSign, UnpackedFloat.packComponents, BitVec.getLsbD_eq_getElem,
    BitVec.getLsbD_append, BitVec.getElem_append]

theorem ofBitVec_toBitVec (s : UnpackedFloat.Sign) :
    UnpackedFloat.Sign.ofBitVec s.toBitVec = s := by
  cases s <;> rfl

/-- The leading bit of a normal significand. -/
theorem toNat_append_implicit (fraction : BitVec 52) :
    (1#1 ++ fraction).toNat = 2 ^ 52 + fraction.toNat := by
  rw [BitVec.toNat_append]
  show 1 <<< 52 ||| fraction.toNat = _
  rw [← Nat.shiftLeft_add_eq_or_of_lt fraction.isLt]
  rfl

theorem unpack_normal {s : UnpackedFloat.Sign} {exponent : BitVec 11} {fraction : BitVec 52}
    (hzero : exponent.toNat ≠ 0) (hmax : exponent.toNat ≠ 2047) :
    UnpackedFloat.unpack Format.binary64
        (UnpackedFloat.packComponents Format.binary64 s exponent fraction) =
      .finite s (1#1 ++ fraction).toNat ((exponent.toNat : ℤ) - 1075)
        (by rw [toNat_append_implicit]; omega) := by
  have hne : exponent ≠ 0#11 := fun h => hzero (by rw [h]; rfl)
  have hne' : exponent ≠ -1#11 := fun h => hmax (by rw [h]; rfl)
  simp only [UnpackedFloat.unpack, UnpackedFloat.unpackExponent_packComponents,
    UnpackedFloat.unpackMantissa_packComponents, unpackSign_packComponents, ofBitVec_toBitVec]
  rw [if_neg hne', if_neg hne]
  rfl

theorem unpack_subnormal {s : UnpackedFloat.Sign} {fraction : BitVec 52}
    (h : fraction.toNat ≠ 0) :
    UnpackedFloat.unpack Format.binary64
        (UnpackedFloat.packComponents Format.binary64 s 0#11 fraction) =
      .finite s fraction.toNat (-1074) (Nat.pos_of_ne_zero h) := by
  have hne : fraction ≠ 0#52 := fun hzero => h (by rw [hzero]; rfl)
  simp only [UnpackedFloat.unpack, UnpackedFloat.unpackExponent_packComponents,
    UnpackedFloat.unpackMantissa_packComponents, unpackSign_packComponents, ofBitVec_toBitVec]
  rw [if_neg (by decide), if_pos trivial, dif_neg hne]
  rfl

/-- Packing a canonical number and unpacking it again changes nothing. -/
theorem unpack_pack_finite {m : ℕ} {e : ℤ} (h : IsCanonical m e) (s : UnpackedFloat.Sign) :
    UnpackedFloat.unpack Format.binary64
        (UnpackedFloat.pack Format.binary64 (.finite s m e h.pos)) =
      .finite s m e h.pos := by
  obtain ⟨hpos, hlt, hge, hle, hnormal⟩ := h
  obtain ⟨biased, hbiased⟩ : ∃ biased : ℕ, (biased : ℤ) = e + 1075 := ⟨(e + 1075).toNat, by omega⟩
  have hexponent : (e + (Format.binary64.exponentBias : ℤ) + (52 : ℕ)).toNat = biased := by
    change (e + 1023 + 52).toNat = biased
    omega
  have hbits : Format.binary64.mantissaBits = 53 := rfl
  have hfits : ¬2 ^ 11 ≤ biased + 1 := by omega
  simp only [UnpackedFloat.pack, hexponent, hbits]
  rw [if_neg hfits]
  by_cases hlog : m.log2 + 1 = 53
  · have hleading : 2 ^ 52 ≤ m := (by omega : m.log2 = 52) ▸ Nat.log2_self_le hpos.ne'
    have htoNat : (BitVec.ofNat 11 biased).toNat = biased := by
      rw [BitVec.toNat_ofNat]
      exact Nat.mod_eq_of_lt (by omega)
    rw [if_pos hlog, unpack_normal (by rw [htoNat]; omega) (by rw [htoNat]; omega)]
    congr 1
    · rw [toNat_append_implicit, BitVec.toNat_ofNat]
      omega
    · rw [htoNat]
      omega
  · have hsmall : m < 2 ^ 52 := by
      by_contra hcontra
      exact hlog (by rw [(Nat.log2_eq_iff hpos.ne').mpr ⟨not_lt.mp hcontra, hlt⟩])
    have hleast : e = -1074 := by
      by_contra hne
      have := hnormal (by omega)
      omega
    have htoNat : (BitVec.ofNat 52 m).toNat = m := by
      rw [BitVec.toNat_ofNat]
      exact Nat.mod_eq_of_lt hsmall
    rw [if_neg hlog, unpack_subnormal (by rw [htoNat]; omega)]
    congr 1
    exact hleast.symm

/-! ### The two readings -/

/-- The same number, unpacked and decoded. -/
inductive Agree : UnpackedFloat → Value → Prop
  | nan : Agree .notANumber .nan
  | infinite {s negative} : Agree (.infinity s) (.infinite negative)
  | zero {s negative exponent narrow} : Agree (.zero s) (.finite ⟨negative, 0, exponent, narrow⟩)
  | finite {negative m e narrow} (h : IsCanonical m e) :
    Agree (.finite (if negative then .negative else .positive) m e h.pos)
      (.finite ⟨negative, m, e, narrow⟩)

/-- Packing a double and unpacking it again changes nothing. -/
theorem unpack_pack_of_agree {u : UnpackedFloat} {v : Value} (h : Agree u v) :
    UnpackedFloat.unpack Format.binary64 (UnpackedFloat.pack Format.binary64 u) = u := by
  cases h with
  | nan => rfl
  | @infinite s => cases s <;> rfl
  | @zero s => cases s <;> rfl
  | finite h => exact unpack_pack_finite h _

theorem isFinite_of_agree {u : UnpackedFloat} {v : Value} (h : Agree u v) :
    u.isFinite = true ↔ ∃ b, v = .finite b := by
  cases h <;> simp [UnpackedFloat.isFinite]

theorem toNat_biased (bits : UInt64) :
    ((bits >>> 52) &&& 0x7FF).toNat =
      (@UnpackedFloat.unpackExponent Format.binary64 bits.toBitVec).toNat := by
  rw [UInt64.toNat_and, UInt64.toNat_shiftRight]
  show bits.toNat >>> 52 &&& (2 ^ 11 - 1) = _
  rw [Nat.and_two_pow_sub_one_eq_mod]
  simp [UnpackedFloat.unpackExponent]

theorem toNat_fraction (bits : UInt64) :
    (bits &&& 0xFFFFFFFFFFFFF).toNat =
      (@UnpackedFloat.unpackMantissa Format.binary64 bits.toBitVec).toNat := by
  rw [UInt64.toNat_and]
  show bits.toNat &&& (2 ^ 52 - 1) = _
  rw [Nat.and_two_pow_sub_one_eq_mod]
  simp [UnpackedFloat.unpackMantissa]

theorem ofBitVec_unpackSign (bits : UInt64) :
    UnpackedFloat.Sign.ofBitVec (@UnpackedFloat.unpackSign Format.binary64 bits.toBitVec) =
      if bits >>> 63 == 1 then .negative else .positive := by
  have hshift : (bits >>> 63).toNat = bits.toNat / 2 ^ 63 := by
    rw [UInt64.toNat_shiftRight]
    show bits.toNat >>> 63 = _
    rw [Nat.shiftRight_eq_div_pow]
  have hsign : (@UnpackedFloat.unpackSign Format.binary64 bits.toBitVec).toNat =
      bits.toNat / 2 ^ 63 := by
    have := bits.toNat_lt
    simp [UnpackedFloat.unpackSign, Nat.shiftRight_eq_div_pow]
    omega
  have hnegative : (bits >>> 63 == 1) = true ↔ bits.toNat / 2 ^ 63 = 1 := by
    rw [beq_iff_eq, ← UInt64.toNat_inj, hshift]
    rfl
  have hpositive : @UnpackedFloat.unpackSign Format.binary64 bits.toBitVec = 0#1 ↔
      bits.toNat / 2 ^ 63 = 0 := by
    rw [← BitVec.toNat_inj, hsign]
    rfl
  have hbound : bits.toNat / 2 ^ 63 = 0 ∨ bits.toNat / 2 ^ 63 = 1 := by
    have := bits.toNat_lt
    omega
  rw [UnpackedFloat.Sign.ofBitVec]
  rcases hbound with hzero | hone
  · rw [if_pos (hpositive.mpr hzero), if_neg (by rw [hnegative, hzero]; decide)]
  · rw [if_neg (by rw [hpositive, hone]; decide), if_pos (hnegative.mpr hone)]

/-- **Both readings of the bits are the same number.** -/
theorem agree_ofBits (bits : UInt64) :
    Agree (UnpackedFloat.unpack Format.binary64 bits.toBitVec) (Value.ofBits bits) := by
  have hlt : (@UnpackedFloat.unpackMantissa Format.binary64 bits.toBitVec).toNat <
      2 ^ 52 := BitVec.isLt _
  have hbiased : (@UnpackedFloat.unpackExponent Format.binary64 bits.toBitVec).toNat <
      2 ^ 11 := BitVec.isLt _
  simp only [UnpackedFloat.unpack, ofBitVec_unpackSign]
  simp only [Value.ofBits, toNat_biased, toNat_fraction]
  by_cases hmax : (@UnpackedFloat.unpackExponent Format.binary64 bits.toBitVec).toNat =
      0x7FF
  · rw [if_pos hmax, if_pos (BitVec.eq_of_toNat_eq hmax)]
    by_cases hzero : (@UnpackedFloat.unpackMantissa Format.binary64 bits.toBitVec).toNat = 0
    · rw [if_pos hzero, if_pos (BitVec.eq_of_toNat_eq hzero)]
      exact .infinite
    · rw [if_neg hzero, if_neg fun h => hzero (by rw [h]; rfl)]
      exact .nan
  · rw [if_neg hmax, if_neg fun h => hmax (by rw [h]; rfl)]
    by_cases hleast : (@UnpackedFloat.unpackExponent Format.binary64 bits.toBitVec).toNat =
        0
    · rw [if_pos hleast, if_pos (BitVec.eq_of_toNat_eq hleast)]
      by_cases hzero :
          (@UnpackedFloat.unpackMantissa Format.binary64 bits.toBitVec).toNat = 0
      · rw [dif_pos (BitVec.eq_of_toNat_eq hzero), hzero]
        exact .zero
      · rw [dif_neg fun h => hzero (by rw [h]; rfl)]
        simp only [hleast]
        exact .finite ⟨Nat.pos_of_ne_zero hzero, by omega, le_rfl, by omega,
          fun h => absurd h (lt_irrefl _)⟩
    · rw [if_neg hleast, if_neg fun h => hleast (by rw [h]; rfl)]
      have hbias : ((Format.binary64.exponentBias : ℤ) +
          (Format.binary64.mantissaBitsWithoutImplicit : ℕ)) = 1075 := rfl
      simp only [toNat_append_implicit, hbias]
      exact .finite ⟨by omega, by omega, by omega, by omega, fun _ => by omega⟩

end DensityKernel.Number
