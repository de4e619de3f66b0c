import DensityKernel.Proofs.Number.Arithmetic

/-!
Laws of doubles. A double that is no NaN is determined by what it is unpacked to, so two of them
are the same as soon as they are the same number of the same sign. Zero, one and minus one are
neutral operands exactly: what is added or multiplied is not rounded again.
-/

namespace DensityKernel

namespace Number

open Float.Model UnpackedFloat

/-! ### Rounding what is already rounded -/

section Rounding

variable {s : UnpackedFloat.Sign} {m k : ℕ} {e : ℤ}

theorem shiftRight_of_dvd :
    ExtendedMantissa.ofMantissaAndAccuracy (2 ^ k * m) .exact >>> k =
      ExtendedMantissa.ofMantissaAndAccuracy m .exact := by
  induction k generalizing m with
  | zero => rw [pow_zero, one_mul]; rfl
  | succ k ih =>
    rw [shiftRight_succ, pow_succ, mul_assoc, ih]
    simp [ExtendedMantissa.shiftRightOne, ExtendedMantissa.ofMantissaAndAccuracy]

theorem log2_two_pow_mul (hm : 0 < m) : (2 ^ k * m).log2 = k + m.log2 := by
  rw [Nat.log2_eq_iff (by positivity), pow_succ, pow_add, mul_assoc]
  exact ⟨Nat.mul_le_mul_left _ (Nat.log2_self_le hm.ne'),
    Nat.mul_lt_mul_of_pos_left (by rw [← pow_succ]; exact Nat.lt_log2_self) (by positivity)⟩

theorem IsCanonical.log2_eq (h : IsCanonical m e) : m.log2 = 52 ∨ e = -1074 ∧ m.log2 < 52 := by
  by_cases hleast : e = -1074
  · have hlt : m.log2 < 53 := (Nat.log2_lt h.pos.ne').mpr h.lt
    omega
  · exact .inl ((Nat.log2_eq_iff h.pos.ne').mpr ⟨h.normal (by have := h.ge; omega), h.lt⟩)

/-- Rounding a canonical number that was shifted by one place after the other gives it back. -/
theorem roundWithAccuracy_of_isCanonical (h : IsCanonical m e) :
    roundWithAccuracy Format.binary64 s (2 ^ 52 * m) (-52 + e) .exact = .finite s m e h.pos := by
  have hlog := log2_two_pow_mul (k := 52) h.pos
  have hfirst : shift (2 ^ 52 * m) (-52 + e) = 52 := by
    unfold shift
    rw [hlog]
    rcases h.log2_eq with hm | ⟨rfl, hm⟩
    · have := h.ge
      omega
    · omega
  have hsecond : shift m e = 0 := by
    unfold shift
    rcases h.log2_eq with hm | ⟨rfl, hm⟩
    · have := h.ge
      omega
    · omega
  have hrounded : (ExtendedMantissa.ofMantissaAndAccuracy m .exact).roundedMantissa = m := rfl
  have hexponent : -52 + e + (52 : ℕ) = e := by omega
  simp only [roundWithAccuracy, shiftToTargetExponent_eq, hfirst, shiftRight_of_dvd, hrounded,
    hexponent, hsecond]
  have hmantissa : (ExtendedMantissa.ofMantissaAndAccuracy m .exact >>> 0).mantissa = m := rfl
  rw [dif_neg (by rw [hmantissa]; exact h.pos.ne')]
  congr 1
  omega

end Rounding

end Number

namespace Double

open Number Float.Model UnpackedFloat

variable {x y : Double}

/-! ### Bits -/

/-- **A double that is no NaN is what it is unpacked to.** -/
theorem eq_of_unpacked (hx : x.isNaN = false) (h : x.unpacked = y.unpacked) : x = y := by
  have hpacked : ∀ z : Double, z.unpacked ≠ .notANumber →
      UnpackedFloat.pack Format.binary64 z.unpacked = z.bits.toBitVec := by
    intro z hz
    rw [unpacked, pack_unpack, if_neg]
    intro hnan
    refine hz ?_
    simp only [isNaNBits, decide_eq_true_eq] at hnan
    simp [unpacked, UnpackedFloat.unpack, hnan]
  rw [isNaN_eq_false_iff] at hx
  have hbits : x.bits.toBitVec = y.bits.toBitVec := by
    rw [← hpacked x hx, ← hpacked y (h ▸ hx), h]
  obtain ⟨a⟩ := x
  obtain ⟨b⟩ := y
  exact congrArg Double.mk (UInt64.eq_of_toBitVec_eq hbits)

/-- The other sign is a change of the first bit, also for zeros and infinities. -/
theorem unpacked_negate (x : Double) : x.negate.unpacked = x.unpacked.neg := by
  have hexponent : @unpackExponent Format.binary64 (x.bits ^^^ signBit).toBitVec =
      @unpackExponent Format.binary64 x.bits.toBitVec := by
    refine BitVec.eq_of_toNat_eq ?_
    rw [← toNat_biased, ← toNat_biased, UInt64.shiftRight_xor,
      xor_and (show signBit >>> 52 &&& 0x7FF = 0 by decide)]
  have hmantissa : @unpackMantissa Format.binary64 (x.bits ^^^ signBit).toBitVec =
      @unpackMantissa Format.binary64 x.bits.toBitVec := by
    refine BitVec.eq_of_toNat_eq ?_
    rw [← toNat_fraction, ← toNat_fraction,
      xor_and (show signBit &&& 0xFFFFFFFFFFFFF = 0 by decide)]
  have hsign : Sign.ofBitVec (@unpackSign Format.binary64 (x.bits ^^^ signBit).toBitVec) =
      -Sign.ofBitVec (@unpackSign Format.binary64 x.bits.toBitVec) := by
    rw [ofBitVec_unpackSign, ofBitVec_unpackSign, signBit_flip]
    cases x.bits >>> 63 == 1 <;> rfl
  show UnpackedFloat.unpack Format.binary64 (x.bits ^^^ signBit).toBitVec = _
  simp only [unpacked, UnpackedFloat.unpack, hexponent, hmantissa, hsign]
  split_ifs <;> rfl

theorem isNaN_negate (x : Double) : x.negate.isNaN = x.isNaN := by
  rw [Bool.eq_iff_iff, isNaN_iff, isNaN_iff, unpacked_negate]
  cases x.unpacked <;> simp [UnpackedFloat.neg]

theorem neg_neg_sign (s : UnpackedFloat.Sign) : - -s = s := by
  cases s <;> rfl

theorem combine_of_isNaN_right_eq {f : Float → Float → Float} (hx : x.isNaN = false)
    (hy : y.isNaN = true) : combine f x y = y := by
  rw [combine, if_neg (by simp [hx]), if_pos hy]

theorem isCanonical_of_unpacked {s : UnpackedFloat.Sign} {m : ℕ} {e : ℤ} {hm : 0 < m}
    (h : x.unpacked = .finite s m e hm) : IsCanonical m e := by
  have hagree := x.agree_value
  rw [h] at hagree
  generalize x.value = v at hagree
  cases hagree
  assumption

/-! ### Zeros -/

theorem unpacked_of_isZero (h : Literal.isZero x = true) : ∃ s, x.unpacked = .zero s := by
  have hbeq : x.unpacked.beq (.zero .positive) = true := by
    rw [Literal.isZero, eq_eq] at h
    exact h
  obtain ⟨-, -, h | ⟨h, -⟩ | ⟨h, -⟩⟩ := (beq_iff_ne_notANumber_and_eq _ _).mp hbeq
  all_goals exact ⟨_, h⟩

theorem isZero_of_unpacked {s : UnpackedFloat.Sign} (h : x.unpacked = .zero s) :
    Literal.isZero x = true := by
  rw [Literal.isZero, eq_eq, h]
  cases s <;> rfl

/-- There are two zeros. -/
theorem eq_zero_or_of_isZero (h : Literal.isZero x = true) : x = ⟨0⟩ ∨ x = ⟨signBit⟩ := by
  obtain ⟨s, hs⟩ := unpacked_of_isZero h
  have hnumber : x.isNaN = false := isNaN_eq_false_iff.mpr (by rw [hs]; exact nofun)
  cases s with
  | positive => exact .inl (eq_of_unpacked hnumber hs)
  | negative => exact .inr (eq_of_unpacked hnumber hs)

theorem zero_add_of_ne_zero (h : Literal.isZero x = false) : Literal.zero + x = x := by
  have hzero : (Literal.zero : Double).isNaN = false := by decide
  by_cases hx : x.isNaN = true
  · exact combine_of_isNaN_right_eq hzero hx
  rw [Bool.not_eq_true] at hx
  have hsum : (Literal.zero + x).unpacked = x.unpacked := by
    refine (unpacked_combine hzero hx).trans ?_
    show UnpackedFloat.unpack Format.binary64 (UnpackedFloat.pack Format.binary64
      (UnpackedFloat.add Format.binary64 (Literal.zero : Double).toFloat.toModel.unpack
        x.toFloat.toModel.unpack)) = _
    rw [unpack_toFloat, unpack_toFloat,
      show (Literal.zero : Double).unpacked = .zero .positive from rfl]
    have hagree := unpack_pack_of_agree x.agree_value
    cases hu : x.unpacked with
    | notANumber => rfl
    | infinity s => rw [hu] at hagree; exact hagree
    | zero s => exact absurd (isZero_of_unpacked hu) (by rw [h]; exact Bool.false_ne_true)
    | finite s m e hm => rw [hu] at hagree; exact hagree
  exact (eq_of_unpacked hx hsum.symm).symm

theorem cancels_of_isZero (h : Literal.isZero x = true) :
    Literal.cancels x (Literal.magnitude x) = true := by
  obtain rfl | rfl := eq_zero_or_of_isZero h <;> decide

/-- A magnitude is determined by its value. -/
theorem magnitude_eq_of_real_eq (hx : Literal.isFinite x.magnitude = true)
    (hy : Literal.isFinite y.magnitude = true) (h : x.magnitude.real = y.magnitude.real) :
    x.magnitude = y.magnitude := by
  have hpositive : ∀ z : Double, z.magnitude.unpacked ≠ .zero .negative := by
    intro z hz
    have hbits : z.magnitude = ⟨signBit⟩ :=
      eq_of_unpacked (isNaN_eq_false_iff.mpr (by rw [hz]; exact nofun)) hz
    have hcut : (z.bits &&& ~~~signBit) &&& signBit = signBit &&& signBit :=
      congrArg (·.bits &&& signBit) hbits
    rw [UInt64.and_assoc, show ~~~signBit &&& signBit = 0 by decide, UInt64.and_zero] at hcut
    exact absurd hcut (by decide)
  have hbeq := (Literal.Valued.eq_iff hy).mpr ⟨hx, h⟩
  rw [eq_eq] at hbeq
  obtain ⟨hnumber, -, h | ⟨-, h⟩ | ⟨h, -⟩⟩ := (beq_iff_ne_notANumber_and_eq _ _).mp hbeq
  · exact eq_of_unpacked (isNaN_eq_false_iff.mpr hnumber) h
  · exact absurd h (hpositive y)
  · exact absurd h (hpositive x)

/-! ### Ones -/

theorem eq_one_of_isOne (h : Literal.isOne x = true) : x = Literal.one := by
  rw [Literal.isOne, eq_eq, unpacked_one] at h
  obtain ⟨hx, -, h | ⟨-, h⟩ | ⟨-, h⟩⟩ := (beq_iff_ne_notANumber_and_eq _ _).mp h
  · exact eq_of_unpacked (isNaN_eq_false_iff.mpr hx) h
  · cases h
  · cases h

/-- Multiplying by a unit changes the sign at most. -/
theorem unpacked_unit_mul {u : Double} {s : UnpackedFloat.Sign}
    (hu : u.unpacked = .finite s (2 ^ 52) (-52) (by decide)) (hx : x.isNaN = false) :
    (u * x).unpacked =
      if s == .positive then x.unpacked else x.unpacked.neg := by
  have hnumber : u.isNaN = false := isNaN_eq_false_iff.mpr (by rw [hu]; exact nofun)
  have hpacked : ∀ z : Double, UnpackedFloat.unpack Format.binary64
      (UnpackedFloat.pack Format.binary64 z.unpacked) = z.unpacked :=
    fun z => unpack_pack_of_agree z.agree_value
  have hproduct : UnpackedFloat.mul Format.binary64 (.finite s (2 ^ 52) (-52) (by decide))
      x.unpacked = if s == .positive then x.unpacked else x.unpacked.neg := by
    cases hxu : x.unpacked with
    | notANumber => exact absurd hxu (isNaN_eq_false_iff.mp hx)
    | infinity s' | zero s' => cases s <;> cases s' <;> rfl
    | finite s' m e hm =>
      simp only [UnpackedFloat.mul, roundWithAccuracy_of_isCanonical (isCanonical_of_unpacked hxu)]
      cases s <;> cases s' <;> rfl
  refine (unpacked_combine hnumber hx).trans ?_
  show UnpackedFloat.unpack Format.binary64 (UnpackedFloat.pack Format.binary64
    (UnpackedFloat.mul Format.binary64 u.toFloat.toModel.unpack x.toFloat.toModel.unpack)) = _
  rw [unpack_toFloat, unpack_toFloat, hu, hproduct]
  cases s with
  | positive => exact hpacked x
  | negative =>
    have hnegated := hpacked x.negate
    rwa [unpacked_negate] at hnegated

theorem one_mul_eq (x : Double) : Literal.one * x = x := by
  by_cases hx : x.isNaN = true
  · exact combine_of_isNaN_right_eq (by decide) hx
  rw [Bool.not_eq_true] at hx
  exact (eq_of_unpacked hx (unpacked_unit_mul unpacked_one hx).symm).symm

/-- Changing the sign twice, once of the double and once by a product. -/
theorem neg_one_mul_negate (hx : x.isNaN = false) : -(Literal.one : Double) * -x = x := by
  have hone : (-(Literal.one : Double)).unpacked = .finite .negative (2 ^ 52) (-52) (by decide) :=
    (unpacked_negate _).trans (congrArg UnpackedFloat.neg unpacked_one)
  have hnegated : (-x).isNaN = false := (isNaN_negate x).trans hx
  refine (eq_of_unpacked hx ?_).symm
  refine Eq.trans ?_ (unpacked_unit_mul hone hnegated).symm
  show x.unpacked = x.negate.unpacked.neg
  rw [unpacked_negate]
  cases x.unpacked <;> simp [UnpackedFloat.neg, neg_neg_sign]

theorem isNaN_of_isNegative (h : Literal.isNegative x = true) : x.isNaN = false := by
  rw [isNaN_eq_false_iff]
  intro hnan
  rw [Literal.isNegative, lt_iff, hnan] at h
  exact absurd h Bool.false_ne_true

theorem isZero_negate (x : Double) : Literal.isZero (-x) = Literal.isZero x := by
  have hzero : ∀ y : Double, Literal.isZero y = true → Literal.isZero (-y) = true := by
    intro y hy
    obtain ⟨s, hs⟩ := unpacked_of_isZero hy
    exact isZero_of_unpacked ((unpacked_negate y).trans (congrArg UnpackedFloat.neg hs))
  rw [Bool.eq_iff_iff]
  refine ⟨fun h => ?_, hzero x⟩
  have hback := hzero _ h
  rwa [show - -x = x from negate_negate x] at hback

end Double

end DensityKernel
