import DensityKernel.Proofs.Number.RealValue

/-!
Rounding to a double. A number is rounded up by at most half a unit in the last
place, so one that is below the midpoint between the largest double and the power of
two after it is not rounded to an infinity.
-/

namespace DensityKernel.Number

open Float.Model UnpackedFloat

/-! ### Shifting -/

section Shifting

variable {em : ExtendedMantissa} {m k : ℕ}

theorem shiftRight_succ : em >>> (k + 1) = (em >>> k).shiftRightOne :=
  rfl

theorem mantissa_shiftRight : (em >>> k).mantissa = em.mantissa / 2 ^ k := by
  induction k with
  | zero => exact (Nat.div_one _).symm
  | succ k ih =>
    rw [shiftRight_succ, ExtendedMantissa.shiftRightOne, ih, Nat.div_div_eq_div_mul, ← pow_succ]

/-- Only a mantissa whose next bit is set is rounded up. -/
theorem roundedMantissa_le :
    em.roundedMantissa ≤ em.mantissa + if em.roundBit = true then 1 else 0 := by
  obtain ⟨m, roundBit, stickyBit⟩ := em
  cases roundBit <;> cases stickyBit <;>
    simp [ExtendedMantissa.roundedMantissa, ExtendedMantissa.accuracy, Accuracy.roundToNearestEven]
  omega

/-- **Rounding adds at most half a unit in the last place.** -/
theorem roundedMantissa_shiftRight_le :
    2 * 2 ^ k * ((ExtendedMantissa.ofMantissaAndAccuracy m .exact) >>> k).roundedMantissa ≤
      2 * m + 2 ^ k := by
  set em := ExtendedMantissa.ofMantissaAndAccuracy m .exact
  have hrounded : (em >>> k).roundedMantissa ≤
      (em >>> k).mantissa + if (em >>> k).roundBit = true then 1 else 0 := roundedMantissa_le
  rw [mantissa_shiftRight] at hrounded
  have hdiv : 2 ^ k * (m / 2 ^ k) ≤ m := Nat.mul_div_le m (2 ^ k)
  cases hbit : (em >>> k).roundBit with
  | false =>
    rw [hbit, if_neg Bool.false_ne_true, add_zero] at hrounded
    calc 2 * 2 ^ k * (em >>> k).roundedMantissa ≤ 2 * 2 ^ k * (m / 2 ^ k) :=
          Nat.mul_le_mul_left _ hrounded
      _ = 2 * (2 ^ k * (m / 2 ^ k)) := mul_assoc ..
      _ ≤ 2 * m + 2 ^ k := Nat.le_add_right_of_le (Nat.mul_le_mul_left 2 hdiv)
  | true =>
    rw [hbit, if_pos rfl] at hrounded
    cases k with
    | zero => exact absurd hbit Bool.false_ne_true
    | succ k =>
      -- the bit that is shifted out last is set
      have hodd : m / 2 ^ k % 2 = 1 := by
        rw [shiftRight_succ, ExtendedMantissa.shiftRightOne, mantissa_shiftRight] at hbit
        have hne : m / 2 ^ k % 2 ≠ 0 := bne_iff_ne.mp hbit
        omega
      have hhalf : m / 2 ^ k = 2 * (m / 2 ^ (k + 1)) + 1 := by
        rw [pow_succ, ← Nat.div_div_eq_div_mul]
        omega
      have hle : 2 ^ k * (2 * (m / 2 ^ (k + 1)) + 1) ≤ m := hhalf ▸ Nat.mul_div_le m (2 ^ k)
      calc 2 * 2 ^ (k + 1) * (em >>> (k + 1)).roundedMantissa
          ≤ 2 * 2 ^ (k + 1) * (m / 2 ^ (k + 1) + 1) := Nat.mul_le_mul_left _ hrounded
        _ = 2 * (2 ^ k * (2 * (m / 2 ^ (k + 1)) + 1)) + 2 ^ (k + 1) := by ring
        _ ≤ 2 * m + 2 ^ (k + 1) := by omega

end Shifting

/-! ### Overflow -/

/-- The number is packed as a finite one. -/
def Fits : UnpackedFloat → Prop
  | .zero _ => True
  | .finite _ _ e _ => e ≤ 971
  | _ => False

section Packing

variable {s : UnpackedFloat.Sign} {m : ℕ} {e : ℤ} {u : UnpackedFloat}

theorem isFinite_unpack_packComponents {exponent : BitVec 11} {fraction : BitVec 52}
    (h : exponent ≠ -1#11) :
    (UnpackedFloat.unpack Format.binary64
      (packComponents Format.binary64 s exponent fraction)).isFinite = true := by
  simp only [UnpackedFloat.unpack, unpackExponent_packComponents]
  rw [if_neg h]
  split
  · split <;> rfl
  · rfl

/-- A number that is not packed as an infinity. -/
theorem isFinite_unpack_pack (h : Fits u) :
    (UnpackedFloat.unpack Format.binary64 (UnpackedFloat.pack Format.binary64 u)).isFinite =
      true := by
  cases u with
  | infinity | notANumber => exact h.elim
  | zero s => exact isFinite_unpack_packComponents (by decide)
  | finite s m e hm =>
    obtain ⟨biased, hbiased⟩ : ∃ biased, (e + (Format.binary64.exponentBias : ℤ) + (52 : ℕ)).toNat =
        biased := ⟨_, rfl⟩
    have hlt : biased < 2047 := by
      have hle : e ≤ 971 := h
      change (e + 1023 + 52).toNat = biased at hbiased
      omega
    have hexponent : BitVec.ofNat 11 biased ≠ -1#11 := by
      intro heq
      have := congrArg BitVec.toNat heq
      rw [BitVec.toNat_ofNat, Nat.mod_eq_of_lt (by omega)] at this
      exact absurd this (ne_of_lt hlt)
    simp only [UnpackedFloat.pack, hbiased]
    rw [if_neg (by omega)]
    split
    · exact isFinite_unpack_packComponents hexponent
    · exact isFinite_unpack_packComponents (by decide)

theorem unpack_packedInfinity (s : UnpackedFloat.Sign) :
    UnpackedFloat.unpack Format.binary64 (packedInfinity Format.binary64 s) = .infinity s := by
  cases s <;> rfl

/-- Nothing but NaN is packed as NaN. -/
theorem unpack_pack_ne_notANumber (h : u ≠ .notANumber) :
    UnpackedFloat.unpack Format.binary64 (UnpackedFloat.pack Format.binary64 u) ≠
      .notANumber := by
  have hfinite : ∀ {v : UnpackedFloat}, v.isFinite = true → v ≠ .notANumber := by
    rintro v hv rfl
    exact absurd hv Bool.false_ne_true
  cases u with
  | notANumber => exact absurd rfl h
  | infinity s => exact fun heq => nomatch (unpack_packedInfinity s).symm.trans heq
  | zero s => exact hfinite (isFinite_unpack_pack trivial)
  | finite s m e hm =>
    by_cases he : e ≤ 971
    · exact hfinite (isFinite_unpack_pack he)
    · have hlarge : 2 ^ 11 ≤ (e + (Format.binary64.exponentBias : ℤ) + (52 : ℕ)).toNat + 1 := by
        change 2048 ≤ (e + 1023 + 52).toNat + 1
        omega
      simp only [UnpackedFloat.pack]
      rw [if_pos hlarge, unpack_packedInfinity]
      exact nofun

end Packing

section Overflow

variable {s : UnpackedFloat.Sign} {m : ℕ} {e : ℤ}

/-- A number below a power of two has its leading digit below it. -/
theorem log2_add_lt {n : ℤ} (hm : m ≠ 0) (h : (m : ℝ) * 2 ^ e < 2 ^ n) :
    (m.log2 : ℤ) + e < n := by
  have hlog : (2 : ℝ) ^ ((m.log2 : ℤ) + e) ≤ m * 2 ^ e := by
    rw [zpow_add₀ two_ne_zero, zpow_natCast]
    exact mul_le_mul_of_nonneg_right (by exact_mod_cast Nat.log2_self_le hm) (by positivity)
  exact (zpow_lt_zpow_iff_right₀ one_lt_two).mp (lt_of_le_of_lt hlog h)

/-- Halfway between the largest double and the next power of two. -/
noncomputable def overflowBound : ℝ :=
  2 ^ (1024 : ℤ) - 2 ^ (970 : ℤ)

/-- The places by which a mantissa is shifted. -/
def shift (m : ℕ) (e : ℤ) : ℕ :=
  (max ((m.log2 : ℤ) + 1 + e - 53) (-1074) - e).toNat

theorem shiftToTargetExponent_eq :
    shiftToTargetExponent Format.binary64 m e .exact =
      (ExtendedMantissa.ofMantissaAndAccuracy m .exact >>> shift m e, e + shift m e) :=
  rfl

/-- The exponent after a shift is at most 971 if the number is below `2 ^ 1024`. -/
theorem add_shift_le (he : e ≤ 971) (h : (m : ℝ) * 2 ^ e < 2 ^ (1024 : ℤ)) :
    e + shift m e ≤ 971 := by
  have hlog : (m.log2 : ℤ) + e ≤ 1023 := by
    by_cases hm : m = 0
    · rw [hm, Nat.log2_zero]
      omega
    · exact Int.lt_add_one_iff.mp (log2_add_lt hm h)
  unfold shift
  omega

/-- **A number below the bound is not rounded to an infinity.** -/
theorem fits_roundWithAccuracy (he : e ≤ 971) (h : (m : ℝ) * 2 ^ e < overflowBound) :
    Fits (roundWithAccuracy Format.binary64 s m e .exact) := by
  set r := (ExtendedMantissa.ofMantissaAndAccuracy m .exact >>> shift m e).roundedMantissa with hr
  have hexponent : e + shift m e ≤ 971 :=
    add_shift_le he (h.trans (sub_lt_self _ (by positivity)))
  have hrounded : (r : ℝ) * 2 ^ (e + shift m e) < 2 ^ (1024 : ℤ) := by
    have hhalf : 2 * 2 ^ shift m e * (r : ℝ) ≤ 2 * m + 2 ^ shift m e := by
      exact_mod_cast roundedMantissa_shiftRight_le
    have hunit : (2 : ℝ) ^ (e + shift m e) ≤ 2 * 2 ^ (970 : ℤ) := by
      rw [← zpow_one_add₀ two_ne_zero]
      exact zpow_le_zpow_right₀ one_le_two hexponent
    have hpos : (0 : ℝ) < 2 ^ e := zpow_pos two_pos e
    rw [zpow_add₀ two_ne_zero, zpow_natCast] at hunit ⊢
    unfold overflowBound at h
    nlinarith [mul_le_mul_of_nonneg_left hhalf hpos.le]
  have hfinal := add_shift_le hexponent hrounded
  unfold roundWithAccuracy
  simp only [shiftToTargetExponent_eq, ← hr]
  split
  · trivial
  · exact hfinal

/-- A mantissa that is extended stands for the same number. -/
theorem shiftLeft_mul_zpow (m k : ℕ) (e : ℤ) :
    ((m <<< k : ℕ) : ℝ) * 2 ^ (e - k) = m * 2 ^ e := by
  rw [Nat.shiftLeft_eq, Nat.cast_mul, zpow_sub₀ two_ne_zero, zpow_natCast, Nat.cast_pow,
    Nat.cast_ofNat, mul_assoc, mul_div_cancel₀ _ (pow_ne_zero k two_ne_zero)]

theorem fits_round (he : e ≤ 971) (h : (m : ℝ) * 2 ^ e < overflowBound) :
    Fits (UnpackedFloat.round Format.binary64 s m e) := by
  unfold UnpackedFloat.round decreaseExponent
  dsimp only
  exact fits_roundWithAccuracy (by omega) (by rwa [shiftLeft_mul_zpow])

theorem fits_normalize {n : ℤ} (he : e ≤ 971) (h : |(n : ℝ)| * 2 ^ e < overflowBound) :
    Fits (UnpackedFloat.normalize Format.binary64 n e s) := by
  have habs : ((n.natAbs : ℕ) : ℝ) = |(n : ℝ)| := by rw [Nat.cast_natAbs, Int.cast_abs]
  rw [← habs] at h
  unfold UnpackedFloat.normalize
  split
  · next hlt =>
    have hneg : n < 0 := compare_lt_iff_lt.mp hlt
    exact fits_round he (by rwa [show (-n).toNat = n.natAbs by omega])
  · trivial
  · next hgt =>
    have hpos : 0 < n := compare_gt_iff_gt.mp hgt
    exact fits_round he (by rwa [show n.toNat = n.natAbs by omega])

end Overflow

/-! ### Sums -/

section Sums

variable {s : UnpackedFloat.Sign} {m : ℕ} {e : ℤ} {u v : UnpackedFloat}

theorem isFinite_normalize {n : ℤ} :
    (UnpackedFloat.normalize Format.binary64 n e s).isFinite = true := by
  have hround : ∀ {s m e a}, (roundWithAccuracy Format.binary64 s m e a).isFinite = true := by
    intro s m e a
    unfold roundWithAccuracy
    dsimp only
    split <;> rfl
  unfold UnpackedFloat.normalize
  split
  · exact hround
  · rfl
  · exact hround

/-- Adding a finite number to a number does not lead to NaN. -/
theorem add_ne_notANumber (hu : u ≠ .notANumber) (hv : v.isFinite = true) :
    UnpackedFloat.add Format.binary64 u v ≠ .notANumber := by
  cases v with
  | infinity | notANumber => exact absurd hv Bool.false_ne_true
  | zero =>
    cases u with
    | notANumber => exact absurd rfl hu
    | infinity | finite => simp [UnpackedFloat.add]
    | zero =>
      simp only [UnpackedFloat.add]
      split <;> exact nofun
  | finite =>
    cases u with
    | notANumber => exact absurd rfl hu
    | infinity | zero => simp [UnpackedFloat.add]
    | finite =>
      intro hnan
      have hfinite := congrArg UnpackedFloat.isFinite hnan
      exact absurd (isFinite_normalize.symm.trans hfinite) (Bool.false_ne_true ∘ Eq.symm)

/-- One more than the largest double is below the bound. -/
theorem add_one_lt_overflowBound (h : IsCanonical m e) : (m : ℝ) * 2 ^ e + 1 < overflowBound := by
  have hlt : (m : ℝ) ≤ 2 ^ 53 - 1 := le_sub_iff_add_le.mpr (by exact_mod_cast h.lt)
  have hpow : (2 : ℝ) ^ e ≤ 2 ^ (971 : ℤ) := zpow_le_zpow_right₀ one_le_two h.le
  have hunit : (1 : ℝ) < 2 ^ (970 : ℤ) := one_lt_zpow₀ one_lt_two (by norm_num)
  have hlast : (2 : ℝ) ^ (971 : ℤ) = 2 * 2 ^ (970 : ℤ) := zpow_one_add₀ two_ne_zero 970
  have hnext : (2 : ℝ) ^ (1024 : ℤ) = 2 ^ 54 * 2 ^ (970 : ℤ) := zpow_add₀ two_ne_zero 54 970
  have hle : (m : ℝ) * 2 ^ e ≤ (2 ^ 53 - 1) * 2 ^ (971 : ℤ) :=
    mul_le_mul hlt hpow (zpow_nonneg zero_le_two e) (by norm_num)
  rw [overflowBound, hnext]
  rw [hlast] at hle
  generalize (2 : ℝ) ^ (970 : ℤ) = unit at hle hunit ⊢
  linarith

theorem abs_apply (s : UnpackedFloat.Sign) (m : ℕ) : |((s.apply m : ℤ) : ℝ)| = m := by
  cases s <;> simp [UnpackedFloat.Sign.apply]

/-- One can be subtracted from the largest double, of either sign, without an overflow. -/
theorem fits_sub_one (h : IsCanonical m e) :
    Fits (UnpackedFloat.sub Format.binary64 (.finite s m e h.pos)
      (.finite .positive (2 ^ 52) (-52) (by decide))) := by
  obtain ⟨k, hk⟩ : ∃ k : ℕ, min e (-52) = e - k := ⟨(e - min e (-52)).toNat, by omega⟩
  obtain ⟨l, hl⟩ : ∃ l : ℕ, min e (-52) = -52 - l := ⟨(-52 - min e (-52)).toNat, by omega⟩
  have hfirst : (e - min e (-52)).toNat = k := by omega
  have hsecond : (-52 - min e (-52)).toNat = l := by omega
  have hvalue : ((m <<< k : ℕ) : ℝ) * 2 ^ (min e (-52)) = m * 2 ^ e := by
    rw [hk, shiftLeft_mul_zpow]
  have hone : (((2 ^ 52) <<< l : ℕ) : ℝ) * 2 ^ (min e (-52)) = 1 := by
    rw [hl, shiftLeft_mul_zpow]
    norm_num
  simp only [UnpackedFloat.sub, decreaseExponent, hfirst, hsecond]
  refine fits_normalize (by omega) ?_
  rw [Int.cast_sub]
  have habs : |((s.apply (m <<< k : ℕ) : ℤ) : ℝ) -
      ((UnpackedFloat.Sign.positive.apply ((2 ^ 52) <<< l : ℕ) : ℤ) : ℝ)| ≤
        ((m <<< k : ℕ) : ℝ) + (((2 ^ 52) <<< l : ℕ) : ℝ) := by
    rw [← abs_apply s, ← abs_apply .positive ((2 ^ 52) <<< l)]
    exact abs_sub _ _
  refine lt_of_le_of_lt ((mul_le_mul_iff_left₀ (zpow_pos two_pos _)).mpr habs) ?_
  rw [add_mul, hvalue, hone]
  exact add_one_lt_overflowBound h

end Sums

end DensityKernel.Number
