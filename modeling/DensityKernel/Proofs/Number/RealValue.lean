import DensityKernel.Literal.Double
import DensityKernel.Proofs.Number.Bits
import DensityKernel.Proofs.Reals.Literal

/-!
The real value of a double. The comparisons of doubles are those of their
values, and so are the tests on wholeness and parity. Doubles are thereby
literals that stand for real numbers.
-/

namespace DensityKernel

namespace Number

open Float.Model

/-! ### Finite doubles -/

namespace Binary

/-- The number that a finite double is. -/
noncomputable def real (x : Binary) : ℝ :=
  (if x.negative then -1 else 1) * (x.significand * (2 : ℝ) ^ x.exponent)

/-- The magnitude, as a quotient of natural numbers. -/
theorem magnitude_eq (m : ℕ) (e : ℤ) :
    (m : ℝ) * (2 : ℝ) ^ e = ((m * 2 ^ e.toNat : ℕ) : ℝ) / ((2 ^ (-e).toNat : ℕ) : ℝ) := by
  push_cast
  rcases le_total 0 e with he | he
  · obtain ⟨n, rfl⟩ := Int.eq_ofNat_of_zero_le he
    simp
  · obtain ⟨n, hn⟩ := Int.eq_ofNat_of_zero_le (neg_nonneg.mpr he)
    obtain rfl : e = -(n : ℤ) := by omega
    simp [div_eq_mul_inv]

theorem real_of_isWhole {x : Binary} (h : x.isWhole = true) :
    x.real = (if x.negative then -1 else 1) * (x.truncated : ℝ) := by
  have hdvd : 2 ^ (-x.exponent).toNat ∣ x.significand * 2 ^ x.exponent.toNat :=
    Dvd.dvd.mul_right (Nat.dvd_of_mod_eq_zero (by simpa [isWhole] using h)) _
  have hpos : ((2 ^ (-x.exponent).toNat : ℕ) : ℝ) ≠ 0 := by positivity
  rw [real, magnitude_eq]
  congr 1
  rw [show x.truncated = x.significand * 2 ^ x.exponent.toNat / 2 ^ (-x.exponent).toNat from rfl]
  rw [Nat.cast_div hdvd hpos]

theorem isWhole_iff {x : Binary} : x.isWhole = true ↔ ∃ n : ℤ, x.real = n := by
  constructor
  · intro h
    rw [real_of_isWhole h]
    cases x.negative with
    | true => exact ⟨-x.truncated, by simp⟩
    | false => exact ⟨x.truncated, by simp⟩
  · rintro ⟨n, hn⟩
    have hmagnitude : ∃ k : ℤ, (x.significand : ℝ) * (2 : ℝ) ^ x.exponent = k := by
      cases hsign : x.negative with
      | true =>
        rw [real, hsign] at hn
        exact ⟨-n, by push_cast; rw [← hn]; simp⟩
      | false =>
        rw [real, hsign] at hn
        exact ⟨n, by rw [← hn]; simp⟩
    obtain ⟨k, hk⟩ := hmagnitude
    rcases le_total 0 x.exponent with he | he
    · have : (-x.exponent).toNat = 0 := by omega
      simp [isWhole, this, Nat.mod_one]
    · have hzero : x.exponent.toNat = 0 := by omega
      rw [magnitude_eq, hzero, pow_zero, mul_one, div_eq_iff (by positivity)] at hk
      have hint : (x.significand : ℤ) = k * (2 ^ (-x.exponent).toNat : ℕ) := by exact_mod_cast hk
      have hdvd : 2 ^ (-x.exponent).toNat ∣ x.significand :=
        Int.natCast_dvd_natCast.mp ⟨k, by rw [hint]; ring⟩
      simpa [isWhole] using Nat.mod_eq_zero_of_dvd hdvd

theorem isEven_iff {x : Binary} : x.isEven = true ↔ ∃ n : ℤ, x.real = 2 * n := by
  constructor
  · intro h
    obtain ⟨hwhole, heven⟩ : x.isWhole = true ∧ x.truncated % 2 = 0 := by simpa [isEven] using h
    obtain ⟨k, hk⟩ := Nat.dvd_of_mod_eq_zero heven
    rw [real_of_isWhole hwhole, hk]
    cases x.negative with
    | true => exact ⟨-k, by simp⟩
    | false => exact ⟨k, by simp⟩
  · rintro ⟨n, hn⟩
    have hwhole : x.isWhole = true := isWhole_iff.mpr ⟨2 * n, by rw [hn]; push_cast; ring⟩
    have heven : x.truncated % 2 = 0 := by
      rw [real_of_isWhole hwhole] at hn
      cases hsign : x.negative with
      | true =>
        rw [hsign, if_pos rfl, neg_one_mul] at hn
        have : -(x.truncated : ℤ) = 2 * n := by exact_mod_cast hn
        omega
      | false =>
        rw [hsign, if_neg (by decide), one_mul] at hn
        have : (x.truncated : ℤ) = 2 * n := by exact_mod_cast hn
        omega
    simp [isEven, hwhole, heven]

end Binary

/-! ### Comparison -/

/-- A greater exponent makes a greater number: only the significands of the
least exponent lack their leading bit. -/
theorem IsCanonical.lt_of_exponent_lt {m n : ℕ} {e f : ℤ} (hm : IsCanonical m e)
    (hn : IsCanonical n f) (h : e < f) : (m : ℝ) * (2 : ℝ) ^ e < (n : ℝ) * (2 : ℝ) ^ f := by
  have hnormal : (2 : ℝ) ^ 52 ≤ n := by exact_mod_cast hn.normal (lt_of_le_of_lt hm.ge h)
  have hlt : (m : ℝ) < 2 ^ 53 := by exact_mod_cast hm.lt
  have hpow : (2 : ℝ) * 2 ^ e ≤ 2 ^ f := by
    rw [← zpow_one_add₀ two_ne_zero]
    exact zpow_le_zpow_right₀ one_le_two (by omega)
  have he : (0 : ℝ) < 2 ^ e := zpow_pos two_pos e
  calc (m : ℝ) * 2 ^ e < 2 ^ 53 * 2 ^ e := mul_lt_mul_of_pos_right hlt he
    _ = 2 ^ 52 * (2 * 2 ^ e) := by ring
    _ ≤ 2 ^ 52 * 2 ^ f := mul_le_mul_of_nonneg_left hpow (by positivity)
    _ ≤ n * 2 ^ f := mul_le_mul_of_nonneg_right hnormal (zpow_pos two_pos f).le

/-- Canonical numbers are compared by exponent first, then by significand. -/
theorem IsCanonical.compares {m n : ℕ} {e f : ℤ} (hm : IsCanonical m e) (hn : IsCanonical n f) :
    ((compare e f).then (compare m n)).Compares ((m : ℝ) * (2 : ℝ) ^ e)
      ((n : ℝ) * (2 : ℝ) ^ f) := by
  rcases lt_trichotomy e f with he | rfl | he
  · rw [compare_lt_iff_lt.mpr he]
    exact hm.lt_of_exponent_lt hn he
  · have hpos : (0 : ℝ) < 2 ^ e := zpow_pos two_pos e
    rw [compare_eq_iff_eq.mpr rfl]
    rcases lt_trichotomy m n with h | rfl | h
    · rw [compare_lt_iff_lt.mpr h]
      exact mul_lt_mul_of_pos_right (Nat.cast_lt.mpr h) hpos
    · rw [compare_eq_iff_eq.mpr rfl]
      rfl
    · rw [compare_gt_iff_gt.mpr h]
      exact mul_lt_mul_of_pos_right (Nat.cast_lt.mpr h) hpos
  · rw [compare_gt_iff_gt.mpr he]
    exact hn.lt_of_exponent_lt hm he

theorem IsCanonical.real_pos {m : ℕ} {e : ℤ} (h : IsCanonical m e) :
    (0 : ℝ) < (m : ℝ) * (2 : ℝ) ^ e :=
  mul_pos (Nat.cast_pos.mpr h.pos) (zpow_pos two_pos e)

/-- **The comparison of finite doubles is that of their real values.** -/
theorem compares_of_agree {u v : UnpackedFloat} {x y : Binary} (hx : Agree u (.finite x))
    (hy : Agree v (.finite y)) : ∃ o, u.compare v = some o ∧ o.Compares x.real y.real := by
  cases hx with
  | zero =>
    cases hy with
    | zero => exact ⟨.eq, rfl, by simp [Ordering.Compares, Binary.real]⟩
    | @finite negative n f _ hn =>
      have := hn.real_pos
      cases negative with
      | true => exact ⟨.gt, rfl, by simpa [Ordering.Compares, Binary.real] using this⟩
      | false => exact ⟨.lt, rfl, by simpa [Ordering.Compares, Binary.real] using this⟩
  | @finite negative m e _ hm =>
    have hmPos := hm.real_pos
    cases hy with
    | zero =>
      cases negative with
      | true => exact ⟨.lt, rfl, by simpa [Ordering.Compares, Binary.real] using hmPos⟩
      | false => exact ⟨.gt, rfl, by simpa [Ordering.Compares, Binary.real] using hmPos⟩
    | @finite negative' n f _ hn =>
      have hnPos := hn.real_pos
      cases negative with
      | true =>
        cases negative' with
        | true =>
          refine ⟨_, rfl, ?_⟩
          rw [Ordering.compares_swap]
          have h := hm.compares hn
          revert h
          cases (compare e f).then (compare m n) <;>
            simp [Ordering.Compares, Binary.real, eq_comm]
        | false =>
          refine ⟨.lt, rfl, ?_⟩
          simp only [Ordering.Compares, Binary.real]
          norm_num
          linarith
      | false =>
        cases negative' with
        | true =>
          refine ⟨.gt, rfl, ?_⟩
          simp only [Ordering.Compares, Binary.real]
          norm_num
          linarith
        | false =>
          refine ⟨_, rfl, ?_⟩
          simpa [Binary.real] using hm.compares hn

/-- A finite double equals only a finite one. -/
theorem finite_of_beq {u v : UnpackedFloat} {x : Value} {y : Binary} (hx : Agree u x)
    (hy : Agree v (.finite y)) (h : u.beq v = true) : ∃ b, x = .finite b := by
  cases hx with
  | nan => cases hy <;> exact absurd h Bool.false_ne_true
  | @infinite s => cases hy <;> cases s <;> exact absurd h Bool.false_ne_true
  | zero => exact ⟨_, rfl⟩
  | finite => exact ⟨_, rfl⟩

end Number

/-! ### Doubles as real numbers -/

namespace Double

open Number Float.Model

/-- The real value of a finite double. -/
noncomputable def real (x : Double) : ℝ :=
  match x.value with
  | .finite value => value.real
  | _ => 0

theorem real_of_value {x : Double} {b : Binary} (h : x.value = .finite b) : x.real = b.real := by
  rw [real, h]

/-- A double as its bits are unpacked. -/
def unpacked (x : Double) : UnpackedFloat :=
  UnpackedFloat.unpack Format.binary64 x.bits.toBitVec

theorem agree_value (x : Double) : Agree x.unpacked x.value :=
  agree_ofBits x.bits

/-- The operations on `Float` see the double as it is unpacked. -/
theorem unpack_toFloat (x : Double) : x.toFloat.toModel.unpack = x.unpacked :=
  unpack_pack_of_agree x.agree_value

theorem isFinite_iff {x : Double} : Literal.isFinite x = true ↔ ∃ b, x.value = .finite b := by
  show x.toFloat.toModel.unpack.isFinite = true ↔ _
  rw [unpack_toFloat]
  exact isFinite_of_agree x.agree_value

theorem eq_eq (x y : Double) : Literal.eq x y = x.unpacked.beq y.unpacked := by
  show x.toFloat.toModel.unpack.beq y.toFloat.toModel.unpack = _
  rw [unpack_toFloat, unpack_toFloat]

theorem lt_iff {x y : Double} : Literal.lt x y = true ↔ x.unpacked.lt y.unpacked = true := by
  show decide (x.toFloat < y.toFloat) = true ↔ _
  rw [decide_eq_true_iff]
  show decide (x.toFloat.toModel.unpack.lt y.toFloat.toModel.unpack = true) = true ↔ _
  rw [decide_eq_true_iff, unpack_toFloat, unpack_toFloat]

theorem le_iff {x y : Double} : Literal.le x y = true ↔ x.unpacked.le y.unpacked = true := by
  show decide (x.toFloat ≤ y.toFloat) = true ↔ _
  rw [decide_eq_true_iff]
  show decide (x.toFloat.toModel.unpack.le y.toFloat.toModel.unpack = true) = true ↔ _
  rw [decide_eq_true_iff, unpack_toFloat, unpack_toFloat]

/-- Finite doubles compare as their values do. -/
theorem compares {x y : Double} (hx : Literal.isFinite x = true) (hy : Literal.isFinite y = true) :
    ∃ o, x.unpacked.compare y.unpacked = some o ∧ o.Compares x.real y.real := by
  obtain ⟨a, ha⟩ := isFinite_iff.mp hx
  obtain ⟨b, hb⟩ := isFinite_iff.mp hy
  rw [real_of_value ha, real_of_value hb]
  exact compares_of_agree (ha ▸ x.agree_value) (hb ▸ y.agree_value)

/-- Only a finite double equals a finite one. -/
theorem isFinite_of_eq {x y : Double} (hy : Literal.isFinite y = true)
    (h : Literal.eq x y = true) : Literal.isFinite x = true := by
  rw [eq_eq] at h
  obtain ⟨b, hb⟩ := isFinite_iff.mp hy
  exact isFinite_iff.mpr (finite_of_beq x.agree_value (hb ▸ y.agree_value) h)

theorem value_ofInt_small (n : ℤ) (h : n.natAbs ≤ 3) :
    ∃ b, (Literal.ofInt n : Double).value = .finite b ∧ b.real = n := by
  obtain rfl | rfl | rfl | rfl | rfl | rfl | rfl :
      n = -3 ∨ n = -2 ∨ n = -1 ∨ n = 0 ∨ n = 1 ∨ n = 2 ∨ n = 3 := by omega
  · exact ⟨⟨true, 6755399441055744, -51, false⟩, by decide, by norm_num [Binary.real]⟩
  · exact ⟨⟨true, 2 ^ 52, -51, true⟩, by decide, by norm_num [Binary.real]⟩
  · exact ⟨⟨true, 2 ^ 52, -52, true⟩, by decide, by norm_num [Binary.real]⟩
  · exact ⟨⟨false, 0, -1074, false⟩, by decide, by norm_num [Binary.real]⟩
  · exact ⟨⟨false, 2 ^ 52, -52, true⟩, by decide, by norm_num [Binary.real]⟩
  · exact ⟨⟨false, 2 ^ 52, -51, true⟩, by decide, by norm_num [Binary.real]⟩
  · exact ⟨⟨false, 6755399441055744, -51, false⟩, by decide, by norm_num [Binary.real]⟩

theorem finite_real_of_value {x : Double} {r : ℝ} (h : ∃ b, x.value = .finite b ∧ b.real = r) :
    Literal.isFinite x = true ∧ x.real = r := by
  obtain ⟨b, hvalue, hreal⟩ := h
  exact ⟨isFinite_iff.mpr ⟨b, hvalue⟩, (real_of_value hvalue).trans hreal⟩

end Double

/-- Doubles stand for real numbers. -/
noncomputable instance : Literal.Valued Double where
  real := Double.real
  eq_iff {x y} hy := by
    constructor
    · intro h
      have hx := Double.isFinite_of_eq hy h
      obtain ⟨o, ho, hcompares⟩ := Double.compares hx hy
      rw [Double.eq_eq, Float.Model.UnpackedFloat.beq, ho, beq_iff_eq, Option.some_inj] at h
      exact ⟨hx, hcompares.eq_eq.mp h⟩
    · rintro ⟨hx, heq⟩
      obtain ⟨o, ho, hcompares⟩ := Double.compares hx hy
      rw [Double.eq_eq, Float.Model.UnpackedFloat.beq, ho, beq_iff_eq, Option.some_inj]
      exact hcompares.eq_eq.mpr heq
  lt_iff {x y} hx hy := by
    obtain ⟨o, ho, hcompares⟩ := Double.compares hx hy
    rw [Double.lt_iff, Float.Model.UnpackedFloat.lt, ho, beq_iff_eq, Option.some_inj]
    exact hcompares.eq_lt
  le_iff {x y} hx hy := by
    obtain ⟨o, ho, hcompares⟩ := Double.compares hx hy
    rw [Double.le_iff, Float.Model.UnpackedFloat.le, ho, Option.any_some, Ordering.isLE_iff_ne_gt]
    exact hcompares.ne_gt
  isWhole_iff {x} hx := by
    obtain ⟨b, hb⟩ := Double.isFinite_iff.mp hx
    rw [Double.real_of_value hb, ← Number.Binary.isWhole_iff]
    show Double.isWhole x = true ↔ _
    rw [Double.isWhole, hb]
  isEven_iff {x} hx := by
    obtain ⟨b, hb⟩ := Double.isFinite_iff.mp hx
    rw [Double.real_of_value hb, ← Number.Binary.isEven_iff]
    show Double.isEven x = true ↔ _
    rw [Double.isEven, hb]
  small n hn := Double.finite_real_of_value (Double.value_ofInt_small n hn)
  half_spec :=
    Double.finite_real_of_value
      ⟨⟨false, 2 ^ 52, -53, true⟩, by decide, by norm_num [Number.Binary.real]⟩
  minusHalf_spec :=
    Double.finite_real_of_value
      ⟨⟨true, 2 ^ 52, -53, true⟩, by decide, by norm_num [Number.Binary.real]⟩

end DensityKernel
