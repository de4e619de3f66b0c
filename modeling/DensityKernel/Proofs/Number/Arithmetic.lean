import DensityKernel.Proofs.Number.Rounding
import DensityKernel.Proofs.Number.Sign

/-!
What the operations on doubles do with infinities and NaN, and when a result is
finite.
-/

namespace DensityKernel

namespace Number

open Float.Model

/-! ### Comparisons with infinities and NaN -/

section Comparisons

variable {u v : UnpackedFloat}

theorem lt_notANumber (u : UnpackedFloat) : u.lt .notANumber = false := by
  cases u <;> rfl

/-- Positive infinity is below nothing. -/
theorem infinity_lt (u : UnpackedFloat) : (UnpackedFloat.infinity .positive).lt u = false := by
  cases u with
  | infinity s => cases s <;> rfl
  | notANumber | zero | finite => rfl

/-- Every other number is below positive infinity. -/
theorem lt_infinity (hu : u ≠ .notANumber) (hne : u ≠ .infinity .positive) :
    u.lt (.infinity .positive) = true := by
  cases u with
  | notANumber => exact absurd rfl hu
  | infinity s =>
    cases s with
    | positive => exact absurd rfl hne
    | negative => rfl
  | zero | finite => rfl

/-- Of two numbers one is at most the other, unless it is greater. -/
theorem not_lt_iff_le (hu : u ≠ .notANumber) (hv : v ≠ .notANumber) :
    ¬v.lt u = true ↔ u.le v = true := by
  obtain ⟨o, hvu, huv⟩ : ∃ o : Ordering, v.compare u = some o ∧ u.compare v = some o.swap := by
    cases u with
    | notANumber => exact absurd rfl hu
    | infinity s =>
      cases v with
      | notANumber => exact absurd rfl hv
      | infinity s' => cases s <;> cases s' <;> exact ⟨_, rfl, rfl⟩
      | zero s' | finite s' => cases s <;> exact ⟨_, rfl, rfl⟩
    | zero s =>
      cases v with
      | notANumber => exact absurd rfl hv
      | zero s' => exact ⟨_, rfl, rfl⟩
      | infinity s' | finite s' => cases s' <;> exact ⟨_, rfl, rfl⟩
    | finite s m e hm =>
      cases v with
      | notANumber => exact absurd rfl hv
      | infinity s' => cases s' <;> exact ⟨_, rfl, rfl⟩
      | zero s' => cases s <;> exact ⟨_, rfl, rfl⟩
      | finite s' m' e' hm' =>
        have hswap : (compare e e').then (compare m m') =
            ((compare e' e).then (compare m' m)).swap := by
          rw [Ordering.swap_then, ← Std.OrientedOrd.eq_swap, ← Std.OrientedOrd.eq_swap]
        cases s <;> cases s'
        case positive.positive => exact ⟨_, rfl, congrArg some hswap⟩
        case negative.negative => exact ⟨_, rfl, congrArg (fun o => some (Ordering.swap o)) hswap⟩
        all_goals exact ⟨_, rfl, rfl⟩
  rw [UnpackedFloat.lt, UnpackedFloat.le, hvu, huv]
  cases o <;> decide

theorem float_lt_iff {a b : Float} : a < b ↔ a.toModel.unpack.lt b.toModel.unpack = true :=
  decide_eq_true_iff (p := a.toModel.unpack.lt b.toModel.unpack = true)

theorem float_le_iff {a b : Float} : a ≤ b ↔ a.toModel.unpack.le b.toModel.unpack = true :=
  decide_eq_true_iff (p := a.toModel.unpack.le b.toModel.unpack = true)

end Comparisons

end Number

namespace Double

open Number Float.Model

variable {x y : Double}

/-! ### Kinds of doubles -/

theorem isFinite_eq (x : Double) : Literal.isFinite x = x.unpacked.isFinite := by
  show x.toFloat.toModel.unpack.isFinite = _
  rw [unpack_toFloat]

theorem isNaN_iff : x.isNaN = true ↔ x.unpacked = .notANumber := by
  have hagree : ∀ {u : UnpackedFloat} {v : Value}, Agree u v → (v = .nan ↔ u = .notANumber) := by
    intro u v h
    cases h <;> simp
  rw [isNaN, beq_iff_eq]
  exact hagree x.agree_value

theorem isNaN_eq_false_iff : x.isNaN = false ↔ x.unpacked ≠ .notANumber := by
  rw [← Bool.not_eq_true, isNaN_iff]

theorem isNaN_of_isFinite (h : Literal.isFinite x = true) : x.isNaN = false := by
  rw [isNaN_eq_false_iff]
  intro hnan
  rw [isFinite_eq, hnan] at h
  exact Bool.false_ne_true h

/-- A double that is not finite is NaN or an infinity. -/
theorem kinds_of_not_isFinite (h : Literal.isFinite x = false) :
    x.isNaN = true ∨ ∃ s, x.unpacked = .infinity s := by
  rw [isFinite_eq] at h
  rw [isNaN_iff]
  cases hx : x.unpacked with
  | notANumber => exact .inl rfl
  | infinity s => exact .inr ⟨s, rfl⟩
  | zero | finite =>
    rw [hx] at h
    exact absurd h.symm Bool.false_ne_true

/-! ### Operations -/

/-- An operation on numbers is that of `Float`. -/
theorem unpacked_combine {f : Float → Float → Float} (hx : x.isNaN = false) (hy : y.isNaN = false) :
    (combine f x y).unpacked = (f x.toFloat y.toFloat).toModel.unpack := by
  unfold combine
  rw [if_neg (by simp [hx]), if_neg (by simp [hy])]
  dsimp only
  split
  · next hnan =>
    have hresult : (f x.toFloat y.toFloat).toModel.unpack.isNaN = true := hnan
    cases hu : (f x.toFloat y.toFloat).toModel.unpack with
    | notANumber => rfl
    | infinity | zero | finite =>
      rw [hu] at hresult
      exact absurd hresult Bool.false_ne_true
  · rfl

theorem combine_of_isNaN_left {f : Float → Float → Float} (h : x.isNaN = true) :
    combine f x y = x :=
  if_pos h

theorem combine_of_isNaN_right {f : Float → Float → Float} (h : y.isNaN = true) :
    (combine f x y).isNaN = true := by
  unfold combine
  by_cases hx : x.isNaN = true
  · rw [if_pos hx]
    exact hx
  · rw [if_neg hx, if_pos h]
    exact h

/-- A double that is packed from a number that fits is finite. -/
theorem isFinite_of_fits {u : UnpackedFloat} (h : Fits u)
    (hx : x.unpacked =
      UnpackedFloat.unpack Format.binary64 (UnpackedFloat.pack Format.binary64 u)) :
    Literal.isFinite x = true := by
  rw [isFinite_eq, hx]
  exact isFinite_unpack_pack h

/-- Adding a finite double to a number does not lead to NaN. -/
theorem isNaN_add (hx : x.isNaN = false) (hy : Literal.isFinite y = true) :
    (x + y).isNaN = false := by
  have hsum : (x + y).unpacked = (x.toFloat + y.toFloat).toModel.unpack :=
    unpacked_combine hx (isNaN_of_isFinite hy)
  rw [isNaN_eq_false_iff, hsum]
  refine unpack_pack_ne_notANumber (add_ne_notANumber ?_ ?_)
  · rw [unpack_toFloat]
    exact isNaN_eq_false_iff.mp hx
  · rw [unpack_toFloat, ← isFinite_eq]
    exact hy

theorem unpacked_one :
    (Literal.one : Double).unpacked = .finite .positive (2 ^ 52) (-52) (by decide) :=
  rfl

/-- **One can be subtracted from every finite double.** -/
theorem isFinite_sub_one (h : Literal.isFinite x = true) :
    Literal.isFinite (x - Literal.one) = true := by
  have hone : (Literal.one : Double).isNaN = false := by decide
  have hdifference : (x - Literal.one).unpacked =
      (x.toFloat - (Literal.one : Double).toFloat).toModel.unpack :=
    unpacked_combine (isNaN_of_isFinite h) hone
  refine isFinite_of_fits ?_ hdifference
  rw [unpack_toFloat, unpack_toFloat, unpacked_one]
  obtain ⟨b, hb⟩ := isFinite_iff.mp h
  have hagree := x.agree_value
  rw [hb] at hagree
  generalize x.unpacked = u at hagree
  cases hagree with
  | zero => exact (by decide : (-52 : ℤ) ≤ 971)
  | finite hcanonical => exact fits_sub_one hcanonical

/-! ### Magnitudes -/

theorem exists_infinity_iff :
    (∃ s, x.unpacked = .infinity s) ↔ ∃ negative, x.value = .infinite negative := by
  have hagree : ∀ {u : UnpackedFloat} {v : Value}, Agree u v →
      ((∃ s, u = .infinity s) ↔ ∃ negative, v = .infinite negative) := by
    intro u v h
    cases h <;> simp
  exact hagree x.agree_value

/-- The sign of an infinity is its first bit. -/
theorem sign_of_unpacked {s : UnpackedFloat.Sign} (h : x.unpacked = .infinity s) :
    s = if x.bits >>> 63 == 1 then .negative else .positive := by
  rw [unpacked, UnpackedFloat.unpack, ofBitVec_unpackSign] at h
  dsimp only at h
  split at h
  · split at h
    · exact (UnpackedFloat.infinity.inj h).symm
    · cases h
  · split at h
    · split at h <;> cases h
    · cases h

theorem unpacked_magnitude_of_infinity {s : UnpackedFloat.Sign} (h : x.unpacked = .infinity s) :
    x.magnitude.unpacked = .infinity .positive := by
  obtain ⟨negative, hvalue⟩ := exists_infinity_iff.mp ⟨s, h⟩
  have hmagnitude : x.magnitude.value = .infinite false := by rw [value_magnitude, hvalue]
  obtain ⟨s', hs'⟩ := exists_infinity_iff.mpr ⟨_, hmagnitude⟩
  have hsign : x.magnitude.bits >>> 63 = 0 := by
    show (x.bits &&& ~~~signBit) >>> 63 = 0
    rw [UInt64.shiftRight_and, show (~~~signBit) >>> 63 = 0 by decide, UInt64.and_zero]
  rw [hs', sign_of_unpacked hs', hsign]
  rfl

/-! ### The larger of two doubles -/

theorem isFinite_larger (hx : Literal.isFinite x = true) (hy : Literal.isFinite y = true) :
    Literal.isFinite (larger x y) = true := by
  unfold larger
  split_ifs <;> assumption

/-- Of finite doubles the larger one is one of them, and neither is above it. -/
theorem larger_spec (hx : Literal.isFinite x = true) (hy : Literal.isFinite y = true) :
    (larger x y = x ∨ larger x y = y) ∧ x.real ≤ (larger x y).real ∧
      y.real ≤ (larger x y).real := by
  have hlt : x.toFloat < y.toFloat ↔ x.real < y.real :=
    decide_eq_true_iff.symm.trans (Literal.Valued.lt_iff hx hy)
  unfold larger
  rw [isNaN_of_isFinite hx, isNaN_of_isFinite hy, if_neg Bool.false_ne_true,
    if_neg Bool.false_ne_true]
  split_ifs with h
  · exact ⟨.inr rfl, (hlt.mp h).le, le_rfl⟩
  · exact ⟨.inl rfl, le_rfl, not_lt.mp (hlt.not.mp h)⟩

/-- Positive infinity, the only double that is below no number. -/
def IsInfinity (x : Double) : Prop :=
  x.unpacked = .infinity .positive

theorem IsInfinity.isNaN (h : x.IsInfinity) : x.isNaN = false := by
  rw [isNaN_eq_false_iff, h]
  exact nofun

theorem IsInfinity.not_lt (h : x.IsInfinity) : ¬x.toFloat < y.toFloat := by
  rw [float_lt_iff, unpack_toFloat, unpack_toFloat, h, infinity_lt]
  exact Bool.false_ne_true

theorem IsInfinity.lt (hy : y.IsInfinity) (hx : x.isNaN = false) (hne : ¬x.IsInfinity) :
    x.toFloat < y.toFloat := by
  rw [float_lt_iff, unpack_toFloat, unpack_toFloat, hy]
  exact lt_infinity (isNaN_eq_false_iff.mp hx) hne

/-- The larger of two doubles is infinite if one of them is. -/
theorem isInfinity_larger (h : x.IsInfinity ∨ y.IsInfinity) : (larger x y).IsInfinity := by
  unfold larger
  rcases h with hx | hy
  · rw [if_neg (by simp [hx.isNaN])]
    split_ifs with hnan hlt
    · exact hx
    · exact absurd hlt hx.not_lt
    · exact hx
  · split_ifs with hnan hnan' hlt
    · exact hy
    · exact absurd hnan' (by simp [hy.isNaN])
    · exact hy
    · by_contra hne
      exact hlt (hy.lt (Bool.eq_false_iff.mpr hnan) hne)

/-! ### Cancellation -/

theorem unpacked_tolerance : (1e-12 : Float).toModel.unpack =
    .finite .positive 4951760157141521 (-92) (by decide) := by
  rfl

/-- The tolerance for a finite scale is finite. -/
theorem isFinite_tolerance (h : Literal.isFinite x = true) :
    (1e-12 * x.toFloat).toModel.unpack.isFinite = true := by
  refine isFinite_unpack_pack ?_
  rw [unpack_toFloat, unpacked_tolerance]
  obtain ⟨b, hb⟩ := isFinite_iff.mp h
  have hagree := x.agree_value
  rw [hb] at hagree
  generalize x.unpacked = u at hagree
  cases hagree with
  | zero => trivial
  | @finite negative m e narrow hcanonical =>
    refine fits_roundWithAccuracy (by have := hcanonical.le; omega) ?_
    have hpos : (0 : ℝ) < m * 2 ^ e := hcanonical.real_pos
    have hsmall : (4951760157141521 : ℝ) * 2 ^ (-92 : ℤ) ≤ 1 := by norm_num
    calc ((4951760157141521 * m : ℕ) : ℝ) * 2 ^ (-92 + e)
        = 4951760157141521 * 2 ^ (-92 : ℤ) * (m * 2 ^ e) := by
          rw [zpow_add₀ two_ne_zero]
          push_cast
          ring
      _ ≤ m * 2 ^ e := mul_le_of_le_one_left hpos.le hsmall
      _ < overflowBound := lt_of_le_of_lt (le_add_of_nonneg_right zero_le_one)
          (add_one_lt_overflowBound hcanonical)

variable {sum scale : Double}

theorem cancels_eq_true_iff : cancels sum scale = true ↔
    ¬(1e-12 * scale.toFloat).toModel.unpack.lt sum.toFloat.abs.toModel.unpack = true := by
  rw [cancels, Bool.not_eq_true', decide_eq_false_iff_not, gt_iff_lt, float_lt_iff]

theorem unpack_abs : sum.toFloat.abs.toModel.unpack =
    UnpackedFloat.unpack Format.binary64 (UnpackedFloat.pack Format.binary64 sum.unpacked.abs) := by
  rw [← unpack_toFloat sum]
  rfl

/-- A sum that is NaN is cancelled. -/
theorem cancels_of_isNaN (h : sum.isNaN = true) : cancels sum scale = true := by
  have habs : sum.toFloat.abs.toModel.unpack = .notANumber := by
    rw [unpack_abs, isNaN_iff.mp h]
    rfl
  rw [cancels_eq_true_iff, habs, lt_notANumber]
  exact Bool.false_ne_true

/-- Whatever has an infinite scale is cancelled. -/
theorem cancels_of_isInfinity (h : scale.IsInfinity) : cancels sum scale = true := by
  have hproduct : (1e-12 * scale.toFloat).toModel.unpack = .infinity .positive := by
    show UnpackedFloat.unpack Format.binary64 (UnpackedFloat.pack Format.binary64
      (UnpackedFloat.mul Format.binary64 (1e-12 : Float).toModel.unpack
        scale.toFloat.toModel.unpack)) = _
    rw [unpacked_tolerance, unpack_toFloat, h]
    rfl
  rw [cancels_eq_true_iff, hproduct, infinity_lt]
  exact Bool.false_ne_true

/-- A number is cancelled against a finite scale if it is finite and within the tolerance. -/
theorem cancels_iff (hsum : sum.isNaN = false) (hscale : Literal.isFinite scale = true) :
    cancels sum scale = true ↔
      Literal.isFinite sum = true ∧ sum.toFloat.abs ≤ 1e-12 * scale.toFloat := by
  have hproduct := isFinite_tolerance hscale
  have hnumber : (1e-12 * scale.toFloat).toModel.unpack ≠ .notANumber := by
    intro hnan
    rw [hnan] at hproduct
    exact Bool.false_ne_true hproduct
  have habs : sum.toFloat.abs.toModel.unpack ≠ .notANumber := by
    rw [unpack_abs]
    refine unpack_pack_ne_notANumber ?_
    rw [isNaN_eq_false_iff] at hsum
    cases hu : sum.unpacked with
    | notANumber => exact absurd hu hsum
    | infinity | zero | finite => exact nofun
  rw [cancels_eq_true_iff, not_lt_iff_le habs hnumber, float_le_iff, iff_and_self,
    ← not_lt_iff_le habs hnumber]
  refine fun hle => by_contra fun hinfinite => hle ?_
  rcases kinds_of_not_isFinite (Bool.eq_false_iff.mpr hinfinite) with hnan | ⟨s, hs⟩
  · exact absurd hnan (by simp [hsum])
  · have hmagnitude : sum.toFloat.abs.toModel.unpack = .infinity .positive := by
      rw [unpack_abs, hs]
      exact unpack_packedInfinity .positive
    rw [hmagnitude]
    refine lt_infinity hnumber fun heq => ?_
    rw [heq] at hproduct
    exact Bool.false_ne_true hproduct

end Double

end DensityKernel
