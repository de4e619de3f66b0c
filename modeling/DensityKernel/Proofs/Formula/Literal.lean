import DensityKernel.Proofs.Formula.Token
import DensityKernel.Proofs.Number.Numeral

/-!
Number literals in formulas. The text of a literal is that of its magnitude,
after a minus if the literal is negative; that reading the text of a magnitude
gives the number back is assumed of each literal by `ReadsBack`.
-/

namespace DensityKernel

open Literal

/-- The texts of literals in formulas: digits and a point, after a minus if the literal is
negative. A minus gives a literal the opposite value. -/
class Literal.SpelledInFormula (K : Type) [Literal K] [Valued K] [Spelling K] : Prop where
  text_magnitude : ∀ {x : K}, isFinite x = true →
    Formula.IsPlainNumeral (Spelling.inFormula (magnitude x)).toList
  text_eq : ∀ {x : K}, isFinite x = true → (Spelling.inFormula x).toList =
    if isNegative x then '-' :: (Spelling.inFormula (magnitude x)).toList
    else (Spelling.inFormula (magnitude x)).toList
  neg_spec : ∀ x : K, isFinite (-x) = isFinite x ∧ real (-x) = -real x

namespace Formula

variable {K : Type} [Literal K] [Valued K] [Spelling K]

/-- A finite literal, the text of whose magnitude is read as the absolute value. -/
def ReadsBack (x : K) : Prop :=
  isFinite x = true ∧ ∃ y : K, Spelling.read? (Spelling.inFormula (magnitude x)).toList = some y ∧
    isFinite y = true ∧ real y = |real x|

end Formula

/-! ### Doubles -/

namespace Number

open Formula

/-- The text of the magnitude of a double, as formulas write it. -/
def plainText (bound : ℕ) (b : Binary) : List Char :=
  if b.isWhole && b.below bound then natText b.truncated else (Decimal.shortest b).positional []

theorem startsNumber_natText {n : ℕ} : ∀ c ∈ natText n, Token.startsNumber c = true := by
  intro c hc
  rw [Token.startsNumber, isDigit_of_mem_natText hc, Bool.true_or]

theorem startsNumber_positional (d : Decimal) :
    ∀ c ∈ d.positional [], Token.startsNumber c = true := by
  have hzeros : ∀ n, ∀ c ∈ List.replicate n '0', Token.startsNumber c = true := by
    intro n c hc
    rw [List.eq_of_mem_replicate hc]
    rfl
  intro c hc
  rw [Decimal.positional] at hc
  split at hc
  · simp only [List.mem_cons, List.mem_append] at hc
    obtain rfl | rfl | hc | hc := hc
    · rfl
    · rfl
    · exact hzeros _ c hc
    · exact startsNumber_natText c hc
  · split at hc
    · simp only [List.mem_append, List.mem_cons] at hc
      obtain hc | rfl | hc := hc
      · exact startsNumber_natText c (List.mem_of_mem_take hc)
      · rfl
      · exact startsNumber_natText c (List.mem_of_mem_drop hc)
    · simp only [List.append_nil, List.mem_append] at hc
      obtain hc | hc := hc
      · exact startsNumber_natText c hc
      · exact hzeros _ c hc

theorem positional_ne_nil (d : Decimal) : d.positional [] ≠ [] := by
  have hne : natText d.digits ≠ [] := Nat.toDigits_ne_nil
  rw [Decimal.positional]
  split
  · simp
  · split <;> simp [hne]

theorem isPlainNumeral_plainText (bound : ℕ) (b : Binary) :
    IsPlainNumeral (plainText bound b) := by
  rw [plainText]
  split
  · exact ⟨Nat.toDigits_ne_nil, startsNumber_natText⟩
  · exact ⟨positional_ne_nil _, startsNumber_positional _⟩

theorem wholeBelow_positional {x : Double} {b : Binary} (hb : x.value = .finite b) {bound : ℕ}
    (hbound : 0 < bound) : (wholeBelow bound positional x).toList =
      if decide (b.real < 0) then '-' :: plainText bound b else plainText bound b := by
  rw [wholeBelow, hb, plainText]
  simp only
  split
  · next h =>
    obtain ⟨hwhole, -⟩ := Bool.and_eq_true_iff.mp h
    rw [String.toList_ofList]
    simp only [decide_eq_true_eq, Binary.real_neg_iff_of_isWhole hwhole]
  · next h =>
    have hne : b.significand ≠ 0 := by
      intro hzero
      exact h (by simp [Binary.isWhole, Binary.below, Binary.truncated, hzero, hbound])
    rw [positional, written, hb, String.toList_ofList]
    simp only [decide_eq_true_eq, Binary.real_neg_iff hne]

end Number

namespace Double

open Number

theorem toList_inFormula {x : Double} {b : Binary} (h : x.value = .finite b) :
    (Spelling.inFormula x).toList =
      if decide (b.real < 0) then '-' :: plainText (Nat.pow 10 10) b
      else plainText (Nat.pow 10 10) b := by
  have htext : Spelling.inFormula x = wholeBelow (Nat.pow 10 10) positional x := by
    simp only [Spelling.inFormula, h]
  rw [htext]
  exact wholeBelow_positional h (Nat.pow_pos (by decide : 0 < 10))

/-- The text of the magnitude has the same digits and no minus. -/
theorem toList_inFormula_magnitude {x : Double} {b : Binary} (h : x.value = .finite b) :
    (Spelling.inFormula (Literal.magnitude x)).toList = plainText (Nat.pow 10 10) b := by
  have hpositive : ¬({ b with negative := false } : Binary).real < 0 := by
    rw [Binary.real, if_neg Bool.false_ne_true, one_mul, not_lt]
    positivity
  rw [show Literal.magnitude x = x.magnitude from rfl, toList_inFormula (value_magnitude_finite h),
    if_neg (by simpa using hpositive)]
  rfl

end Double

/-- A double whose magnitude is read back as it is. -/
theorem Formula.ReadsBack.of_read {x : Double} (hx : isFinite x = true)
    (hread : Spelling.read? (Spelling.inFormula x.magnitude).toList = some x.magnitude) :
    ReadsBack x :=
  ⟨hx, x.magnitude, hread, Double.real_magnitude hx⟩

/-- Doubles are written in formulas as plain numerals. -/
instance : SpelledInFormula Double where
  text_magnitude {x} hx := by
    obtain ⟨b, hb⟩ := Double.isFinite_iff.mp hx
    rw [Double.toList_inFormula_magnitude hb]
    exact Number.isPlainNumeral_plainText _ b
  text_eq {x} hx := by
    obtain ⟨b, hb⟩ := Double.isFinite_iff.mp hx
    have hnegative : isNegative x = decide (b.real < 0) := by
      rw [Bool.eq_iff_iff, isNegative_iff hx, decide_eq_true_iff]
      show x.real < 0 ↔ _
      rw [Double.real_of_value hb]
    rw [Double.toList_inFormula hb, Double.toList_inFormula_magnitude hb, hnegative]
  neg_spec x := ⟨Double.isFinite_negate x, Double.real_negate_eq x⟩

end DensityKernel
