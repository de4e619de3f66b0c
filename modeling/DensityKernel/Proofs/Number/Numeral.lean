import DensityKernel.Proofs.C.Literal
import DensityKernel.Proofs.Number.Sign

/-!
The C texts of doubles. A finite double is written as a numeral, after a minus
if it is negative; zero has no sign. The minus in front of a numeral is read as
a minus.
-/

namespace DensityKernel

namespace Number

open C

/-! ### Numerals -/

/-- Digits are a numeral. -/
theorem isNumeral_digits {cs : List Char} (hne : cs ≠ []) (h : ∀ c ∈ cs, c.isDigit = true) :
    IsNumeral cs := by
  cases cs with
  | nil => exact absurd rfl hne
  | cons c cs =>
    obtain ⟨hc, hcs⟩ := List.forall_mem_cons.mp h
    refine (IsNumeral.digit hc).append fun d hd => ?_
    rw [isWordChar_of_isDigit (hcs d hd)]
    rfl

theorem isDigit_of_mem_natText {n : ℕ} {c : Char} (h : c ∈ natText n) : c.isDigit = true :=
  Nat.isDigit_of_mem_toDigits (by decide) (by decide) h

theorem isNumeral_natText (n : ℕ) : IsNumeral (natText n) :=
  isNumeral_digits Nat.toDigits_ne_nil fun _ => isDigit_of_mem_natText

/-- A numeral without an exponent goes on with digits and a point. -/
theorem continues_of_isDigit {c : Char} (h : c.isDigit = true) :
    (isWordChar c || c == '.') = true := by
  rw [isWordChar_of_isDigit h]
  rfl

theorem isNumeral_positional (d : Decimal) {whole : List Char}
    (hwhole : ∀ c ∈ whole, (isWordChar c || c == '.') = true) :
    IsNumeral (d.positional whole) := by
  have hdigits : ∀ c ∈ natText d.digits, (isWordChar c || c == '.') = true := fun c hc =>
    continues_of_isDigit (isDigit_of_mem_natText hc)
  have hzeros : ∀ n, ∀ c ∈ List.replicate n '0', (isWordChar c || c == '.') = true := by
    intro n c hc
    rw [List.eq_of_mem_replicate hc]
    rfl
  rw [Decimal.positional]
  split
  · refine IsNumeral.append (t := ['0']) (.digit rfl) fun c hc => ?_
    rcases List.mem_cons.mp hc with rfl | hc
    · rfl
    · rcases List.mem_append.mp hc with hc | hc
      · exact hzeros _ c hc
      · exact hdigits c hc
  · split
    · next hpos hlt =>
      refine (isNumeral_digits ?_ fun c hc => isDigit_of_mem_natText (List.mem_of_mem_take hc)).append
        fun c hc => ?_
      · have hne : natText d.digits ≠ [] := Nat.toDigits_ne_nil
        rw [ne_eq, List.take_eq_nil_iff, not_or]
        exact ⟨by omega, hne⟩
      · rcases List.mem_cons.mp hc with rfl | hc
        · rfl
        · exact hdigits c (List.mem_of_mem_drop hc)
    · refine ((isNumeral_natText _).append (hzeros _)).append hwhole

theorem isNumeral_scientific (d : Decimal) : IsNumeral d.scientific := by
  have hexponent : ∀ {t}, IsNumeral t → IsNumeral (t ++ 'e' :: intText d.leading) := by
    intro t ht
    have he : IsNumeral (t ++ ['e']) := ht.append (List.all_eq_true.mp (by decide))
    have hdigits : ∀ n, ∀ c ∈ natText n, (isWordChar c || c == '.') = true := fun _ c hc =>
      continues_of_isDigit (isDigit_of_mem_natText hc)
    rw [intText]
    split
    · have hminus := he.minus.append (hdigits d.leading.natAbs)
      rwa [List.append_assoc] at hminus
    · have hplain := he.append (hdigits d.leading.natAbs)
      rwa [List.append_assoc] at hplain
  have hdigit : ∀ c ∈ natText d.digits, c.isDigit = true := fun _ => isDigit_of_mem_natText
  have hne : natText d.digits ≠ [] := Nat.toDigits_ne_nil
  rw [Decimal.scientific]
  refine hexponent ?_
  match natText d.digits, hne, hdigit with
  | [c], _, hdigit => exact .digit (hdigit c List.mem_cons_self)
  | c :: c' :: rest, _, hdigit =>
    refine IsNumeral.append (t := [c]) (.digit (hdigit c List.mem_cons_self)) fun a ha => ?_
    rcases List.mem_cons.mp ha with rfl | ha
    · rfl
    · exact continues_of_isDigit (hdigit a (List.mem_cons_of_mem _ ha))

/-! ### The text of a double -/

/-- A double other than zero, with a point or an exponent. -/
theorem selfTyped_spec {x : Double} {b : Binary} (hb : x.value = .finite b) :
    ∃ t, IsNumeral t ∧ (selfTyped x).toList = if b.negative then '-' :: t else t := by
  rw [selfTyped, written, hb]
  refine ⟨_, ?_, String.toList_ofList⟩
  dsimp only
  split
  · exact isNumeral_positional _ (List.all_eq_true.mp (by decide))
  · exact isNumeral_scientific _

theorem Binary.real_neg_iff {b : Binary} (h : b.significand ≠ 0) :
    b.real < 0 ↔ b.negative = true := by
  have hpos : (0 : ℝ) < b.significand * (2 : ℝ) ^ b.exponent :=
    mul_pos (Nat.cast_pos.mpr (Nat.pos_of_ne_zero h)) (zpow_pos two_pos _)
  rw [Binary.real]
  cases b.negative with
  | true => simpa using hpos
  | false => simpa using hpos.le

/-- Whole numbers below a bound have a minus only if they are not zero. -/
theorem Binary.real_neg_iff_of_isWhole {b : Binary} (h : b.isWhole = true) :
    b.real < 0 ↔ (b.negative && b.truncated != 0) = true := by
  rw [Binary.real_of_isWhole h]
  cases b.negative with
  | true => simp [Nat.pos_iff_ne_zero]
  | false => simp

theorem wholeBelow_spec {x : Double} {b : Binary} (hb : x.value = .finite b) {bound : ℕ}
    (hbound : 0 < bound) : ∃ t, IsNumeral t ∧
      (wholeBelow bound selfTyped x).toList = if decide (b.real < 0) then '-' :: t else t := by
  rw [wholeBelow, hb]
  simp only
  split
  · next h =>
    obtain ⟨hwhole, -⟩ := Bool.and_eq_true_iff.mp h
    refine ⟨natText b.truncated, isNumeral_natText _, ?_⟩
    rw [String.toList_ofList]
    simp only [decide_eq_true_eq, Binary.real_neg_iff_of_isWhole hwhole]
  · next h =>
    have hne : b.significand ≠ 0 := by
      intro hzero
      exact h (by simp [Binary.isWhole, Binary.below, Binary.truncated, hzero, hbound])
    obtain ⟨t, ht, htext⟩ := selfTyped_spec hb
    refine ⟨t, ht, ?_⟩
    rw [htext]
    simp only [decide_eq_true_eq, Binary.real_neg_iff hne]

/-- A numeral has no sign in front. -/
theorem splitSign_numeral {t : List Char} (h : IsNumeral t) : splitSign t = (false, t) := by
  obtain ⟨c, cs, rfl, hc⟩ : ∃ c cs, t = c :: cs ∧ c.isDigit = true := by
    induction h with
    | @digit c hc => exact ⟨c, [], rfl, hc⟩
    | next _ _ ih =>
      obtain ⟨c, cs, rfl, hc⟩ := ih
      exact ⟨c, _, rfl, hc⟩
  have hminus : c ≠ '-' := by
    rintro rfl
    exact absurd hc (by decide)
  have hplus : c ≠ '+' := by
    rintro rfl
    exact absurd hc (by decide)
  unfold splitSign
  split
  · next h => exact absurd (List.cons.inj h).1 hminus
  · next h => exact absurd (List.cons.inj h).1 hplus
  · rfl

end Number

open Literal C in
/-- Doubles are written as numerals of C. -/
instance : SpelledInC Double where
  text_spec {x} hx := by
    obtain ⟨b, hb⟩ := Double.isFinite_iff.mp hx
    obtain ⟨t, ht, htext⟩ := Number.wholeBelow_spec hb (Nat.pow_pos (by decide : 0 < 10))
    have hnegative : isNegative x = decide (b.real < 0) := by
      rw [Bool.eq_iff_iff, isNegative_iff hx, decide_eq_true_iff]
      show x.real < 0 ↔ _
      rw [Double.real_of_value hb]
    exact ⟨t, ht, by rw [hnegative]; exact htext⟩
  read_minus {t y} ht hread hy := by
    obtain ⟨f, hf, rfl⟩ : ∃ f, Number.readMagnitude? t = some f ∧ (Double.ofFloat f).negate = y :=
      Option.map_eq_some_iff.mp hread
    have hz := Double.real_negate hy
    rw [Double.negate_negate] at hz
    refine ⟨.ofFloat f, ?_, hz.1, ?_⟩
    · show Number.read? t = _
      rw [Number.read?, Number.splitSign_numeral ht]
      dsimp only
      rw [hf]
      rfl
    · show (Double.ofFloat f).negate.real = -(Double.ofFloat f).real
      rw [hz.2, neg_neg]
  read_one t ht := by
    refine ⟨Literal.one, ?_, isFinite_one, real_one⟩
    simp only [List.mem_cons, List.not_mem_nil, or_false] at ht
    rcases ht with rfl | rfl
    · exact (by decide : Number.read? ['1'] = some Literal.one)
    · exact (by decide : Number.read? ['1', '.', '0'] = some Literal.one)

end DensityKernel
