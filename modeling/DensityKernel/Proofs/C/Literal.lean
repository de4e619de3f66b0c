import DensityKernel.C.Text
import DensityKernel.Proofs.C.Value

/-!
Number literals in C texts. The text of a literal is a numeral, after a minus
if the literal is negative; that reading the text gives the number back is
assumed of each literal by `RoundTrips`.
-/

namespace DensityKernel

open Literal

/-- The texts of literals are numerals of C, and reading a text takes the minus
in front of a numeral as a minus. -/
class Literal.SpelledInC (K : Type) [Literal K] [Valued K] [Spelling K] : Prop where
  text_spec : ∀ {x : K}, isFinite x = true →
    ∃ t, C.IsNumeral t ∧ (Spelling.inC x).toList = if isNegative x then '-' :: t else t
  read_minus : ∀ {t : List Char} {y : K}, C.IsNumeral t → Spelling.read? ('-' :: t) = some y →
    isFinite y = true → ∃ z : K, Spelling.read? t = some z ∧ isFinite z = true ∧ real y = -real z
  read_one : ∀ t ∈ [['1'], ['1', '.', '0']],
    ∃ y : K, Spelling.read? t = some y ∧ isFinite y = true ∧ real y = 1

namespace C

variable {K : Type} [Literal K] [Valued K] [Spelling K]

omit [Valued K] in
/-- Only finite literals have a text. -/
theorem isFinite_of_literalText {x : K} {floating : Bool} {text : String}
    (h : literalText floating x = .ok text) : isFinite x = true := by
  by_contra hx
  have hnumber : numberText x = .error (.unrenderable (.nonFinite (Spelling.plain x))) := if_neg hx
  cases floating with
  | false => exact absurd (hnumber.symm.trans h) (by simp)
  | true =>
    rw [literalText, floatText, hnumber] at h
    exact absurd h (by simp [bind, Except.bind])

/-- A finite literal whose texts, in both styles, are read back as a literal of
the same value. -/
def RoundTrips (x : K) : Prop :=
  isFinite x = true ∧ ∀ floating text, literalText floating x = .ok text →
    ∃ y : K, Spelling.read? text.toList = some y ∧ isFinite y = true ∧ real y = real x

/-- Two texts that are read back as the literal itself. -/
theorem RoundTrips.of_texts {x : K} (text floatText : String) (hx : isFinite x = true)
    (htext : literalText false x = .ok text) (hfloat : literalText true x = .ok floatText)
    (hread : Spelling.read? text.toList = some x)
    (hreadFloat : Spelling.read? floatText.toList = some x) : RoundTrips x := by
  refine ⟨hx, fun floating t ht => ⟨x, ?_, hx, rfl⟩⟩
  cases floating with
  | false =>
    rw [htext] at ht
    cases ht
    exact hread
  | true =>
    rw [hfloat] at ht
    cases ht
    exact hreadFloat

/-- A numeral that is read back as the value of a literal spells the literal. -/
theorem spells_num {symbols : SymbolMap} {t : List Char} {x y : K} (ht : IsNumeral t)
    (hread : Spelling.read? t = some y) (hy : isFinite y = true) (hx : isFinite x = true)
    (hreal : real y = real x) : Spells symbols .primary t (.num x) := by
  refine ⟨_, _, lexes_numeral ht, .number t, fun σ => ?_⟩
  rw [Expr.value?_num hx, Tree.value?, readBack, hread, Option.bind_some, if_pos hy, hreal]

variable [SpelledInC K]

/-- A numeral goes on with the point and the zero that mark it as floating. -/
theorem pointZero_continues : ∀ c ∈ ['.', '0'], (isWordChar c || c == '.') = true :=
  List.all_eq_true.mp (by decide)

/-- Both styles of a literal are numerals, after a minus if it is negative. -/
theorem literalText_spec {x : K} (hx : isFinite x = true) (floating : Bool) :
    ∃ text t, literalText floating x = .ok text ∧ IsNumeral t ∧
      text.toList = if isNegative x then '-' :: t else t := by
  obtain ⟨t, ht, htext⟩ := SpelledInC.text_spec hx
  have hnumber : numberText x = .ok (Spelling.inC x) := if_pos hx
  cases floating with
  | false => exact ⟨_, t, hnumber, ht, htext⟩
  | true =>
    have hfloat : literalText true x = .ok
        (if hasPoint (Spelling.inC x) then Spelling.inC x else Spelling.inC x ++ ".0") := by
      show floatText x = _
      rw [floatText, hnumber]
      rfl
    cases hpoint : hasPoint (Spelling.inC x) with
    | true =>
      rw [hpoint, if_pos rfl] at hfloat
      exact ⟨_, t, hfloat, ht, htext⟩
    | false =>
      rw [hpoint, if_neg (by decide)] at hfloat
      refine ⟨_, t ++ ['.', '0'], hfloat, ht.append pointZero_continues, ?_⟩
      rw [String.toList_append, htext]
      cases isNegative x <;> rfl

section Literals

variable {symbols : SymbolMap} {x : K} {text : String} {floating : Bool}

theorem spells_literal (hx : RoundTrips x) (hnegative : isNegative x = false)
    (htext : literalText floating x = .ok text) :
    Spells symbols .primary text.toList (.num x) := by
  obtain ⟨text', t, htext', ht, hlist⟩ := literalText_spec hx.1 floating
  rw [htext] at htext'
  cases htext'
  rw [hnegative, if_neg (by decide)] at hlist
  obtain ⟨y, hread, hy, hreal⟩ := hx.2 floating text htext
  rw [hlist] at hread ⊢
  exact spells_num ht hread hy hx.1 hreal

/-- A negative literal is a minus in front of a numeral. -/
theorem spells_negative_literal (hx : RoundTrips x) (hnegative : isNegative x = true)
    (htext : literalText floating x = .ok text) :
    ∃ t z, text.toList = '-' :: t ∧ Spells symbols .primary t (.num z : Expr K) ∧
      ∀ ρ, (Expr.num x).value? ρ = ((Expr.num z).value? ρ).map (- ·) := by
  obtain ⟨text', t, htext', ht, hlist⟩ := literalText_spec hx.1 floating
  rw [htext] at htext'
  cases htext'
  rw [hnegative, if_pos rfl] at hlist
  obtain ⟨y, hread, hy, hreal⟩ := hx.2 floating text htext
  rw [hlist] at hread
  obtain ⟨z, hreadz, hz, hminus⟩ := SpelledInC.read_minus ht hread hy
  refine ⟨t, z, hlist, spells_num ht hreadz hz hz rfl, fun ρ => ?_⟩
  rw [Expr.value?_num hx.1, Expr.value?_num hz, Option.map_some, ← hreal, hminus]

/-- The texts of one that the renderer writes itself. -/
theorem spells_one {t : List Char} (ht : t ∈ [['1'], ['1', '.', '0']]) :
    Spells symbols .primary t (.one : Expr K) := by
  obtain ⟨y, hread, hy, hreal⟩ := SpelledInC.read_one (K := K) t ht
  have hnumeral : IsNumeral t := by
    have hone : IsNumeral ['1'] := .digit rfl
    simp only [List.mem_cons, List.not_mem_nil, or_false] at ht
    rcases ht with rfl | rfl
    · exact hone
    · exact hone.append pointZero_continues
  exact spells_num hnumeral hread hy isFinite_one (hreal.trans real_one.symm)

end Literals

end C

end DensityKernel
