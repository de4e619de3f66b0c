import DensityKernel.Proofs.C.Grouping
import DensityKernel.Proofs.C.Product
import DensityKernel.Proofs.Number.Numeral

/-!
What C computes from the text of an expression. The text always reads as one
expression, the `asRead` one, and so has the right value exactly where that
one does (`rendersFaithfully_iff`). This is so for all grouped terms; a quotient
by an inverse is the shortest text that means something else.
-/

namespace DensityKernel.C

open Literal

section Texts

variable {K : Type} [Literal K] [Valued K] [Spelling K] {symbols : SymbolMap} {e u v : Expr K}

/-- There is a text, C reads it, and it has the value of the expression wherever
the expression is defined, with the symbols standing for their C texts. -/
def RendersFaithfully (symbols : SymbolMap) (e : Expr K) : Prop :=
  ∃ text x, render symbols e = .ok text ∧ Reading text x ∧
    ∀ σ : String → ℝ, e.Defined (fun name => σ (symbols.resolve name)) →
      x.value? K σ = some (e.value (.usual fun name => σ (symbols.resolve name)))

variable [SpelledInC K]

/-- What C reads has the value of `asRead`. -/
theorem exists_reading (h : Renderable symbols e) :
    ∃ text x, render symbols e = .ok text ∧ Reading text x ∧
      ∀ σ, x.value? K σ = (asRead e).value? fun name => σ (symbols.resolve name) := by
  obtain ⟨text, htext, ts, x, hlex, hreads, hvalue⟩ := render_spells h
  exact ⟨text, x, htext, ⟨ts, hlex.lex_eq, hreads⟩, hvalue⟩

theorem faithful_iff_asRead (h : Renderable symbols e) :
    RendersFaithfully symbols e ↔
      ∀ σ : String → ℝ, e.Defined (fun name => σ (symbols.resolve name)) →
        (asRead e).value? (fun name => σ (symbols.resolve name)) =
          some (e.value (.usual fun name => σ (symbols.resolve name))) := by
  obtain ⟨text, x, htext, hreading, hvalue⟩ := exists_reading h
  constructor
  · rintro ⟨text', x', htext', hreading', hfaithful⟩ σ hdefined
    rw [htext] at htext'
    cases htext'
    obtain rfl := reading_unique hreading hreading'
    rw [← hvalue σ]
    exact hfaithful σ hdefined
  · intro hread
    refine ⟨text, x, htext, hreading, fun σ hdefined => ?_⟩
    rw [hvalue σ]
    exact hread σ hdefined

theorem faithful_of_grouped (h : Renderable symbols e) (hgrouped : (Term.ofExpr e).grouped = true) :
    RendersFaithfully symbols e := by
  rw [faithful_iff_asRead h]
  intro σ hdefined
  rw [value?_asRead hgrouped]
  exact Expr.value?_of_defined hdefined

/-- A quotient by an inverse has the right text only where dividing is the same
as multiplying. -/
theorem div_eq_mul_of_faithful_div_inverse
    (h : Renderable symbols (.div u (.pow v (.num minusOne))))
    (hu : (Term.ofExpr u).grouped = true) (hv : (Term.ofExpr v).grouped = true)
    (hwhole : (Term.ofExpr v).isQuotient = false)
    (hfaithful : RendersFaithfully symbols (.div u (.pow v (.num minusOne)))) {σ : String → ℝ}
    (hdefined : (Expr.div u v).Defined fun name => σ (symbols.resolve name)) :
    u.value (.usual fun name => σ (symbols.resolve name)) /
        v.value (.usual fun name => σ (symbols.resolve name)) =
      u.value (.usual fun name => σ (symbols.resolve name)) *
        v.value (.usual fun name => σ (symbols.resolve name)) := by
  rw [faithful_iff_asRead h] at hfaithful
  obtain ⟨hu', hv', hzero⟩ := Expr.defined_div.mp hdefined
  have hinverse : v.value (.usual fun name => σ (symbols.resolve name)) ^ (-1 : ℝ) ≠ 0 := by
    rw [Real.rpow_neg_one]
    exact inv_ne_zero hzero
  have hpower : (Expr.pow v (.num minusOne)).Defined fun name => σ (symbols.resolve name) := by
    refine Expr.defined_pow.mpr ⟨hv', isFinite_minusOne, ?_⟩
    rw [Expr.value_num, real_minusOne]
    exact .exponent_minusOne hzero
  have hquotient := hfaithful σ (Expr.defined_div.mpr ⟨hu', hpower, by
    rwa [Expr.value_pow, Expr.value_num, real_minusOne]⟩)
  rw [value?_asRead_div_inverse hu hv hwhole, Expr.value?_of_defined hdefined] at hquotient
  simpa [Real.rpow_neg_one] using hquotient

end Texts

/-! ### Doubles -/

section Doubles

/-- **What the C text of an expression means.** Rendering succeeds, C reads the
text in just one way, and that has the value of the expression exactly when
`asRead` has; it does if the term is grouped. -/
theorem rendersFaithfully_iff {symbols : SymbolMap} {e : Expr Double} (h : Renderable symbols e) :
    (∃ text x, render symbols e = .ok text ∧ Reading text x ∧ ∀ y, Reading text y → y = x) ∧
      (RendersFaithfully symbols e ↔
        ∀ σ : String → ℝ, e.Defined (fun name => σ (symbols.resolve name)) →
          (asRead e).value? (fun name => σ (symbols.resolve name)) =
            some (e.value (.usual fun name => σ (symbols.resolve name)))) ∧
      ((Term.ofExpr e).grouped = true → RendersFaithfully symbols e) := by
  obtain ⟨text, x, htext, hreading, -⟩ := exists_reading h
  exact ⟨⟨text, x, htext, hreading, fun y hy => reading_unique hy hreading⟩,
    faithful_iff_asRead h, faithful_of_grouped h⟩

/-- The text `2.0/sqrt(dp->rhoa + dp->rhob)`. -/
theorem rendersFaithfully_inverse_root :
    Renderable .density
        (.mul (.num two) (.pow (.add (.sym "ra") (.sym "rb")) (.num minusHalf)) : Expr Double) ∧
      RendersFaithfully .density
        (.mul (.num two) (.pow (.add (.sym "ra") (.sym "rb")) (.num minusHalf)) : Expr Double) := by
  have htwo : RoundTrips (two : Double) :=
    .of_texts "2" "2.0" (by decide) (by decide) (by decide) (by decide)
      (by decide)
  have hminusHalf : RoundTrips (minusHalf : Double) :=
    .of_texts "-0.5" "-0.5" (by decide) (by decide) (by decide)
      (by decide) (by decide)
  have hra : IsOperand (SymbolMap.density.resolve "ra").toList :=
    .arrow (p := ['d', 'p']) (w := ['r', 'h', 'o', 'a']) (.word (by decide)) (by decide)
  have hrb : IsOperand (SymbolMap.density.resolve "rb").toList :=
    .arrow (p := ['d', 'p']) (w := ['r', 'h', 'o', 'b']) (.word (by decide)) (by decide)
  have h : Renderable .density
      (.mul (.num two) (.pow (.add (.sym "ra") (.sym "rb")) (.num minusHalf)) : Expr Double) :=
    ⟨htwo, ⟨hra, hrb⟩, hminusHalf⟩
  exact ⟨h, (rendersFaithfully_iff h).2.2 (by decide)⟩

/-- The text for `ra/(1/rb)` has no parentheses: where both densities are two it
is read as one and not as four. -/
theorem not_rendersFaithfully_div_inverse :
    Renderable .constants
        (.div (.sym "ra") (.pow (.sym "rb") (.num minusOne)) : Expr Double) ∧
      render .constants (.div (.sym "ra") (.pow (.sym "rb") (.num minusOne)) : Expr Double) =
        .ok "ra/1.0/rb" ∧
      ¬RendersFaithfully .constants
        (.div (.sym "ra") (.pow (.sym "rb") (.num minusOne)) : Expr Double) := by
  have hminusOne : RoundTrips (minusOne : Double) :=
    .of_texts "-1" "-1.0" (by decide) (by decide) (by decide)
      (by decide) (by decide)
  have h : Renderable .constants
      (.div (.sym "ra") (.pow (.sym "rb") (.num minusOne)) : Expr Double) :=
    ⟨.word (w := ['r', 'a']) (by decide), .word (w := ['r', 'b']) (by decide), hminusOne⟩
  refine ⟨h, by decide, fun hfaithful => ?_⟩
  have hequal := div_eq_mul_of_faithful_div_inverse h rfl rfl rfl hfaithful (σ := fun _ => 2)
    (Expr.defined_div.mpr ⟨trivial, trivial, two_ne_zero⟩)
  norm_num at hequal

end Doubles

end DensityKernel.C
