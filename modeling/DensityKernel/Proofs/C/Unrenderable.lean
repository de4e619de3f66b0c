import DensityKernel.Proofs.C.Term
import DensityKernel.Proofs.Outcome

/-!
Expressions without C text. Rendering computes nothing and looks a function up
only where it is called, so an error names a literal of the expression that is
not finite or a call in it that is not registered (`render_eq_error`).
-/

namespace DensityKernel.C

variable {K : Type} [Literal K] [Spelling K] {symbols : SymbolMap} {P : Error → Prop}

/-- Whatever the style of literals, a term that has no text fails with an error of some kind. -/
def TextFails (symbols : SymbolMap) (P : Error → Prop) (t : Term K) : Prop :=
  ∀ floating error, t.text symbols floating = .error error → P error

/-- The error for a literal without C text. -/
def nonFinite (x : K) : Error :=
  .unrenderable (.nonFinite (Spelling.plain x))

/-! ### Literals -/

section Literals

variable {floating : Bool} {x : K} {error : Error}

theorem numberText_eq_error (h : numberText x = .error error) :
    Literal.isFinite x = false ∧ error = nonFinite x := by
  unfold numberText at h
  split_ifs at h with hfinite
  cases h
  exact ⟨Bool.eq_false_iff.mpr hfinite, rfl⟩

theorem literalText_eq_error (h : literalText floating x = .error error) :
    Literal.isFinite x = false ∧ error = nonFinite x := by
  cases floating with
  | false => exact numberText_eq_error h
  | true =>
    rcases bind_eq_error_iff.mp h with h | ⟨text, -, h⟩
    · exact numberText_eq_error h
    · cases h

theorem leadText_eq_error {coefficient : Option K} (h : leadText floating coefficient = .error error) :
    ∃ c ∈ coefficient, Literal.isFinite c = false ∧ error = nonFinite c := by
  unfold leadText at h
  split at h
  · cases h
  · next c =>
    split_ifs at h
    rcases bind_eq_error_iff.mp h with h | ⟨text, -, h⟩
    · exact ⟨c, rfl, literalText_eq_error h⟩
    · cases h

/-- The text of a product fails at its coefficient. -/
theorem productText_eq_error {coefficient : Option K} {factors : List String}
    {divisor : Option String} (h : productText floating coefficient factors divisor = .error error) :
    ∃ c ∈ coefficient, Literal.isFinite c = false ∧ error = nonFinite c := by
  unfold productText at h
  split at h
  · next c => exact ⟨c, rfl, literalText_eq_error h⟩
  · cases h
  · cases h
  · next c _ =>
    split_ifs at h
    rcases bind_eq_error_iff.mp h with h | ⟨text, -, h⟩
    · have hfloat : literalText true c = .error error := h
      exact ⟨c, rfl, literalText_eq_error hfloat⟩
    · cases h
  · rcases bind_eq_error_iff.mp h with h | ⟨lead, -, h⟩
    · exact leadText_eq_error h
    · cases h

end Literals

/-! ### Terms -/

namespace TextFails

variable {u v base exponent : Term K}

theorem literal {x : K} (h : Literal.isFinite x = false → P (nonFinite x)) :
    TextFails symbols P (.literal x) := by
  intro floating error herror
  obtain ⟨hfinite, rfl⟩ := literalText_eq_error herror
  exact h hfinite

theorem symbol (name : String) : TextFails symbols P (.symbol name : Term K) := by
  intro floating error herror
  cases herror

/-- Two texts put together fail with the error of one of them. -/
theorem both {floating floating' : Bool} {join : String → String → String} {error : Error}
    (hu : TextFails symbols P u) (hv : TextFails symbols P v)
    (h : (do
      let left ← u.text symbols floating
      let right ← v.text symbols floating'
      .ok (join left right)) = .error error) : P error := by
  rcases bind_eq_error_iff.mp h with h | ⟨left, -, h⟩
  · exact hu _ _ h
  · rcases bind_eq_error_iff.mp h with h | ⟨right, -, h⟩
    · exact hv _ _ h
    · cases h

theorem sum (hu : TextFails symbols P u) (hv : TextFails symbols P v) :
    TextFails symbols P (.sum u v) := by
  intro floating error h
  rw [Term.text] at h
  exact both hu hv h

theorem difference (hu : TextFails symbols P u) (hv : TextFails symbols P v) :
    TextFails symbols P (.difference u v) := by
  intro floating error h
  rw [Term.text] at h
  exact both hu hv h

theorem quotient (hu : TextFails symbols P u) (hv : TextFails symbols P v) :
    TextFails symbols P (.quotient u v) := by
  intro floating error h
  rw [Term.text] at h
  exact both hu hv h

theorem reciprocal {root : Bool} (hbase : TextFails symbols P base) :
    TextFails symbols P (.reciprocal root base) := by
  intro floating error h
  rw [Term.text] at h
  rcases bind_eq_error_iff.mp h with h | ⟨text, -, h⟩
  · exact hbase _ _ h
  · cases h

theorem power (hbase : TextFails symbols P base) (hexponent : TextFails symbols P exponent) :
    TextFails symbols P (.power base exponent) := by
  intro floating error h
  rw [Term.text.eq_def] at h
  rcases bind_eq_error_iff.mp h with h | ⟨baseText, -, h⟩
  · exact hbase _ _ h
  · split at h
    · split_ifs at h
      rcases bind_eq_error_iff.mp h with h | ⟨text, -, h⟩
      · exact hexponent floating _ h
      · cases h
    · rcases bind_eq_error_iff.mp h with h | ⟨text, -, h⟩
      · exact hexponent _ _ h
      · cases h

theorem call {name : String} {args : List (Term K)}
    (hname : Elementary.lookup? name args.length = none → P (.unrenderable (.noFunction name)))
    (hargs : ∀ a ∈ args, TextFails symbols P a) : TextFails symbols P (.call name args) := by
  have htexts : ∀ floating error, Term.argTexts symbols floating args = .error error → P error := by
    intro floating error h
    clear hname
    induction args with
    | nil => cases h
    | cons a args ih =>
      obtain ⟨ha, hrest⟩ := List.forall_mem_cons.mp hargs
      rw [Term.argTexts] at h
      rcases bind_eq_error_iff.mp h with h | ⟨text, -, h⟩
      · exact ha _ _ h
      · rcases bind_eq_error_iff.mp h with h | ⟨texts, -, h⟩
        · exact ih hrest h
        · cases h
  intro floating error h
  rw [Term.text] at h
  split at h
  · next hlookup =>
    cases h
    exact hname hlookup
  · rcases bind_eq_error_iff.mp h with h | ⟨texts, -, h⟩
    · exact htexts _ _ h
    · cases h

end TextFails

/-! ### Products -/

section Products

variable {fs : List (Term K)} {floating : Bool} {error : Error}

theorem divisorTexts_eq_error (h : ∀ f ∈ fs, Term.Factor (TextFails symbols P) f)
    (herror : Term.divisorTexts symbols floating fs = .error error) : P error := by
  induction fs with
  | nil => cases herror
  | cons f fs ih =>
    obtain ⟨hf, hrest⟩ := List.forall_mem_cons.mp h
    cases f with
    | reciprocal root base =>
      rw [Term.divisorTexts] at herror
      rcases bind_eq_error_iff.mp herror with herror | ⟨text, -, herror⟩
      · exact (show TextFails symbols P base from hf) _ _ herror
      · rcases bind_eq_error_iff.mp herror with herror | ⟨texts, -, herror⟩
        · exact ih hrest herror
        · cases herror
    | literal | symbol | call | sum | difference | quotient | power | product =>
      exact ih hrest herror

theorem factorTexts_eq_error (h : ∀ f ∈ fs, Term.Factor (TextFails symbols P) f)
    (herror : Term.factorTexts symbols floating fs = .error error) : P error := by
  induction fs with
  | nil => cases herror
  | cons f fs ih =>
    obtain ⟨hf, hrest⟩ := List.forall_mem_cons.mp h
    rw [Term.factorTexts] at herror
    split_ifs at herror
    · exact ih hrest herror
    · rcases bind_eq_error_iff.mp herror with herror | ⟨text, -, herror⟩
      · exact hf.of_reciprocal TextFails.reciprocal _ _ herror
      · rcases bind_eq_error_iff.mp herror with herror | ⟨texts, -, herror⟩
        · exact ih hrest herror
        · cases herror

/-- A coefficient that is not finite is a factor that has no text. -/
theorem splitCoefficient_fails (h : ∀ f ∈ fs, Term.Factor (TextFails symbols P) f) :
    ∀ c ∈ (Term.splitCoefficient fs).1, Literal.isFinite c = false → P (nonFinite c) := by
  intro c hc hfinite
  have hliteral : TextFails symbols P (Term.literal c) :=
    h _ (Term.literal_mem_of_mem_splitCoefficient hc)
  refine hliteral false _ ?_
  rw [Term.text, literalText, if_neg Bool.false_ne_true, numberText,
    if_neg (Bool.eq_false_iff.mp hfinite)]
  rfl

theorem TextFails.product (h : ∀ f ∈ fs, Term.Factor (TextFails symbols P) f) :
    TextFails symbols P (.product fs) := by
  intro floating error herror
  rw [Term.text_product] at herror
  rcases bind_eq_error_iff.mp herror with herror | ⟨divisors, -, herror⟩
  · exact divisorTexts_eq_error h herror
  rcases bind_eq_error_iff.mp herror with herror | ⟨factors, -, herror⟩
  · exact factorTexts_eq_error (fun f hf => h f (Term.mem_of_mem_splitCoefficient hf)) herror
  · obtain ⟨c, hc, hfinite, rfl⟩ := productText_eq_error herror
    exact splitCoefficient_fails h c hc hfinite

end Products

theorem TextFails.compositional : Term.Compositional (TextFails (K := K) symbols P) where
  sum := .sum
  difference := .difference
  quotient := .quotient
  power := .power
  reciprocal := .reciprocal
  product _ := .product

/-! ### Expressions -/

/-- **An expression has no C text only because of one of its nodes:** a literal that is not finite
or a call that is not registered. -/
theorem render_eq_error {e : Expr K} {error : Error} (h : render symbols e = .error error) :
    (∃ x ∈ e.literals, Literal.isFinite x = false ∧ error = nonFinite x) ∨
      ∃ c ∈ e.calls, Elementary.lookup? c.1 c.2 = none ∧
        error = .unrenderable (.noFunction c.1) := by
  refine TextFails.compositional.ofExpr (P := TextFails symbols fun error =>
    (∃ x ∈ e.literals, Literal.isFinite x = false ∧ error = nonFinite x) ∨
      ∃ c ∈ e.calls, Elementary.lookup? c.1 c.2 = none ∧
        error = .unrenderable (.noFunction c.1)) ⟨?_, ?_, ?_⟩ false error h
  · exact fun x hx => .literal fun hfinite => .inl ⟨x, hx, hfinite, rfl⟩
  · exact fun s _ => .symbol s
  · intro c hc args hlength hargs
    exact .call (fun hlookup => .inr ⟨c, hc, hlength ▸ hlookup, rfl⟩) hargs

end DensityKernel.C
