import DensityKernel.C.Statement
import DensityKernel.Proofs.C.Literal
import DensityKernel.Proofs.C.Unrenderable
import DensityKernel.Proofs.Number.RealValue

/-!
Rendering looks at every node. A term that has a text has finite literals and
registered calls only (`checked_of_text`), whichever way its literals are written:
a coefficient one is left out of a product, an exponent makes a root or a divisor,
but such literals are known to be finite. So an expression fails to have a C text
exactly for the sake of one of its nodes, and a block of derivatives for the sake
of one of its entries (`render_fails_iff`).
-/

namespace DensityKernel.C

open Literal

variable {K : Type} [Literal K]

/-! ### Checked terms -/

namespace Term

mutual

/-- The literals are finite and the calls are registered. -/
def Checked : Term K → Prop
  | .literal x => isFinite x = true
  | .symbol _ => True
  | .call name args => (Elementary.lookup? name args.length).isSome = true ∧ AllChecked args
  | .sum u v | .difference u v | .quotient u v | .power u v => u.Checked ∧ v.Checked
  | .reciprocal _ base => base.Checked
  | .product fs => AllChecked fs

def AllChecked : List (Term K) → Prop
  | [] => True
  | t :: ts => t.Checked ∧ AllChecked ts

end

theorem allChecked_iff {ts : List (Term K)} : AllChecked ts ↔ ∀ t ∈ ts, t.Checked := by
  induction ts with
  | nil => exact iff_of_true trivial (List.forall_mem_nil _)
  | cons t ts ih => rw [AllChecked, ih, List.forall_mem_cons]

/-- The factors of a term are checked if the term is. -/
theorem checked_iff_factors {t : Term K} : t.Checked ↔ ∀ f ∈ t.factors, f.Checked := by
  cases t with
  | product fs => exact allChecked_iff
  | literal | symbol | call | sum | difference | quotient | power | reciprocal =>
    exact List.forall_mem_singleton.symm

theorem checked_mul {u v : Term K} : (u.mul v).Checked ↔ u.Checked ∧ v.Checked := by
  rw [mul, Checked, allChecked_iff, List.forall_mem_append, ← checked_iff_factors,
    ← checked_iff_factors]

/-- An exponent that makes a divisor is finite. -/
theorem checked_pow [Valued K] {base exponent : Term K} :
    (pow base exponent).Checked ↔ base.Checked ∧ exponent.Checked := by
  unfold pow
  split
  · next n =>
    split_ifs with hone hhalf
    · exact ⟨fun h => ⟨h, (isMinusOne_iff.mp hone).1⟩, And.left⟩
    · exact ⟨fun h => ⟨h, ((Valued.eq_iff isFinite_minusHalf).mp hhalf).1⟩, And.left⟩
    · rfl
  · rfl

end Term

/-- A node of the expression has no C text: a literal that is not finite, or a call of a function
that is not registered with that number of arguments. -/
def HasFault (e : Expr K) : Prop :=
  (∃ x ∈ e.literals, isFinite x = false) ∨ ∃ c ∈ e.calls, Elementary.lookup? c.1 c.2 = none

/-- An expression and its term have the same nodes, but for exponents of divisors. -/
theorem not_hasFault_iff [Valued K] {e : Expr K} : ¬HasFault e ↔ (Term.ofExpr e).Checked := by
  have hnodes : ¬HasFault e ↔ e.FiniteLiterals ∧ e.Registered := by
    simp [HasFault, Expr.FiniteLiterals, Expr.registered_iff, Option.isSome_iff_ne_none]
  rw [hnodes]
  clear hnodes
  induction e with
  | num x =>
    rw [Expr.hereditaryIn_finiteLiterals.num]
    exact and_iff_left trivial
  | sym s => exact iff_of_true ⟨List.forall_mem_nil _, trivial⟩ trivial
  | call name args ih =>
    have hliterals : (Expr.call name args).FiniteLiterals ↔ ∀ a ∈ args, a.FiniteLiterals := by
      simp only [Expr.FiniteLiterals, Expr.mem_literals_call, forall_exists_index, and_imp]
      exact ⟨fun h a ha x hx => h x a ha hx, fun h x a ha hx => h a ha x hx⟩
    rw [Term.ofExpr, Term.Checked, Term.allChecked_iff, Term.ofExprs_eq_map, List.length_map,
      List.forall_mem_map, Expr.registered_call_iff, hliterals, and_left_comm, ← forall₂_and]
    exact and_congr_right fun _ => forall₂_congr ih
  | binary op u v ihu ihv =>
    rw [Expr.finiteLiterals_binary, Expr.Registered, and_and_and_comm, Term.ofExpr]
    refine (and_congr ihu ihv).trans ?_
    cases op with
    | add | sub | div => rfl
    | mul => exact Term.checked_mul.symm
    | pow => exact Term.checked_pow.symm

/-! ### Texts of terms -/

section Texts

variable [Spelling K] {symbols : SymbolMap} {floating : Bool}

/-- The text of a term is there only if the term is checked. -/
def ChecksText (symbols : SymbolMap) (t : Term K) : Prop :=
  ∀ floating text, t.text symbols floating = .ok text → t.Checked

theorem allChecked_of_argTexts {args : List (Term K)} {texts : List String}
    (hargs : ∀ a ∈ args, ChecksText symbols a)
    (h : Term.argTexts symbols floating args = .ok texts) : Term.AllChecked args := by
  induction args generalizing texts with
  | nil => trivial
  | cons a args ih =>
    obtain ⟨ha, hrest⟩ := List.forall_mem_cons.mp hargs
    rw [Term.argTexts] at h
    obtain ⟨text, htext, h⟩ := bind_eq_ok_iff.mp h
    obtain ⟨texts, htexts, -⟩ := bind_eq_ok_iff.mp h
    exact ⟨ha _ _ htext, ih hrest htexts⟩

/-- The divisors of a product are rendered when their texts are, -/
theorem checked_of_divisorTexts {fs : List (Term K)} {texts : List String}
    (hfs : ∀ f ∈ fs, Term.Factor (ChecksText symbols) f)
    (h : Term.divisorTexts symbols floating fs = .ok texts) :
    ∀ f ∈ fs, f.isDivisor = true → f.Checked := by
  induction fs generalizing texts with
  | nil => exact List.forall_mem_nil _
  | cons f fs ih =>
    obtain ⟨hf, hrest⟩ := List.forall_mem_cons.mp hfs
    refine List.forall_mem_cons.mpr ?_
    cases f with
    | reciprocal root base =>
      rw [Term.divisorTexts] at h
      obtain ⟨text, htext, h⟩ := bind_eq_ok_iff.mp h
      obtain ⟨texts, htexts, -⟩ := bind_eq_ok_iff.mp h
      exact ⟨fun _ => hf _ _ htext, ih hrest htexts⟩
    | literal | symbol | call | sum | difference | quotient | power | product =>
      exact ⟨fun hdivisor => absurd hdivisor Bool.false_ne_true, ih hrest h⟩

/-- and so are its other factors. -/
theorem checked_of_factorTexts {fs : List (Term K)} {texts : List String}
    (hfs : ∀ f ∈ fs, Term.Factor (ChecksText symbols) f)
    (h : Term.factorTexts symbols floating fs = .ok texts) :
    ∀ f ∈ fs, f.isDivisor = false → f.Checked := by
  induction fs generalizing texts with
  | nil => exact List.forall_mem_nil _
  | cons f fs ih =>
    obtain ⟨hf, hrest⟩ := List.forall_mem_cons.mp hfs
    rw [Term.factorTexts] at h
    refine List.forall_mem_cons.mpr ?_
    split_ifs at h with hdivisor
    · exact ⟨fun hnot => absurd (hdivisor.symm.trans hnot) (by decide), ih hrest h⟩
    · obtain ⟨text, htext, h⟩ := bind_eq_ok_iff.mp h
      obtain ⟨texts, htexts, -⟩ := bind_eq_ok_iff.mp h
      refine ⟨fun _ => ?_, ih hrest htexts⟩
      cases f with
      | reciprocal => exact absurd rfl hdivisor
      | product => exact hf.elim
      | literal | symbol | call | sum | difference | quotient | power => exact hf _ _ htext

variable [Valued K]

/-- A coefficient is finite, whether it is written or, being one or minus one, is not. -/
theorem isFinite_of_productText {c : K} {factors : List String} {divisor : Option String}
    {text : String} (h : productText floating (some c) factors divisor = .ok text) :
    isFinite c = true := by
  by_cases hone : isOne c = true
  · exact (isOne_iff.mp hone).1
  by_cases hminus : isMinusOne c = true
  · exact (isMinusOne_iff.mp hminus).1
  cases factors with
  | nil =>
    cases divisor with
    | none => exact isFinite_of_literalText h
    | some d =>
      rw [productText, if_neg hminus, if_neg hone] at h
      obtain ⟨text, htext, -⟩ := bind_eq_ok_iff.mp h
      have hfloat : literalText true c = .ok text := htext
      exact isFinite_of_literalText hfloat
  | cons f fs =>
    obtain ⟨lead, hlead, -⟩ := bind_eq_ok_iff.mp h
    rw [leadText, if_neg hone, if_neg hminus] at hlead
    obtain ⟨text, htext, -⟩ := bind_eq_ok_iff.mp hlead
    exact isFinite_of_literalText htext

omit [Valued K] in
theorem ChecksText.literal (x : K) : ChecksText symbols (.literal x) := by
  intro floating text h
  exact isFinite_of_literalText h

theorem ChecksText.power {base exponent : Term K} (hbase : ChecksText symbols base)
    (hexponent : ChecksText symbols exponent) : ChecksText symbols (.power base exponent) := by
  intro floating text h
  rw [Term.text.eq_def] at h
  obtain ⟨baseText, htext, h⟩ := bind_eq_ok_iff.mp h
  refine ⟨hbase _ _ htext, ?_⟩
  split at h
  · next n =>
    split_ifs at h with hhalf
    · exact ((Valued.eq_iff isFinite_half).mp hhalf).1
    · obtain ⟨exponentText, hexponentText, -⟩ := bind_eq_ok_iff.mp h
      exact isFinite_of_literalText hexponentText
  · obtain ⟨exponentText, hexponentText, -⟩ := bind_eq_ok_iff.mp h
    exact hexponent _ _ hexponentText

theorem ChecksText.product {fs : List (Term K)}
    (hfs : ∀ f ∈ fs, Term.Factor (ChecksText symbols) f) : ChecksText symbols (.product fs) := by
  intro floating text h
  rw [Term.text_product] at h
  obtain ⟨divisors, hdivisors, h⟩ := bind_eq_ok_iff.mp h
  obtain ⟨factors, hfactors, h⟩ := bind_eq_ok_iff.mp h
  refine Term.allChecked_iff.mpr fun f hf => ?_
  rw [← Term.splitCoefficient_append fs, List.mem_append, Option.mem_toList,
    Option.map_eq_some_iff] at hf
  rcases hf with ⟨c, hc, rfl⟩ | hf
  · rw [hc] at h
    exact isFinite_of_productText h
  · cases hdivisor : f.isDivisor with
    | true =>
      exact checked_of_divisorTexts hfs hdivisors f (Term.mem_of_mem_splitCoefficient hf) hdivisor
    | false =>
      exact checked_of_factorTexts (fun f hf => hfs f (Term.mem_of_mem_splitCoefficient hf))
        hfactors f hf hdivisor

omit [Valued K] in
/-- Two texts are put together only if both are there. -/
theorem checked_of_both {u v : Term K} (hu : ChecksText symbols u) (hv : ChecksText symbols v)
    {floating' : Bool} {join : String → String → String} {text : String}
    (h : (do
      let left ← u.text symbols floating
      let right ← v.text symbols floating'
      .ok (join left right)) = .ok text) : u.Checked ∧ v.Checked := by
  obtain ⟨left, hleft, h⟩ := bind_eq_ok_iff.mp h
  obtain ⟨right, hright, -⟩ := bind_eq_ok_iff.mp h
  exact ⟨hu _ _ hleft, hv _ _ hright⟩

theorem ChecksText.compositional : Term.Compositional (ChecksText (K := K) symbols) where
  sum hu hv _ _ h := checked_of_both hu hv (by rwa [Term.text] at h)
  difference hu hv _ _ h := checked_of_both hu hv (by rwa [Term.text] at h)
  quotient hu hv _ _ h := checked_of_both hu hv (by rwa [Term.text] at h)
  power := .power
  reciprocal hbase _ _ h := by
    rw [Term.text] at h
    obtain ⟨baseText, htext, -⟩ := bind_eq_ok_iff.mp h
    exact hbase _ _ htext
  product _ := .product

/-- **A text is that of a checked term.** -/
theorem checked_of_text {e : Expr K} {text : String}
    (h : (Term.ofExpr e).text symbols floating = .ok text) : (Term.ofExpr e).Checked := by
  refine ChecksText.compositional.ofExpr ⟨fun x _ => .literal x, ?_, ?_⟩ _ _ h
  · intro s _ floating text _
    trivial
  · intro c _ args _ hargs floating text h
    rw [Term.text] at h
    split at h
    · cases h
    · next f hlookup =>
      obtain ⟨texts, htexts, -⟩ := bind_eq_ok_iff.mp h
      exact ⟨by rw [hlookup]; rfl, allChecked_of_argTexts hargs htexts⟩

/-- An expression has a C text if and only if no node of it has a fault. -/
theorem exists_render_iff (symbols : SymbolMap) {e : Expr K} :
    (∃ text, render symbols e = .ok text) ↔ ¬HasFault e := by
  constructor
  · rintro ⟨text, h⟩
    exact not_hasFault_iff.mpr (checked_of_text h)
  · intro hnone
    cases h : render symbols e with
    | ok text => exact ⟨text, rfl⟩
    | error error =>
      rcases render_eq_error h with ⟨x, hx, hfinite, -⟩ | ⟨c, hc, hlookup, -⟩
      · exact absurd (.inl ⟨x, hx, hfinite⟩) hnone
      · exact absurd (.inr ⟨c, hc, hlookup⟩) hnone

omit [Valued K] in
theorem exists_unrenderable_of_render {e : Expr K} {error : Error}
    (h : render symbols e = .error error) : ∃ fault, error = .unrenderable fault := by
  rcases render_eq_error h with ⟨x, -, -, rfl⟩ | ⟨c, -, -, rfl⟩
  · exact ⟨_, rfl⟩
  · exact ⟨_, rfl⟩

end Texts

/-! ### Doubles -/

/-- **Rendering fails exactly when it must:** for the sake of a literal that is not finite or of a
call that is not registered, wherever in the expression, and with the error that names it. A block
is written if and only if no entry of it has such a node. -/
theorem render_fails_iff (symbols : SymbolMap) (e : Expr Double) (format : StatementFormat)
    (table : DerivativeTable Double) (order : DerivativeOrder) :
    ((∃ error, render symbols e = .error error) ↔ HasFault e) ∧
      (∀ error, render symbols e = .error error →
        (∃ x ∈ e.literals, isFinite x = false ∧
            error = .unrenderable (.nonFinite (Spelling.plain x))) ∨
          ∃ c ∈ e.calls, Elementary.lookup? c.1 c.2 = none ∧
            error = .unrenderable (.noFunction c.1)) ∧
      ((∃ text, format.block table order = .ok text) ↔
        ∀ entry ∈ table.upTo order, ¬HasFault entry.2) ∧
      ∀ error, format.block table order = .error error → ∃ fault, error = .unrenderable fault := by
  refine ⟨?_, fun error h => render_eq_error h, ?_, ?_⟩
  · rw [← not_iff_not, ← exists_render_iff symbols]
    cases render symbols e <;> simp
  · constructor
    · rintro ⟨text, h⟩ entry hentry
      obtain ⟨statements, hstatements, -⟩ := bind_eq_ok_iff.mp h
      obtain ⟨statement, hstatement⟩ := exists_of_mapM hstatements hentry
      obtain ⟨value, hvalue, -⟩ := bind_eq_ok_iff.mp hstatement
      exact (exists_render_iff format.symbols).mp ⟨value, hvalue⟩
    · intro hentries
      obtain ⟨statements, hstatements⟩ :
          ∃ statements, format.statements table order = .ok statements := by
        refine exists_mapM_eq_ok fun entry hentry => ?_
        obtain ⟨value, hvalue⟩ :=
          (exists_render_iff format.symbols).mpr (hentries entry hentry)
        exact ⟨_, bind_eq_ok_iff.mpr ⟨value, hvalue, rfl⟩⟩
      exact ⟨_, bind_eq_ok_iff.mpr ⟨statements, hstatements, rfl⟩⟩
  · intro error h
    rcases bind_eq_error_iff.mp h with h | ⟨statements, -, h⟩
    · obtain ⟨entry, -, h⟩ := exists_mem_of_mapM_error h
      rcases bind_eq_error_iff.mp h with h | ⟨value, -, h⟩
      · exact exists_unrenderable_of_render h
      · cases h
    · cases h

end DensityKernel.C
