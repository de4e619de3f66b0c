import DensityKernel.Literal.Double
import DensityKernel.Proofs.C.Term
import DensityKernel.Proofs.C.Text
import DensityKernel.Proofs.C.Types
import DensityKernel.Proofs.Number.Numeral

/-!
Divisions in C texts of expressions. Literals are written with points where a
quotient or a product with divisors is computed from literals only, and these
points are asked for at the top and passed on to the parts. So every text that
stands in front of a slash is of type double, and the text of a term is if it is
asked for points or is not made of literals alone: C never divides an integer by
an integer (`render_divides_no_integers`).
-/

namespace DensityKernel.C

open Literal

/-! ### Pieces of texts -/

section Pieces

variable {K : Type} {floating floating' : Bool} {text : String}

theorem TypedSigned.dividedBy {divisor : Option String}
    (h : TypedSigned floating text.toList)
    (hfloating : divisor.isSome = true → floating = true)
    (hd : ∀ d ∈ divisor, TypedSigned false d.toList) :
    TypedSigned floating (text ++ (divisor.map ("/" ++ ·)).getD "").toList := by
  cases divisor with
  | none =>
    rw [String.toList_append]
    exact (List.append_nil text.toList).symm ▸ h
  | some d =>
    have hmark : ('/', Operator.div) ∈ factorMarks := by decide
    have hjoin := h.join hmark (hd d rfl).multiplicative fun _ => hfloating rfl
    rw [Bool.or_false] at hjoin
    rw [String.toList_append, Option.map_some, Option.getD_some, String.toList_append]
    exact hjoin

/-- Texts with asterisks between them are of type double if one of them is. -/
theorem TypedSigned.intercalate {texts : List String} {flags : List Bool}
    (h : TypedSigned floating text.toList)
    (htexts : List.Forall₂ (fun (t : String) flag => Typed .multiplicative flag t.toList)
      texts flags) :
    TypedSigned (floating || flags.any id) (String.intercalate "*" (text :: texts)).toList := by
  induction htexts generalizing text floating with
  | nil => exact h.mono (by simp)
  | @cons t flag texts flags ht _ ih =>
    have hmark : ('*', Operator.mul) ∈ factorMarks := by decide
    have hjoined : TypedSigned (floating || flag) (text ++ "*" ++ t).toList := by
      rw [String.toList_append, String.toList_append, List.append_assoc]
      exact h.join hmark ht nofun
    have hrest := ih hjoined
    rwa [Bool.or_assoc] at hrest

theorem isSome_joinDivisors {texts : List String} :
    (joinDivisors texts).isSome = true ↔ texts ≠ [] := by
  match texts with
  | [] => simp [joinDivisors]
  | [t] => simp [joinDivisors]
  | t :: t' :: texts => simp [joinDivisors]

theorem typed_joinDivisors {texts : List String} (h : ∀ t ∈ texts, TypedSigned false t.toList) :
    ∀ d ∈ joinDivisors texts, TypedSigned false d.toList := by
  intro d hd
  match texts, h, hd with
  | [t], h, hd =>
    obtain rfl := Option.some.inj hd
    exact h t List.mem_cons_self
  | t :: t' :: texts, h, hd =>
    obtain rfl := Option.some.inj hd
    obtain ⟨ht, hrest⟩ := List.forall_mem_cons.mp h
    have hflags : List.Forall₂ (fun (t : String) flag => Typed .multiplicative flag t.toList)
        (t' :: texts) ((t' :: texts).map fun _ => false) :=
      List.forall₂_map_right_iff.mpr (List.forall₂_same.mpr fun t ht => (hrest t ht).multiplicative)
    have hproduct := (ht.intercalate hflags).multiplicative.additive.parens.forget
    rw [String.toList_append, String.toList_append]
    exact .of_primary hproduct

theorem append_intercalate (front f : String) (texts : List String) :
    front ++ String.intercalate "*" (f :: texts) =
      String.intercalate "*" ((front ++ f) :: texts) := by
  cases texts with
  | nil => rfl
  | cons t texts =>
    rw [String.intercalate_cons_cons, String.intercalate_cons_cons]
    simp only [String.append_assoc]

theorem typed_function {text : String} (f : Elementary) (h : Typed .additive floating text.toList) :
    Typed .primary true (f.cName ++ "(" ++ text ++ ")").toList := by
  have hcall := h.call (Rendered.isWord_cName f)
  rw [String.toList_append, String.toList_append, String.toList_append, List.append_assoc,
    List.append_assoc]
  exact hcall

theorem typed_float_one : Typed .primary true "1.0".toList :=
  .number ((IsNumeral.digit (c := '1') rfl).append pointZero_continues) fun _ => by decide

end Pieces

/-! ### Literals -/

section Literals

variable {K : Type} [Literal K] [Valued K] [Spelling K] [SpelledInC K] {floating : Bool}
  {text : String} {x : K}

omit [Valued K] [SpelledInC K] in
theorem hasPoint_of_floatText (h : floatText x = .ok text) : hasPoint text = true := by
  obtain ⟨plain, -, h⟩ := bind_eq_ok_iff.mp h
  cases h
  split_ifs with hpoint
  · exact hpoint
  · rw [hasPoint, String.toList_append, List.any_append]
    exact Bool.or_eq_true_iff.mpr (.inr (by decide))

/-- A literal is a numeral, after a minus if it is negative, and of type double if it is asked
for a point. -/
theorem typed_literalText (h : literalText floating x = .ok text) :
    ∃ t, Typed .primary floating t ∧ text.toList = if isNegative x then '-' :: t else t := by
  obtain ⟨text', t, htext', ht, hlist⟩ := literalText_spec (isFinite_of_literalText h) floating
  obtain rfl : text' = text := Except.ok.inj (htext'.symm.trans h)
  refine ⟨t, .number ht fun hfloating => ?_, hlist⟩
  subst hfloating
  have hpoint : text'.toList.any marksFloating = true := hasPoint_of_floatText h
  rw [hlist] at hpoint
  split at hpoint
  · exact hpoint
  · exact hpoint

theorem signed_literalText (h : literalText floating x = .ok text) :
    TypedSigned floating text.toList := by
  obtain ⟨t, ht, hlist⟩ := typed_literalText h
  rw [hlist]
  split
  · exact .negative ht
  · exact .of_primary ht

end Literals

/-! ### Terms -/

section Terms

variable {K : Type} [Literal K] {floating : Bool} {t : Term K} {cs : List Char}

/-- A text of a term is typed as the places where it may stand ask for. -/
structure TypedTerm (floating : Bool) (t : Term K) (cs : List Char) : Prop where
  sum : Typed .additive floating cs
  /-- Only sums and differences need parentheses in a product. -/
  signed : t.enclosedAfterMinus = false → TypedSigned floating cs
  /-- The factors of a product have no signs of their own. -/
  factor : t.enclosedAsFactor = false → t.isDivisor = false → (∀ fs, t ≠ .product fs) →
    Typed .primary floating cs

namespace TypedTerm

theorem of_primary (h : Typed .primary floating cs) : TypedTerm floating t cs where
  sum := h.multiplicative.additive
  signed _ := .of_primary h
  factor _ _ _ := h

theorem of_signed (h : TypedSigned floating cs)
    (ht : t.enclosedAsFactor = true ∨ t.isDivisor = true ∨ ∃ fs, t = .product fs) :
    TypedTerm floating t cs where
  sum := h.multiplicative.additive
  signed _ := h
  factor hopen hdivisor hproduct := by
    rcases ht with hclosed | hdivides | ⟨fs, rfl⟩
    · exact absurd (hopen.symm.trans hclosed) (by decide)
    · exact absurd (hdivisor.symm.trans hdivides) (by decide)
    · exact absurd rfl (hproduct fs)

theorem of_sum (h : Typed .additive floating cs) (ht : t.enclosedAfterMinus = true) :
    TypedTerm floating t cs where
  sum := h
  signed hsigned := absurd (hsigned.symm.trans ht) (by decide)
  factor hopen := absurd (hopen.symm.trans (enclosed_of_sum ht).1) (by decide)

theorem mono {floating' : Bool} (h : TypedTerm floating t cs)
    (himp : floating' = true → floating = true) : TypedTerm floating' t cs where
  sum := h.sum.mono himp
  signed hsigned := (h.signed hsigned).mono himp
  factor hopen hdivisor hproduct := (h.factor hopen hdivisor hproduct).mono himp

/-- A text in parentheses, where sums have them. -/
theorem enclosed {text : String} (h : TypedTerm floating t text.toList) {wrap : Bool}
    (hwrap : t.enclosedAfterMinus = true → wrap = true) :
    TypedSigned floating (C.enclosed wrap text).toList := by
  rw [toList_enclosed]
  cases wrap with
  | false => exact h.signed (Bool.eq_false_iff.mpr fun hsum => absurd (hwrap hsum) (by decide))
  | true => exact .of_primary h.sum.parens

/-- A divisor is a call of the square root, or its base with parentheses where it needs them. -/
theorem divisor (root : Bool) {text : String} (h : TypedTerm floating t text.toList) :
    TypedSigned false (divisorText root t text).toList := by
  cases root with
  | true => exact (TypedSigned.of_primary (typed_function .sqrt h.sum)).forget
  | false => exact (h.enclosed fun hsum => (enclosed_of_sum hsum).2.2.1).forget

end TypedTerm

variable [Spelling K] {symbols : SymbolMap} {u v base exponent : Term K}

/-- The text of a term is of type double if it is asked for points, or is not made of literals
alone. -/
def TextTyped (symbols : SymbolMap) (t : Term K) : Prop :=
  ∀ floating text, t.text symbols floating = .ok text →
    TypedTerm (floating || !t.isNumeric) t text.toList

/-- A sum, difference or quotient is not made of literals alone if one of its operands is not. -/
theorem floats_or (floating a b : Bool) :
    (floating || !(a && b)) = ((floating || !a) || (floating || !b)) := by
  revert floating a b
  decide

namespace TextTyped

theorem symbol {name : String} (h : IsDoubleOperand (symbols.resolve name)) :
    TextTyped symbols (.symbol name : Term K) := by
  intro floating text htext
  cases htext
  exact .of_primary (Typed.mono h fun _ => rfl)

theorem sum (hu : TextTyped symbols u) (hv : TextTyped symbols v) :
    TextTyped symbols (.sum u v) := by
  intro floating text h
  rw [Term.text] at h
  obtain ⟨left, hleft, h⟩ := bind_eq_ok_iff.mp h
  obtain ⟨right, hright, h⟩ := bind_eq_ok_iff.mp h
  cases h
  have hu := hu _ _ hleft
  have hv := hv _ _ hright
  refine .of_sum ?_ rfl
  rw [Term.isNumeric, floats_or, sumText]
  split
  · next rest hmerges hrest =>
    have hsigned : v.enclosedAfterMinus = false := by
      by_contra hsum
      rw [(enclosed_of_sum (Bool.eq_true_of_not_eq_false hsum)).2.2.2] at hmerges
      cases hmerges
    have htail := hv.signed hsigned
    rw [withoutMinus?_eq_some_iff.mp hrest] at htail
    have hmark : ('-', Operator.sub) ∈ termMarks := by decide
    rw [String.toList_append, String.toList_append, List.append_assoc]
    exact hu.sum.term hmark htail.stripped
  · rw [String.toList_append, String.toList_append, List.append_assoc]
    exact hu.sum.plus hv.sum

theorem difference (hu : TextTyped symbols u) (hv : TextTyped symbols v) :
    TextTyped symbols (.difference u v) := by
  intro floating text h
  rw [Term.text] at h
  obtain ⟨left, hleft, h⟩ := bind_eq_ok_iff.mp h
  obtain ⟨right, hright, h⟩ := bind_eq_ok_iff.mp h
  cases h
  have hu := hu _ _ hleft
  have hv := hv _ _ hright
  refine .of_sum ?_ rfl
  have hsum : v.enclosedAfterMinus = true →
      (v.enclosedAfterMinus || (withoutMinus? right).isSome) = true := fun hsum => by rw [hsum]; rfl
  have hmark : ('-', Operator.sub) ∈ termMarks := by decide
  rw [Term.isNumeric, floats_or, differenceText, String.toList_append, String.toList_append,
    List.append_assoc]
  exact hu.sum.term hmark (hv.enclosed hsum).multiplicative

/-- The dividend is of type double: it is asked for points if it is made of literals alone. -/
theorem quotient (hu : TextTyped symbols u) (hv : TextTyped symbols v) :
    TextTyped symbols (.quotient u v) := by
  intro floating text h
  rw [Term.text] at h
  obtain ⟨left, hleft, h⟩ := bind_eq_ok_iff.mp h
  obtain ⟨right, hright, h⟩ := bind_eq_ok_iff.mp h
  cases h
  have hfloats : (floating || u.isNumeric || !u.isNumeric) = true := by
    rw [Bool.or_assoc, Bool.or_not_self, Bool.or_true]
  have hu : TypedTerm true u left.toList := (hu _ _ hleft).mono fun _ => hfloats
  have hv := hv _ _ hright
  have hmark : ('/', Operator.div) ∈ factorMarks := by decide
  have hjoin := (hu.enclosed fun hsum => (enclosed_of_sum hsum).1).join hmark
    (hv.enclosed fun hsum => (enclosed_of_sum hsum).2.1).multiplicative fun _ => rfl
  rw [String.toList_append, String.toList_append, List.append_assoc]
  exact .of_signed (hjoin.mono fun _ => rfl) (.inl rfl)

theorem call {name : String} {args : List (Term K)} (h : ∀ a ∈ args, TextTyped symbols a) :
    TextTyped symbols (.call name args) := by
  intro floating text htext
  rw [Term.text] at htext
  split at htext
  · cases htext
  · next f hf =>
    have hlength : args.length = 1 := by
      by_contra hne
      simp [Elementary.lookup?, hne] at hf
    obtain ⟨a, rfl⟩ := List.length_eq_one_iff.mp hlength
    obtain ⟨texts, htexts, htext⟩ := bind_eq_ok_iff.mp htext
    obtain ⟨t, ht, htexts⟩ := bind_eq_ok_iff.mp htexts
    cases htexts
    cases htext
    have ha := h a List.mem_cons_self _ _ ht
    exact .of_primary ((typed_function f ha.sum).mono fun _ => rfl)

theorem reciprocal {root : Bool} (hbase : TextTyped symbols base) :
    TextTyped symbols (.reciprocal root base) := by
  intro floating text h
  rw [Term.text] at h
  obtain ⟨baseText, hbaseText, h⟩ := bind_eq_ok_iff.mp h
  cases h
  have hmark : ('/', Operator.div) ∈ factorMarks := by decide
  have hjoin := (TypedSigned.of_primary typed_float_one).join hmark
    ((hbase _ _ hbaseText).divisor root).multiplicative fun _ => rfl
  rw [String.toList_append]
  exact .of_signed (hjoin.mono fun _ => rfl) (.inr (.inl rfl))

end TextTyped

/-! ### Products -/

section Factors

variable {fs : List (Term K)}

/-- Which of the factors that are no divisors are of type double. -/
def factorFlags (floating : Bool) (fs : List (Term K)) : List Bool :=
  (fs.filter (!·.isDivisor)).map fun f => floating || !f.isNumeric

omit [Literal K] [Spelling K] in
/-- A factor is of type double if the product is asked for points, if it has a divisor, or if one
of the factors is not made of literals alone. -/
theorem any_factorFlags (hne : fs.filter (!·.isDivisor) ≠ [])
    (h : floating = true ∨ fs.any Term.isDivisor = true ∨
      ∃ f ∈ fs.filter (!·.isDivisor), f.isNumeric = false) :
    (factorFlags (floating || Term.dividesLiterals fs) fs).any id = true := by
  rw [factorFlags, List.any_map, List.any_eq_true]
  by_cases hmixed : ∃ f ∈ fs.filter (!·.isDivisor), f.isNumeric = false
  · obtain ⟨f, hf, hnumeric⟩ := hmixed
    exact ⟨f, hf, by simp [hnumeric]⟩
  · obtain ⟨f, hf⟩ := List.exists_mem_of_ne_nil _ hne
    refine ⟨f, hf, ?_⟩
    rcases h with rfl | hany | hnumeric
    · rfl
    · have hall : fs.all (fun f => f.isDivisor || f.isNumeric) = true := by
        refine List.all_eq_true.mpr fun g hg => ?_
        cases hdivisor : g.isDivisor with
        | true => rfl
        | false =>
          by_contra hnumeric
          exact hmixed ⟨g, List.mem_filter.mpr ⟨hg, by rw [hdivisor]; rfl⟩,
            Bool.eq_false_iff.mpr hnumeric⟩
      have hliterals : Term.dividesLiterals fs = true := by
        rw [Term.dividesLiterals, hany, hall]
        rfl
      simp [hliterals]
    · exact absurd hnumeric hmixed

omit [Literal K] [Spelling K] in
/-- A product that is asked for points, or is not made of literals alone, has a divisor or a factor
of type double, unless it is a literal that is asked for a point. -/
theorem floating_product (h : (floating || !fs.all Term.isNumeric) = true) :
    (fs.any Term.isDivisor || (factorFlags (floating || Term.dividesLiterals fs) fs).any id ||
      ((fs.filter (!·.isDivisor)).isEmpty && (floating || Term.dividesLiterals fs))) = true := by
  have hcases : floating = true ∨ fs.any Term.isDivisor = true ∨
      ∃ f ∈ fs.filter (!·.isDivisor), f.isNumeric = false := by
    rcases Bool.or_eq_true_iff.mp h with hfloating | hmixed
    · exact .inl hfloating
    · rw [Bool.not_eq_true_eq_eq_false, List.all_eq_false] at hmixed
      obtain ⟨f, hf, hnumeric⟩ := hmixed
      cases hdivisor : f.isDivisor with
      | true => exact .inr (.inl (List.any_eq_true.mpr ⟨f, hf, hdivisor⟩))
      | false =>
        exact .inr (.inr ⟨f, List.mem_filter.mpr ⟨hf, by rw [hdivisor]; rfl⟩,
          Bool.eq_false_iff.mpr hnumeric⟩)
  by_cases hnone : fs.filter (!·.isDivisor) = []
  · rcases hcases with hfloating | hdivisor | ⟨f, hf, -⟩
    · rw [hnone, hfloating, List.isEmpty_nil, Bool.true_or, Bool.and_self, Bool.or_true]
    · rw [hdivisor, Bool.true_or, Bool.true_or]
    · rw [hnone] at hf
      cases hf
  · rw [any_factorFlags hnone hcases, Bool.or_true, Bool.true_or]

theorem typed_divisorTexts (h : ∀ f ∈ fs, Term.Factor (TextTyped symbols) f) {texts : List String}
    (htexts : Term.divisorTexts symbols floating fs = .ok texts) :
    (∀ t ∈ texts, TypedSigned false t.toList) ∧ (texts ≠ [] ↔ fs.any Term.isDivisor = true) := by
  induction fs generalizing texts with
  | nil =>
    cases htexts
    exact ⟨List.forall_mem_nil _, by simp⟩
  | cons f fs ih =>
    obtain ⟨hf, hfs⟩ := List.forall_mem_cons.mp h
    cases f with
    | reciprocal root base =>
      rw [Term.divisorTexts] at htexts
      obtain ⟨t, ht, htexts⟩ := bind_eq_ok_iff.mp htexts
      obtain ⟨ts, hts, htexts⟩ := bind_eq_ok_iff.mp htexts
      cases htexts
      have hbase : TextTyped symbols base := hf
      refine ⟨List.forall_mem_cons.mpr ⟨(hbase _ _ ht).divisor root, (ih hfs hts).1⟩, ?_⟩
      exact iff_of_true (List.cons_ne_nil _ _) rfl
    | literal | symbol | call | sum | difference | quotient | power | product =>
      exact ih hfs htexts

/-- The text of a factor has no sign of its own. -/
theorem TypedTerm.enclosed_factor {f : Term K} {text : String}
    (hfactor : Term.Factor (TextTyped symbols) f) (hdivisor : f.isDivisor = false)
    (h : TypedTerm floating f text.toList) :
    Typed .primary floating (C.enclosed f.enclosedAsFactor text).toList := by
  rw [toList_enclosed]
  cases hwrap : f.enclosedAsFactor with
  | true => exact h.sum.parens
  | false =>
    refine h.factor hwrap hdivisor fun fs hproduct => ?_
    subst hproduct
    exact hfactor

theorem typed_factorTexts (h : ∀ f ∈ fs, Term.Factor (TextTyped symbols) f) {texts : List String}
    (htexts : Term.factorTexts symbols floating fs = .ok texts) :
    List.Forall₂ (fun (t : String) flag => Typed .primary flag t.toList) texts
      (factorFlags floating fs) := by
  induction fs generalizing texts with
  | nil =>
    cases htexts
    exact .nil
  | cons f fs ih =>
    obtain ⟨hf, hfs⟩ := List.forall_mem_cons.mp h
    rw [Term.factorTexts] at htexts
    rw [factorFlags, List.filter_cons]
    cases hdivisor : f.isDivisor with
    | true =>
      rw [hdivisor, if_pos rfl] at htexts
      exact ih hfs htexts
    | false =>
      rw [hdivisor, if_neg Bool.false_ne_true] at htexts
      obtain ⟨t, ht, htexts⟩ := bind_eq_ok_iff.mp htexts
      obtain ⟨ts, hts, htexts⟩ := bind_eq_ok_iff.mp htexts
      cases htexts
      have htyped := hf.of_reciprocal TextTyped.reciprocal _ _ ht
      exact .cons (htyped.enclosed_factor hf hdivisor) (ih hfs hts)

end Factors

theorem TextTyped.power (hbase : TextTyped symbols base) (hexponent : TextTyped symbols exponent) :
    TextTyped symbols (.power base exponent) := by
  intro floating text h
  have hpow : ∀ {b n : String} {flag flag' : Bool}, Typed .additive flag b.toList →
      Typed .additive flag' n.toList → TypedTerm (floating || !(Term.power base exponent).isNumeric)
        (.power base exponent) ("pow(" ++ b ++ ", " ++ n ++ ")").toList := by
    intro b n flag flag' hb hn
    have hcall := hb.pow hn
    exact .of_primary ((by simpa using hcall : Typed .primary true _).mono fun _ => rfl)
  rw [Term.text.eq_def] at h
  obtain ⟨baseText, hbaseText, h⟩ := bind_eq_ok_iff.mp h
  have hb := (hbase _ _ hbaseText).sum
  split at h
  · split_ifs at h
    · cases h
      exact .of_primary ((typed_function .sqrt hb).mono fun _ => rfl)
    · obtain ⟨exponentText, hexponentText, h⟩ := bind_eq_ok_iff.mp h
      cases h
      exact hpow hb (hexponent _ _ hexponentText).sum
  · obtain ⟨exponentText, hexponentText, h⟩ := bind_eq_ok_iff.mp h
    cases h
    exact hpow hb (hexponent _ _ hexponentText).sum

variable [Valued K] [SpelledInC K]

theorem TextTyped.literal (x : K) : TextTyped symbols (.literal x) := by
  intro floating text h
  rw [Term.isNumeric, Bool.not_true, Bool.or_false]
  cases hnegative : isNegative x with
  | true => exact .of_signed (signed_literalText h) (.inl hnegative)
  | false =>
    obtain ⟨t, ht, hlist⟩ := typed_literalText h
    rw [hnegative, if_neg Bool.false_ne_true] at hlist
    exact .of_primary (hlist ▸ ht)

section Products

variable {coefficient : Option K} {text lead f : String} {texts : List String} {flag : Bool}
  {flags : List Bool} {divisor : Option String}

/-- What stands before a factor leaves its type, or makes it one of type double. -/
theorem typed_leadText (hf : Typed .primary flag f.toList)
    (h : leadText floating coefficient = .ok lead) : TypedSigned flag (lead ++ f).toList := by
  unfold leadText at h
  split at h
  · cases h
    exact String.empty_append ▸ .of_primary hf
  · split_ifs at h
    · cases h
      exact String.empty_append ▸ .of_primary hf
    · cases h
      rw [String.toList_append]
      exact .negative hf
    · obtain ⟨t, ht, h⟩ := bind_eq_ok_iff.mp h
      cases h
      have hmark : ('*', Operator.mul) ∈ factorMarks := by decide
      have hjoin := (signed_literalText ht).join hmark hf.multiplicative nofun
      rw [String.toList_append, String.toList_append, List.append_assoc]
      exact hjoin.mono fun hflag => by rw [hflag, Bool.or_true]

theorem typed_divided {front t : String} (hfront : TypedSigned true front.toList)
    (ht : TypedSigned false t.toList) : TypedSigned true (front ++ "/" ++ t).toList := by
  have hmark : ('/', Operator.div) ∈ factorMarks := by decide
  have hjoin := hfront.join hmark ht.multiplicative fun _ => rfl
  rw [String.toList_append, String.toList_append, List.append_assoc]
  exact hjoin

/-- A product is of type double if it has a divisor, if one of its factors is of type double, or if
it is a literal that is asked for a point. -/
theorem typed_productText
    (htexts : List.Forall₂ (fun (t : String) flag => Typed .primary flag t.toList) texts flags)
    (hdivisor : ∀ d ∈ divisor, TypedSigned false d.toList)
    (hfloats : divisor.isSome = true → texts ≠ [] → flags.any id = true)
    (hne : coefficient = none → texts = [] → divisor.isSome = true)
    (h : productText floating coefficient texts divisor = .ok text) :
    TypedSigned (divisor.isSome || flags.any id || (texts.isEmpty && floating)) text.toList := by
  have hunit : "1.0/" = "1.0" ++ "/" := by decide
  have hminusUnit : "-1.0/" = "-1.0" ++ "/" := by decide
  unfold productText at h
  split at h
  · cases htexts
    exact (signed_literalText h).mono (by simp)
  · cases hne rfl rfl
  · next d =>
    cases h
    have hdivided := typed_divided (.of_primary typed_float_one) (hdivisor d rfl)
    rw [hunit]
    exact hdivided.mono fun _ => rfl
  · next c d =>
    have hd := hdivisor d rfl
    split_ifs at h
    · cases h
      have hfront : TypedSigned true "-1.0".toList := .negative typed_float_one
      have hdivided := typed_divided hfront hd
      rw [hminusUnit]
      exact hdivided.mono fun _ => rfl
    · cases h
      have hdivided := typed_divided (.of_primary typed_float_one) hd
      rw [hunit]
      exact hdivided.mono fun _ => rfl
    · obtain ⟨t, ht, h⟩ := bind_eq_ok_iff.mp h
      cases h
      have hfloat : literalText true c = .ok t := ht
      exact (typed_divided (signed_literalText hfloat) hd).mono fun _ => rfl
  · next f fs =>
    obtain ⟨lead, hlead, h⟩ := bind_eq_ok_iff.mp h
    cases h
    obtain _ | ⟨hf, hfs⟩ := htexts
    have hfactors := (typed_leadText hf hlead).intercalate (hfs.imp fun _ _ ht => ht.multiplicative)
    rw [← append_intercalate] at hfactors
    refine (hfactors.dividedBy (fun hsome => hfloats hsome (List.cons_ne_nil _ _)) hdivisor).mono ?_
    intro hflag
    rcases Bool.or_eq_true_iff.mp hflag with hflag | hempty
    · rcases Bool.or_eq_true_iff.mp hflag with hsome | hflag
      · exact hfloats hsome (List.cons_ne_nil _ _)
      · exact hflag
    · cases hempty

end Products

theorem TextTyped.product {fs : List (Term K)} (hne : fs ≠ [])
    (h : ∀ f ∈ fs, Term.Factor (TextTyped symbols) f) : TextTyped symbols (.product fs) := by
  intro floating text htext
  rw [Term.text_product] at htext
  obtain ⟨divisors, hdivisors, htext⟩ := bind_eq_ok_iff.mp htext
  obtain ⟨factors, hfactors, htext⟩ := bind_eq_ok_iff.mp htext
  have hsplit := Term.splitCoefficient_append fs
  have hany := Term.any_isDivisor_splitCoefficient fs
  have hall := Term.all_isNumeric_splitCoefficient fs
  generalize Term.splitCoefficient fs = split at hsplit hany hall hfactors htext
  obtain ⟨coefficient, rest⟩ := split
  dsimp only at hsplit hany hall hfactors htext
  have hrest : ∀ f ∈ rest, Term.Factor (TextTyped symbols) f :=
    fun f hf => h f (hsplit ▸ List.mem_append_right _ hf)
  obtain ⟨hsigned, hdivides⟩ := typed_divisorTexts h hdivisors
  have hsome : (joinDivisors divisors).isSome = rest.any Term.isDivisor := by
    rw [Bool.eq_iff_iff, isSome_joinDivisors, hdivides, hany]
  have htyped := typed_factorTexts hrest hfactors
  have hempty : factors = [] ↔ rest.filter (!·.isDivisor) = [] := by
    rw [← List.length_eq_zero_iff, htyped.length_eq, factorFlags, List.length_map,
      List.length_eq_zero_iff]
  have hproduct := typed_productText htyped (typed_joinDivisors hsigned)
    (fun hdivisor hne => any_factorFlags (mt hempty.mpr hne) (.inr (.inl (hsome ▸ hdivisor))))
    ?_ htext
  · refine .of_signed (hproduct.mono fun hflag => ?_) (.inr (.inr ⟨fs, rfl⟩))
    have hisEmpty : factors.isEmpty = (rest.filter (!·.isDivisor)).isEmpty := by
      rw [Bool.eq_iff_iff, List.isEmpty_iff, List.isEmpty_iff, hempty]
    rw [Term.isNumeric, ← hall] at hflag
    rw [hsome, hisEmpty]
    exact floating_product hflag
  · rintro rfl hnone
    obtain rfl : rest = fs := hsplit
    obtain ⟨f, hf⟩ := List.exists_mem_of_ne_nil _ hne
    have hdivisor := List.filter_eq_nil_iff.mp (hempty.mp hnone) f hf
    rw [hsome]
    exact List.any_eq_true.mpr ⟨f, hf, by simpa using hdivisor⟩

theorem TextTyped.compositional : Term.Compositional (TextTyped (K := K) symbols) where
  sum := .sum
  difference := .difference
  quotient := .quotient
  power := .power
  reciprocal := .reciprocal
  product := .product

/-- **The text of a term** is typed. -/
theorem textTyped_ofExpr {e : Expr K} (h : e.Over fun s => IsDoubleOperand (symbols.resolve s)) :
    TextTyped symbols (Term.ofExpr e) :=
  TextTyped.compositional.ofExpr
    { literal := fun x _ => .literal x
      symbol := fun s hs => .symbol (h s hs)
      call := fun _ _ _ _ hargs => .call hargs }

end Terms

/-! ### Texts of expressions -/

/-- **C never divides an integer by an integer.** Where the symbols are operands of type double, C
reads the text of an expression in just one way, and no division in it is one of integers, whatever
the expression and its literals. -/
theorem render_divides_no_integers {symbols : SymbolMap} {e : Expr Double} {text : String}
    (hsymbols : ∀ s ∈ e.symbols, IsDoubleOperand (symbols.resolve s))
    (h : render symbols e = .ok text) :
    ∃ x, Reading text x ∧ (∀ y, Reading text y → y = x) ∧ x.dividesIntegers = false := by
  obtain ⟨ts, x, hlex, hreads, hdivides, -⟩ := (textTyped_ofExpr hsymbols false text h).sum
  have hreading : Reading text x := ⟨ts, hlex.lex_eq, hreads⟩
  exact ⟨x, hreading, fun y hy => reading_unique hy hreading, hdivides⟩

/-- The literals in front of a slash are written with points, the one after it is not. -/
theorem render_quotient_of_literals :
    let e : Expr Double :=
      .add (.sym "ra")
        (.mul (.num two) (.mul (.num (ofInt 3)) (.pow (.num (ofInt 5)) (.num minusOne))))
    (∀ s ∈ e.symbols, IsDoubleOperand (SymbolMap.density.resolve s)) ∧
      render .density e = .ok "dp->rhoa + 2.0*3.0/5" ∧
      ∃ x, Reading "dp->rhoa + 2.0*3.0/5" x ∧ (∀ y, Reading "dp->rhoa + 2.0*3.0/5" y → y = x) ∧
        x.dividesIntegers = false := by
  intro e
  have htext : render .density e = .ok "dp->rhoa + 2.0*3.0/5" := by decide +kernel
  have hra : IsOperand (SymbolMap.density.resolve "ra").toList :=
    .arrow (p := ['d', 'p']) (w := ['r', 'h', 'o', 'a']) (.word (by decide)) (by decide)
  have hsymbols : ∀ s ∈ e.symbols, IsDoubleOperand (SymbolMap.density.resolve s) :=
    List.forall_mem_singleton.mpr hra.isDoubleOperand
  exact ⟨hsymbols, htext, render_divides_no_integers hsymbols htext⟩

end DensityKernel.C
