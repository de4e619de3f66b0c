import DensityKernel.Proofs.C.Product
import DensityKernel.Proofs.Expr.Symbols

/-!
The characters of C texts of expressions. None of them ends a statement or a
line, opens or closes a block or assigns a value, provided that the texts of the
symbols have no such character.
-/

namespace DensityKernel.C

open Literal

/-- A character that can stand inside an expression: it ends no statement and no
line, opens and closes no block and assigns nothing. -/
def isInline (c : Char) : Bool :=
  c ∉ [';', '\x7b', '\x7d', '=', '\n']

/-- All characters of a text can stand inside an expression. -/
def Inline (text : String) : Prop :=
  text.toList.all isInline = true

instance : DecidablePred Inline :=
  fun text => inferInstanceAs (Decidable (text.toList.all isInline = true))

theorem inline_iff {text : String} : Inline text ↔ ∀ c ∈ text.toList, isInline c = true :=
  List.all_eq_true

@[simp] theorem inline_append {s t : String} : Inline (s ++ t) ↔ Inline s ∧ Inline t := by
  rw [Inline, String.toList_append, List.all_append, Bool.and_eq_true]
  rfl

theorem inline_intercalate {separator : String} (h : Inline separator) {texts : List String}
    (htexts : ∀ t ∈ texts, Inline t) : Inline (String.intercalate separator texts) := by
  cases texts with
  | nil => exact (by decide : Inline "")
  | cons t texts =>
    induction texts generalizing t with
    | nil => exact htexts t List.mem_cons_self
    | cons u texts ih =>
      obtain ⟨ht, hrest⟩ := List.forall_mem_cons.mp htexts
      rw [String.intercalate_cons_cons]
      exact inline_append.mpr ⟨inline_append.mpr ⟨ht, h⟩, ih u hrest⟩

theorem isInline_of_isWordChar {c : Char} (h : isWordChar c = true) : isInline c = true := by
  rw [isInline, decide_eq_true_iff]
  intro hmem
  simp only [List.mem_cons, List.not_mem_nil, or_false] at hmem
  rcases hmem with rfl | rfl | rfl | rfl | rfl <;> exact absurd h (by decide)

/-! ### Pieces of texts -/

section Pieces

variable {K : Type} {text left right : String}

theorem inline_enclosed (wrap : Bool) (h : Inline text) : Inline (enclosed wrap text) := by
  cases wrap with
  | false => exact h
  | true => exact inline_append.mpr ⟨inline_append.mpr ⟨by decide, h⟩, by decide⟩

theorem inline_sumText (v : Term K) (hl : Inline left) (hr : Inline right) :
    Inline (sumText v left right) := by
  unfold sumText
  split
  · next rest _ hrest =>
    have htail : Inline rest := by
      refine inline_iff.mpr fun c hc => inline_iff.mp hr c ?_
      rw [withoutMinus?_eq_some_iff.mp hrest]
      exact List.mem_cons_of_mem _ hc
    exact inline_append.mpr ⟨inline_append.mpr ⟨hl, by decide⟩, htail⟩
  · exact inline_append.mpr ⟨inline_append.mpr ⟨hl, by decide⟩, hr⟩

theorem inline_differenceText (v : Term K) (hl : Inline left) (hr : Inline right) :
    Inline (differenceText v left right) :=
  inline_append.mpr ⟨inline_append.mpr ⟨hl, by decide⟩, inline_enclosed _ hr⟩

theorem inline_divisorText (root : Bool) (base : Term K) (h : Inline text) :
    Inline (divisorText root base text) := by
  cases root with
  | false => exact inline_enclosed _ h
  | true => exact inline_append.mpr ⟨inline_append.mpr ⟨by decide, h⟩, by decide⟩

theorem inline_joinDivisors {ds : List String} (h : ∀ d ∈ ds, Inline d) :
    ∀ d ∈ joinDivisors ds, Inline d := by
  intro d hd
  match ds, hd with
  | [d'], hd =>
    obtain rfl := Option.some.inj hd
    exact h _ List.mem_cons_self
  | d₁ :: d₂ :: ds, hd =>
    obtain rfl := Option.some.inj hd
    exact inline_append.mpr
      ⟨inline_append.mpr ⟨by decide, inline_intercalate (by decide) h⟩, by decide⟩

end Pieces

/-! ### Texts of terms -/

section Terms

variable {K : Type} [Literal K] [Spelling K] {symbols : SymbolMap}

/-- Whatever the style of literals, the text of a term can stand inside an
expression. -/
def TextInline (symbols : SymbolMap) (t : Term K) : Prop :=
  ∀ floating text, t.text symbols floating = .ok text → Inline text

namespace TextInline

variable {u v base : Term K}

theorem symbol {name : String} (h : Inline (symbols.resolve name)) :
    TextInline symbols (.symbol name : Term K) := by
  intro floating text htext
  cases htext
  exact h

theorem sum (hu : TextInline symbols u) (hv : TextInline symbols v) :
    TextInline symbols (.sum u v) := by
  intro floating text h
  rw [Term.text] at h
  obtain ⟨left, hleft, h⟩ := bind_eq_ok_iff.mp h
  obtain ⟨right, hright, h⟩ := bind_eq_ok_iff.mp h
  cases h
  exact inline_sumText v (hu _ _ hleft) (hv _ _ hright)

theorem difference (hu : TextInline symbols u) (hv : TextInline symbols v) :
    TextInline symbols (.difference u v) := by
  intro floating text h
  rw [Term.text] at h
  obtain ⟨left, hleft, h⟩ := bind_eq_ok_iff.mp h
  obtain ⟨right, hright, h⟩ := bind_eq_ok_iff.mp h
  cases h
  exact inline_differenceText v (hu _ _ hleft) (hv _ _ hright)

theorem quotient (hu : TextInline symbols u) (hv : TextInline symbols v) :
    TextInline symbols (.quotient u v) := by
  intro floating text h
  rw [Term.text] at h
  obtain ⟨left, hleft, h⟩ := bind_eq_ok_iff.mp h
  obtain ⟨right, hright, h⟩ := bind_eq_ok_iff.mp h
  cases h
  exact inline_append.mpr ⟨inline_append.mpr ⟨inline_enclosed _ (hu _ _ hleft), by decide⟩,
    inline_enclosed _ (hv _ _ hright)⟩

theorem reciprocal {root : Bool} (hbase : TextInline symbols base) :
    TextInline symbols (.reciprocal root base) := by
  intro floating text h
  rw [Term.text] at h
  obtain ⟨baseText, hbaseText, h⟩ := bind_eq_ok_iff.mp h
  cases h
  exact inline_append.mpr ⟨by decide, inline_divisorText _ _ (hbase _ _ hbaseText)⟩

theorem argTexts {args : List (Term K)} (h : ∀ a ∈ args, TextInline symbols a) {floating : Bool}
    {texts : List String} (htexts : Term.argTexts symbols floating args = .ok texts) :
    ∀ t ∈ texts, Inline t := by
  induction args generalizing texts with
  | nil =>
    cases htexts
    exact List.forall_mem_nil _
  | cons a args ih =>
    obtain ⟨ha, hargs⟩ := List.forall_mem_cons.mp h
    rw [Term.argTexts] at htexts
    obtain ⟨t, ht, htexts⟩ := bind_eq_ok_iff.mp htexts
    obtain ⟨ts, hts, htexts⟩ := bind_eq_ok_iff.mp htexts
    cases htexts
    exact List.forall_mem_cons.mpr ⟨ha _ _ ht, ih hargs hts⟩

theorem call {name : String} {args : List (Term K)} (h : ∀ a ∈ args, TextInline symbols a) :
    TextInline symbols (.call name args) := by
  intro floating text htext
  rw [Term.text] at htext
  split at htext
  · cases htext
  · next f _ =>
    obtain ⟨texts, htexts, htext⟩ := bind_eq_ok_iff.mp htext
    cases htext
    have hname : Inline f.cName := by cases f <;> decide
    exact inline_append.mpr ⟨inline_append.mpr ⟨inline_append.mpr ⟨hname, by decide⟩,
      inline_intercalate (by decide) (argTexts h htexts)⟩, by decide⟩

end TextInline

theorem inline_divisorTexts {fs : List (Term K)} (h : ∀ f ∈ fs, Term.Factor (TextInline symbols) f)
    {floating : Bool} {texts : List String}
    (htexts : Term.divisorTexts symbols floating fs = .ok texts) : ∀ t ∈ texts, Inline t := by
  induction fs generalizing texts with
  | nil =>
    cases htexts
    exact List.forall_mem_nil _
  | cons f fs ih =>
    obtain ⟨hf, hfs⟩ := List.forall_mem_cons.mp h
    cases f with
    | reciprocal root base =>
      rw [Term.divisorTexts] at htexts
      obtain ⟨t, ht, htexts⟩ := bind_eq_ok_iff.mp htexts
      obtain ⟨ts, hts, htexts⟩ := bind_eq_ok_iff.mp htexts
      cases htexts
      exact List.forall_mem_cons.mpr
        ⟨inline_divisorText root base ((show TextInline symbols base from hf) _ _ ht), ih hfs hts⟩
    | literal | symbol | call | sum | difference | quotient | power | product =>
      exact ih hfs htexts

theorem inline_factorTexts {fs : List (Term K)} (h : ∀ f ∈ fs, Term.Factor (TextInline symbols) f)
    {floating : Bool} {texts : List String}
    (htexts : Term.factorTexts symbols floating fs = .ok texts) : ∀ t ∈ texts, Inline t := by
  induction fs generalizing texts with
  | nil =>
    cases htexts
    exact List.forall_mem_nil _
  | cons f fs ih =>
    obtain ⟨hf, hfs⟩ := List.forall_mem_cons.mp h
    rw [Term.factorTexts] at htexts
    split_ifs at htexts
    · exact ih hfs htexts
    · obtain ⟨t, ht, htexts⟩ := bind_eq_ok_iff.mp htexts
      obtain ⟨ts, hts, htexts⟩ := bind_eq_ok_iff.mp htexts
      cases htexts
      exact List.forall_mem_cons.mpr
        ⟨inline_enclosed _ (hf.of_reciprocal TextInline.reciprocal _ _ ht), ih hfs hts⟩

end Terms

/-! ### Literals -/

theorem IsNumeral.inline {t : List Char} (h : IsNumeral t) : ∀ c ∈ t, isInline c = true := by
  induction h with
  | digit hc => exact List.forall_mem_singleton.mpr (isInline_of_isWordChar (isWordChar_of_isDigit hc))
  | @next t c _ hmeet ih =>
    refine List.forall_mem_append.mpr ⟨ih, List.forall_mem_singleton.mpr ?_⟩
    rw [Token.meet] at hmeet
    split_ifs at hmeet with hc
    simp only [Bool.or_eq_true, Bool.and_eq_true, beq_iff_eq] at hc
    rcases hc with (hword | rfl) | ⟨rfl | rfl, -⟩
    · exact isInline_of_isWordChar hword
    · decide
    · decide
    · decide

variable {K : Type} [Literal K] [Valued K] [Spelling K] [SpelledInC K] {floating : Bool}
  {text : String} {symbols : SymbolMap}

theorem inline_literalText {x : K}
    (h : literalText floating x = .ok text) : Inline text := by
  obtain ⟨text', t, htext', ht, hlist⟩ := literalText_spec (isFinite_of_literalText h) floating
  obtain rfl : text' = text := Except.ok.inj (htext'.symm.trans h)
  rw [inline_iff, hlist]
  split
  · exact List.forall_mem_cons.mpr ⟨by decide, ht.inline⟩
  · exact ht.inline

theorem inline_leadText {coefficient : Option K}
    (h : leadText floating coefficient = .ok text) : Inline text := by
  unfold leadText at h
  split at h
  · cases h
    decide
  · split_ifs at h
    · cases h
      decide
    · cases h
      decide
    · obtain ⟨literal, hliteral, h⟩ := bind_eq_ok_iff.mp h
      cases h
      exact inline_append.mpr ⟨inline_literalText hliteral, by decide⟩

theorem inline_productText {coefficient : Option K} {fs : List String}
    {divisor : Option String} (hfs : ∀ f ∈ fs, Inline f) (hd : ∀ d ∈ divisor, Inline d)
    (h : productText floating coefficient fs divisor = .ok text) : Inline text := by
  unfold productText at h
  split at h
  · exact inline_literalText h
  · cases h
    decide
  · cases h
    exact inline_append.mpr ⟨by decide, hd _ rfl⟩
  · split_ifs at h
    · cases h
      exact inline_append.mpr ⟨by decide, hd _ rfl⟩
    · cases h
      exact inline_append.mpr ⟨by decide, hd _ rfl⟩
    · obtain ⟨literal, hliteral, h⟩ := bind_eq_ok_iff.mp h
      cases h
      have hfloat : literalText true _ = .ok literal := hliteral
      exact inline_append.mpr ⟨inline_append.mpr ⟨inline_literalText hfloat, by decide⟩, hd _ rfl⟩
  · obtain ⟨lead, hlead, h⟩ := bind_eq_ok_iff.mp h
    cases h
    refine inline_append.mpr
      ⟨inline_append.mpr ⟨inline_leadText hlead, inline_intercalate (by decide) hfs⟩, ?_⟩
    cases divisor with
    | none => decide
    | some d => exact inline_append.mpr ⟨by decide, hd d rfl⟩

/-! ### Texts of expressions -/

theorem TextInline.literal (x : K) : TextInline symbols (.literal x) :=
  fun _ _ h => inline_literalText h

theorem TextInline.power {base exponent : Term K} (hbase : TextInline symbols base)
    (hexponent : TextInline symbols exponent) : TextInline symbols (.power base exponent) := by
  intro floating text h
  have hpow : ∀ {b n : String}, Inline b → Inline n → Inline ("pow(" ++ b ++ ", " ++ n ++ ")") :=
    fun hb hn => inline_append.mpr ⟨inline_append.mpr ⟨inline_append.mpr
      ⟨inline_append.mpr ⟨by decide, hb⟩, by decide⟩, hn⟩, by decide⟩
  rw [Term.text.eq_def] at h
  obtain ⟨baseText, hbaseText, h⟩ := bind_eq_ok_iff.mp h
  split at h
  · split_ifs at h
    · cases h
      exact inline_append.mpr
        ⟨inline_append.mpr ⟨by decide, hbase _ _ hbaseText⟩, by decide⟩
    · obtain ⟨exponentText, hexponentText, h⟩ := bind_eq_ok_iff.mp h
      cases h
      exact hpow (hbase _ _ hbaseText) (inline_literalText hexponentText)
  · obtain ⟨exponentText, hexponentText, h⟩ := bind_eq_ok_iff.mp h
    cases h
    exact hpow (hbase _ _ hbaseText) (hexponent _ _ hexponentText)

theorem TextInline.product {fs : List (Term K)}
    (h : ∀ f ∈ fs, Term.Factor (TextInline symbols) f) : TextInline symbols (.product fs) := by
  intro floating text htext
  rw [Term.text_product] at htext
  obtain ⟨divisors, hdivisors, htext⟩ := bind_eq_ok_iff.mp htext
  obtain ⟨factors, hfactors, htext⟩ := bind_eq_ok_iff.mp htext
  have hrest : ∀ f ∈ (Term.splitCoefficient fs).2, Term.Factor (TextInline symbols) f :=
    fun f hf => h f (Term.mem_of_mem_splitCoefficient hf)
  exact inline_productText (inline_factorTexts hrest hfactors)
    (inline_joinDivisors (inline_divisorTexts h hdivisors)) htext

theorem TextInline.compositional : Term.Compositional (TextInline (K := K) symbols) where
  sum := .sum
  difference := .difference
  quotient := .quotient
  power := .power
  reciprocal := .reciprocal
  product _ := .product

/-- **The text of an expression can stand inside an expression.** -/
theorem inline_render {e : Expr K} (h : e.Over fun s => Inline (symbols.resolve s))
    (htext : render symbols e = .ok text) : Inline text :=
  TextInline.compositional.ofExpr
    { literal := fun x _ => .literal x
      symbol := fun s hs => .symbol (h s hs)
      call := fun _ _ _ _ hargs => .call hargs } false text htext

end DensityKernel.C
