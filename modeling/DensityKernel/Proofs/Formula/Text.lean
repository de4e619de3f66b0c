import DensityKernel.Expr.Printer
import DensityKernel.Proofs.Formula.Literal
import DensityKernel.Proofs.Formula.Parser
import DensityKernel.Proofs.Reals.Meaning

/-!
The text of an expression is a formula with the same value. The text has few
parentheses, so the grammar may group it in another way: `a * (b / c)` is
written `a * b / c` and read as `(a * b) / c`. Each place where the text leaves
parentheses out has a lemma about what is read instead (`Means.plus`,
`Means.times`, `Means.minus`), and `spelled_text` puts them together along the
expression.
-/

namespace DensityKernel

namespace Formula

open Literal

variable {K : Type} [Literal K] [Valued K]

/-! ### Agreement -/

/-- Two expressions have the same values, whatever the names mean, and under the usual meaning
they are defined at the same points. -/
structure Agrees (u v : Expr K) : Prop where
  value (M : Meaning) : u.value M = v.value M
  defined (ρ : String → ℝ) : u.Defined ρ ↔ v.Defined ρ

namespace Agrees

variable {u v w u' v' : Expr K} {op : Operator}

theorem refl (u : Expr K) : Agrees u u :=
  ⟨fun _ => rfl, fun _ => Iff.rfl⟩

theorem trans (h : Agrees u v) (h' : Agrees v w) : Agrees u w :=
  ⟨fun M => (h.value M).trans (h'.value M), fun ρ => (h.defined ρ).trans (h'.defined ρ)⟩

theorem binary (op : Operator) (hu : Agrees u' u) (hv : Agrees v' v) :
    Agrees (.binary op u' v') (.binary op u v) where
  value M := by rw [Expr.value, Expr.value, hu.value, hv.value]
  defined ρ := by
    rw [Expr.Defined, Expr.Defined, hu.defined, hv.defined, hu.value, hv.value]

/-- What follows a sum may be read as part of its last operand. -/
theorem plus (h : op = .add ∨ op = .sub) :
    Agrees (.binary op (.add u v) w) (.add u (.binary op v w)) := by
  obtain rfl | rfl := h
  · exact ⟨fun M => by simp [add_assoc], fun ρ => by simp [and_assoc]⟩
  · exact ⟨fun M => by simp [add_sub_assoc], fun ρ => by simp [and_assoc]⟩

/-- What follows a product may be read as part of its last factor. -/
theorem times (h : op = .mul ∨ op = .div) :
    Agrees (.binary op (.mul u v) w) (.mul u (.binary op v w)) := by
  obtain rfl | rfl := h
  · exact ⟨fun M => by simp [mul_assoc], fun ρ => by simp [and_assoc]⟩
  · exact ⟨fun M => by simp [mul_div_assoc], fun ρ => by simp [and_assoc]⟩

/-- A minus may be read as that of the first factor. -/
theorem minus (h : op = .mul ∨ op = .div) :
    Agrees (.binary op u.negate v) (Expr.binary op u v).negate := by
  obtain rfl | rfl := h
  · exact ⟨fun M => by simp, fun ρ => by simp⟩
  · exact ⟨fun M => by simp [neg_div], fun ρ => by simp⟩

theorem negate (h : Agrees u v) : Agrees u.negate v.negate :=
  .binary .mul (.refl _) h

/-- A minus before a literal belongs to the literal. -/
theorem negated [Spelling K] [SpelledInFormula K] (u : Expr K) :
    Agrees (Frame.negated u) u.negate := by
  cases u with
  | num x =>
    obtain ⟨hfinite, hreal⟩ := SpelledInFormula.neg_spec x
    exact ⟨fun M => by simp [Frame.negated, hreal], fun ρ => by simp [Frame.negated, hfinite]⟩
  | sym | call | binary => exact .refl _

theorem values {args args' : List (Expr K)} (h : List.Forall₂ Agrees args' args) (M : Meaning) :
    Expr.values M args' = Expr.values M args := by
  induction h with
  | nil => rfl
  | cons ha _ ih => rw [Expr.values, Expr.values, ha.value, ih]

theorem allDefined {args args' : List (Expr K)} (h : List.Forall₂ Agrees args' args)
    (ρ : String → ℝ) : Expr.AllDefined ρ args' ↔ Expr.AllDefined ρ args := by
  induction h with
  | nil => rfl
  | cons ha _ ih => rw [Expr.AllDefined, Expr.AllDefined, ha.defined, ih]

theorem call {name : String} {args args' : List (Expr K)} (h : List.Forall₂ Agrees args' args) :
    Agrees (.call name args') (.call name args) where
  value M := by rw [Expr.value, Expr.value, values h]
  defined ρ := by rw [Expr.Defined, Expr.Defined, values h, allDefined h]

end Agrees

/-! ### What tokens mean -/

/-- The tokens have a derivation whose expression agrees with the given one. -/
def Means (r : Rank) (ts : List (Token K)) (e : Expr K) : Prop :=
  ∃ p, Derives r ts p ∧ Agrees p.expr e

namespace Means

variable {r : Rank} {A B : List (Token K)} {u v : Expr K}

theorem congr (h : Means r A u) (huv : Agrees u v) : Means r A v := by
  obtain ⟨p, hp, hagrees⟩ := h
  exact ⟨p, hp, hagrees.trans huv⟩

theorem binary (op : Operator) (hu : Means op.leftRank A u) (hv : Means op.rightRank B v) :
    Means op.rank (A ++ .operator op :: B) (.binary op u v) := by
  obtain ⟨p, hp, hagreesu⟩ := hu
  obtain ⟨q, hq, hagreesv⟩ := hv
  refine ⟨.binary op p q, hp.binary op hq, ?_⟩
  rw [Phrase.expr]
  exact .binary op hagreesu hagreesv

theorem joined {op : Operator} (hop : r.Joins op) (hu : Means r A u) (hv : Means r.operand B v) :
    Means r (A ++ .operator op :: B) (.binary op u v) := by
  cases r with
  | sum =>
    obtain rfl | rfl := hop
    · exact binary .add hu hv
    · exact binary .sub hu hv
  | product =>
    obtain rfl | rfl := hop
    · exact binary .mul hu hv
    · exact binary .div hu hv
  | unary | power | atom => exact hop.elim

/-- A phrase that goes on with operators of its level, read with something before it. -/
theorem extend {p q : Phrase K} {f : Expr K → Expr K}
    (hf : ∀ op v w, r.Joins op → Agrees (.binary op (f v) w) (f (.binary op v w)))
    (hext : Extends r p B q) (h : Means r A (f p.expr)) : Means r (A ++ B) (f q.expr) := by
  induction hext generalizing A with
  | nil => rwa [List.append_nil]
  | @cons vs us p q p' op hop hq _ ih =>
    have hjoined := joined hop h ⟨q, hq, .refl _⟩
    have hrest := ih (hjoined.congr (hf op p.expr q.expr hop))
    simpa using hrest

theorem plus (hu : Means .sum A u) (hv : Means .sum B v) :
    Means .sum (A ++ .operator .add :: B) (.add u v) := by
  obtain ⟨q, hq, hagrees⟩ := hv
  obtain ⟨us, t, vs, rfl, ht, hext⟩ := hq.exists_extends (.inl rfl)
  have hfirst : Means .sum (A ++ .operator .add :: us) (.add u t.expr) :=
    binary .add hu ⟨t, ht, .refl _⟩
  have hall := extend (r := .sum) (f := .add u) (fun _ _ _ hop => .plus hop) hext hfirst
  simpa using hall.congr (.binary .add (.refl u) hagrees)

theorem times (hu : Means .product A u) (hv : Means .product B v) :
    Means .product (A ++ .operator .mul :: B) (.mul u v) := by
  obtain ⟨q, hq, hagrees⟩ := hv
  obtain ⟨us, t, vs, rfl, ht, hext⟩ := hq.exists_extends (.inr rfl)
  have hfirst : Means .product (A ++ .operator .mul :: us) (.mul u t.expr) :=
    binary .mul hu ⟨t, ht, .refl _⟩
  have hall := extend (r := .product) (f := .mul u) (fun _ _ _ hop => .times hop) hext hfirst
  simpa using hall.congr (.binary .mul (.refl u) hagrees)

theorem minus [Spelling K] [SpelledInFormula K] (hv : Means .product B v) :
    Means .product (.operator .sub :: B) v.negate := by
  obtain ⟨q, hq, hagrees⟩ := hv
  obtain ⟨us, t, vs, rfl, ht, hext⟩ := hq.exists_extends (.inr rfl)
  have hfirst : Means .product (.operator .sub :: us) t.expr.negate := by
    refine ⟨.sign true t, .unary (.minus ht), ?_⟩
    rw [Phrase.expr_sign]
    exact .negated t.expr
  have hall := extend (r := .product) (f := .negate) (fun _ _ _ hop => .minus hop) hext hfirst
  exact hall.congr hagrees.negate

theorem group (h : Means .sum A u) : Means .atom (.leftParen :: (A ++ [.rightParen])) u := by
  obtain ⟨p, hp, hagrees⟩ := h
  exact ⟨.group p, .group hp, by rwa [Phrase.expr]⟩

theorem of_atom (h : Means .atom A u) (r : Rank) : Means r A u := by
  obtain ⟨p, hp, hagrees⟩ := h
  refine ⟨p, ?_, hagrees⟩
  cases r with
  | sum => exact hp.toSum
  | product => exact hp.toProduct nofun
  | unary => exact hp.toUnary nofun nofun
  | power => exact .atom hp
  | atom => exact hp

end Means

/-! ### Texts of expressions -/

/-- The level of the text of an expression. -/
def textRank : Expr K → Rank
  | .num x => if isNonNegative x then .atom else .unary
  | .sym _ | .call .. => .atom
  | .binary op _ _ => op.rank

variable [Spelling K]

/-- The text is a phrase of the level and means the expression. -/
def Spelled (r : Rank) (cs : List Char) (e : Expr K) : Prop :=
  ∃ ts, Spells cs ts ∧ Means r ts e

namespace Spelled

variable {r r' : Rank} {cs as bs : List Char} {e u v : Expr K} {text : String} {wrap : Bool}

theorem congr (h : Spelled r cs u) (huv : Agrees u v) : Spelled r cs v := by
  obtain ⟨ts, hts, hmeans⟩ := h
  exact ⟨ts, hts, hmeans.congr huv⟩

theorem weaken (h : Spelled r cs e) (hr : ∀ {ts : List (Token K)} {p}, Derives r ts p →
    Derives r' ts p) : Spelled r' cs e := by
  obtain ⟨ts, hts, p, hp, hagrees⟩ := h
  exact ⟨ts, hts, p, hr hp, hagrees⟩

theorem toSum (h : Spelled r cs e) : Spelled .sum cs e :=
  h.weaken Derives.toSum

theorem group (h : Spelled r cs e) : Spelled .atom ('(' :: (cs ++ [')'])) e := by
  obtain ⟨ts, hts, hmeans⟩ := h.toSum
  exact ⟨_, hts.group, hmeans.group⟩

theorem toList_enclosed (wrap : Bool) (text : String) : (Expr.enclosed wrap text).toList =
    if wrap then '(' :: (text.toList ++ [')']) else text.toList := by
  cases wrap with
  | false => rfl
  | true =>
    show ("(" ++ text ++ ")").toList = _
    rw [String.toList_append, String.toList_append]
    rfl

/-- A text that belongs to the level unless it is put in parentheses. -/
theorem enclosed (h : Spelled r text.toList e) (hopen : wrap = false → Spelled r' text.toList e) :
    Spelled r' (Expr.enclosed wrap text).toList e := by
  rw [toList_enclosed]
  cases wrap with
  | false => exact hopen rfl
  | true =>
    obtain ⟨ts, hts, hmeans⟩ := h.group
    exact ⟨ts, hts, hmeans.of_atom r'⟩

/-- An operand of a product. -/
theorem operand (h : Spelled (textRank e) text.toList e) :
    Spelled .product (Expr.enclosed e.isSum text).toList e := by
  refine h.enclosed fun hsum => h.weaken fun hp => hp.toProduct ?_
  cases e with
  | num x => cases hx : isNonNegative x <;> simp [textRank, hx]
  | sym | call => simp [textRank]
  | binary op u v => cases op <;> simp_all [textRank, Operator.rank, Expr.isSum]

omit [Valued K] [Spelling K] in
theorem rank_of_isBare (h : e.isBare = true) : textRank e = .atom := by
  cases e with
  | num x => exact if_pos h
  | sym | call => rfl
  | binary => exact absurd h Bool.false_ne_true

theorem base (h : Spelled (textRank e) text.toList e) :
    Spelled .atom (Expr.enclosed (!e.isBare) text).toList e := by
  refine h.enclosed fun hopen => ?_
  rwa [rank_of_isBare (by simpa using hopen)] at h

theorem exponent (h : Spelled (textRank e) text.toList e) :
    Spelled .unary (Expr.enclosed (!e.isBareExponent) text).toList e := by
  refine h.enclosed fun hopen => ?_
  have hbare : e.isBare = true := by
    cases e with
    | call => exact rfl
    | num | sym | binary => simpa [Expr.isBareExponent] using hopen
  rw [rank_of_isBare hbare] at h
  exact h.weaken fun hp => .power (.atom hp)

theorem denominator (h : Spelled (textRank e) text.toList e) :
    Spelled .unary (Expr.enclosed (!e.isBareDenominator) text).toList e := by
  refine h.enclosed fun hopen => ?_
  have hrank : textRank e = .atom ∨ textRank e = .power := by
    match e, hopen with
    | .binary .pow u v, _ => exact .inr rfl
    | .num x, hopen => exact .inl (rank_of_isBare (by simpa [Expr.isBareDenominator] using hopen))
    | .sym _, _ | .call .., _ => exact .inl rfl
  obtain hrank | hrank := hrank
  · rw [hrank] at h
    exact h.weaken fun hp => .power (.atom hp)
  · rw [hrank] at h
    exact h.weaken .power

theorem sum (hu : Spelled r as u) (hv : Spelled r' bs v) :
    Spelled .sum (as ++ (' ' :: '+' :: ' ' :: bs)) (.add u v) := by
  obtain ⟨A, hA, hmeansu⟩ := hu.toSum
  obtain ⟨B, hB, hmeansv⟩ := hv.toSum
  exact ⟨_, hA.binary (by simp [marks]) hB, hmeansu.plus hmeansv⟩

theorem difference (hu : Spelled r as u) (hv : Spelled .product bs v) :
    Spelled .sum (as ++ (' ' :: '-' :: ' ' :: bs)) (.sub u v) := by
  obtain ⟨A, hA, hmeansu⟩ := hu.toSum
  obtain ⟨B, hB, hmeansv⟩ := hv
  exact ⟨_, hA.binary (by simp [marks]) hB, Means.binary .sub hmeansu hmeansv⟩

theorem product (hu : Spelled .product as u) (hv : Spelled .product bs v) :
    Spelled .product (as ++ (' ' :: '*' :: ' ' :: bs)) (.mul u v) := by
  obtain ⟨A, hA, hmeansu⟩ := hu
  obtain ⟨B, hB, hmeansv⟩ := hv
  exact ⟨_, hA.binary (by simp [marks]) hB, hmeansu.times hmeansv⟩

theorem quotient (hu : Spelled .product as u) (hv : Spelled .unary bs v) :
    Spelled .product (as ++ (' ' :: '/' :: ' ' :: bs)) (.div u v) := by
  obtain ⟨A, hA, hmeansu⟩ := hu
  obtain ⟨B, hB, hmeansv⟩ := hv
  exact ⟨_, hA.binary (by simp [marks]) hB, Means.binary .div hmeansu hmeansv⟩

theorem power (hu : Spelled .atom as u) (hv : Spelled .unary bs v) :
    Spelled .power (as ++ '^' :: bs) (.pow u v) := by
  obtain ⟨A, hA, hmeansu⟩ := hu
  obtain ⟨B, hB, hmeansv⟩ := hv
  exact ⟨_, hA.power hB, Means.binary .pow hmeansu hmeansv⟩

theorem negative [SpelledInFormula K] (hv : Spelled .product bs v) :
    Spelled .product ('-' :: bs) v.negate := by
  obtain ⟨B, hB, hmeans⟩ := hv
  exact ⟨_, hB.minus, hmeans.minus⟩

theorem number [SpelledInFormula K] {x : K} (hx : ReadsBack x) :
    Spelled (textRank (.num x)) (Spelling.inFormula x).toList (.num x) := by
  obtain ⟨hfinite, y, hread, hy, hreal⟩ := hx
  have hspells := spells_number (SpelledInFormula.text_magnitude hfinite) hread
  rw [SpelledInFormula.text_eq hfinite]
  cases hnegative : isNegative x with
  | false =>
    have hpos : 0 ≤ real x := by
      rw [← not_lt, ← isNegative_iff hfinite, hnegative]
      decide
    rw [if_neg Bool.false_ne_true, textRank, if_pos ((isNonNegative_iff hfinite).mpr hpos)]
    refine ⟨_, hspells, .number y, .number y, fun M => ?_, fun ρ => ?_⟩
    · simp [Phrase.expr, hreal, abs_of_nonneg hpos]
    · simp [Phrase.expr, hy, hfinite]
  | true =>
    have hneg : real x < 0 := (isNegative_iff hfinite).mp hnegative
    obtain ⟨hnegfinite, hnegreal⟩ := SpelledInFormula.neg_spec y
    have hrank : ¬isNonNegative x = true := by rwa [isNonNegative_iff hfinite, not_le]
    rw [if_pos rfl, textRank, if_neg hrank]
    refine ⟨_, hspells.minus, .sign true (.number y), .minus (.power (.atom (.number y))),
      fun M => ?_, fun ρ => ?_⟩
    · simp [Phrase.expr, hnegreal, hreal, abs_of_neg hneg]
    · simp [Phrase.expr, hnegfinite, hy, hfinite]

/-- The arguments of a call, with commas between their texts. -/
theorem arguments {a : Expr K} {args : List (Expr K)}
    (h : ∀ b ∈ a :: args, Spelled .sum b.text.toList b) :
    ∃ ts ps, Spells (String.intercalate ", " (Expr.texts (a :: args))).toList ts ∧
      DerivesArguments ts ps ∧ List.Forall₂ Agrees (ps.map Phrase.expr) (a :: args) := by
  induction args generalizing a with
  | nil =>
    obtain ⟨ts, hts, p, hp, hagrees⟩ := h a List.mem_cons_self
    refine ⟨ts, [p], ?_, .last hp, .cons hagrees .nil⟩
    rwa [Expr.texts, Expr.texts, String.intercalate_singleton]
  | cons b args ih =>
    obtain ⟨ha, hargs⟩ := List.forall_mem_cons.mp h
    obtain ⟨ts, hts, p, hp, hagrees⟩ := ha
    obtain ⟨us, ps, hus, hps, hagreesps⟩ := ih hargs
    cases ps with
    | nil => cases hagreesps
    | cons q ps =>
      refine ⟨ts ++ .comma :: us, p :: q :: ps, ?_, .comma hp hps, .cons hagrees hagreesps⟩
      rw [Expr.texts, Expr.texts, String.intercalate_cons_cons, String.toList_append,
        String.toList_append, List.append_assoc]
      exact hts.comma hus

theorem call {s : String} {args : List (Expr K)} (hs : isIdentifier s = true)
    (h : ∀ a ∈ args, Spelled .sum a.text.toList a) :
    Spelled .atom (Expr.call s args).text.toList (.call s args) := by
  have htext : (Expr.call s args).text.toList =
      s.toList ++ '(' :: ((String.intercalate ", " (Expr.texts args)).toList ++ [')']) := by
    rw [Expr.text, String.toList_append, String.toList_append, String.toList_append]
    simp
  rw [htext]
  cases args with
  | nil =>
    have hnone : (String.intercalate ", " (Expr.texts ([] : List (Expr K)))).toList = [] := rfl
    rw [hnone]
    refine ⟨_, .call hs (.inl ⟨rfl, rfl⟩), .call s [], .call s .none, ?_⟩
    rw [Phrase.expr, Phrase.exprs]
    exact .refl _
  | cons a args =>
    obtain ⟨ts, ps, hts, hps, hagrees⟩ := arguments h
    refine ⟨_, .call hs (.inr hts), .call s ps, .call s hps, ?_⟩
    rw [Phrase.expr, Phrase.exprs_eq_map]
    exact .call hagrees

end Spelled

/-! ### The text of an expression -/

end Formula

namespace Expr

open Literal Formula

variable {K : Type} [Literal K] [Valued K] [Spelling K]

mutual

/-- The names are identifiers, and the literals read back. -/
def Readable : Expr K → Prop
  | .num x => ReadsBack x
  | .sym s => isIdentifier s = true
  | .call s args => isIdentifier s = true ∧ AllReadable args
  | .binary _ u v => u.Readable ∧ v.Readable

def AllReadable : List (Expr K) → Prop
  | [] => True
  | a :: args => a.Readable ∧ AllReadable args

end

theorem readable_of_mem {args : List (Expr K)} (h : AllReadable args) : ∀ a ∈ args, a.Readable := by
  induction args with
  | nil => exact nofun
  | cons a args ih => exact List.forall_mem_cons.mpr ⟨h.1, ih h.2⟩

section Text

variable {u v w : Expr K} {x : K}

omit [Valued K] in
theorem text_add_negated (hx : isMinusOne x = true) :
    (add u (.mul (.num x) w)).text = u.text ++ " - " ++ enclosed w.isSum w.text := by
  rw [text, if_pos hx]

omit [Valued K] in
theorem text_add (h : ∀ x w, v = .mul (.num x) w → isMinusOne x = false) :
    (add u v).text = u.text ++ " + " ++ v.text := by
  rw [text.eq_def]
  dsimp only
  split
  · next x w =>
    rw [h x w rfl, if_neg Bool.false_ne_true]
  · rfl

omit [Valued K] in
theorem text_mul_negative (hx : isMinusOne x = true) :
    (mul (.num x) v).text = "-" ++ enclosed v.isSum v.text := by
  rw [text, if_pos hx]

omit [Valued K] in
theorem text_mul (h : ∀ x, u = .num x → isMinusOne x = false) :
    (mul u v).text = enclosed u.isSum u.text ++ " * " ++ enclosed v.isSum v.text := by
  rw [text.eq_def]
  dsimp only
  split
  · next x =>
    rw [h x rfl, if_neg Bool.false_ne_true, text]
    rfl
  · rfl

end Text

omit [Valued K] [Spelling K] in
/-- Whether a factor is printed as a sign. -/
theorem isMinusOne_or (u : Expr K) : (∃ x, u = .num x ∧ isMinusOne x = true) ∨
    ∀ x, u = .num x → isMinusOne x = false := by
  cases u with
  | num x =>
    cases hx : isMinusOne x with
    | true => exact .inl ⟨x, rfl, hx⟩
    | false => exact .inr fun y hy => Expr.num.inj hy ▸ hx
  | sym | call | binary => exact .inr nofun

omit [Spelling K] in
theorem agrees_negate {x : K} (hx : isMinusOne x = true) (v : Expr K) :
    Agrees v.negate (.mul (.num x) v) := by
  obtain ⟨hfinite, hreal⟩ := isMinusOne_iff.mp hx
  exact .binary .mul ⟨fun M => by simp [hreal], fun ρ => by simp [hfinite]⟩ (.refl v)

omit [Spelling K] in
/-- A difference is the sum with the negated operand. -/
theorem agrees_sub {x : K} (hx : isMinusOne x = true) (u v : Expr K) :
    Agrees (.sub u v) (.add u (.mul (.num x) v)) := by
  obtain ⟨hfinite, hreal⟩ := isMinusOne_iff.mp hx
  exact ⟨fun M => by simp [hreal, sub_eq_add_neg], fun ρ => by simp [hfinite]⟩

/-- A sum with a product by minus one is printed as a difference. -/
theorem spelled_add {u v : Expr K} (hu : Spelled (textRank u) u.text.toList u)
    (hv : Spelled (textRank v) v.text.toList v)
    (hright : ∀ x w, v = .mul (.num x) w → Spelled (textRank w) w.text.toList w) :
    Spelled .sum (add u v).text.toList (.add u v) := by
  by_cases h : ∀ x w, v = .mul (.num x) w → isMinusOne x = false
  · rw [text_add h, String.toList_append, String.toList_append, List.append_assoc]
    exact hu.sum hv
  · obtain ⟨x, w, rfl, hx⟩ : ∃ x w, v = .mul (.num x) w ∧ isMinusOne x = true := by
      simpa using h
    rw [text_add_negated hx, String.toList_append, String.toList_append, List.append_assoc]
    exact (hu.difference (hright x w rfl).operand).congr (agrees_sub hx u w)

/-- A text that is a sum is read as an expression that agrees. -/
theorem parse_of_spelled {s : String} {e : Expr K} (h : Spelled .sum s.toList e) :
    ∃ e', parse s = .ok e' ∧ Agrees e' e := by
  obtain ⟨ts, hts, p, hp, hagrees⟩ := h
  obtain ⟨lexemes, hscan, rfl⟩ := hts.scan_eq
  refine ⟨p.expr, ?_, hagrees⟩
  rw [parse, hts.not_allBlank, if_neg Bool.false_ne_true]
  exact bind_eq_ok_iff.mpr ⟨lexemes, hscan, ofLexemes_of_derives hp⟩

variable [SpelledInFormula K]

theorem spelled_mul {u v : Expr K} (hu : Spelled (textRank u) u.text.toList u)
    (hv : Spelled (textRank v) v.text.toList v) :
    Spelled .product (mul u v).text.toList (.mul u v) := by
  obtain ⟨x, rfl, hx⟩ | h := isMinusOne_or u
  · rw [text_mul_negative hx, String.toList_append]
    exact hv.operand.negative.congr (agrees_negate hx v)
  · rw [text_mul h, String.toList_append, String.toList_append, List.append_assoc]
    exact hu.operand.product hv.operand

/-- The text of an expression is a formula that means the expression. -/
theorem spelled_text {e : Expr K} (h : e.Readable) : Spelled (textRank e) e.text.toList e := by
  -- a sum prints the right operand of its right operand on its own
  suffices hall : Spelled (textRank e) e.text.toList e ∧
      ∀ op u v, e = .binary op u v → Spelled (textRank v) v.text.toList v from hall.1
  induction e with
  | num x =>
    refine ⟨.number h, fun op u v heq => ?_⟩
    cases heq
  | sym s =>
    refine ⟨⟨_, spells_name h, .name s, .name s, ?_⟩, fun op u v heq => ?_⟩
    · rw [Phrase.expr]
      exact .refl _
    · cases heq
  | call s args ih =>
    refine ⟨.call h.1 fun a ha => ?_, fun op u v heq => ?_⟩
    · exact (ih a ha (readable_of_mem h.2 a ha)).1.toSum
    · cases heq
  | binary op u v ihu ihv =>
    obtain ⟨hu, -⟩ := ihu h.1
    obtain ⟨hv, hright⟩ := ihv h.2
    refine ⟨?_, fun op' u' v' heq => by cases heq; exact hv⟩
    cases op with
    | add => exact spelled_add hu hv fun x w heq => hright _ _ _ heq
    | sub =>
      rw [text, String.toList_append, String.toList_append, List.append_assoc]
      exact hu.difference hv.operand
    | mul => exact spelled_mul hu hv
    | div =>
      rw [text, String.toList_append, String.toList_append, List.append_assoc]
      exact hu.operand.quotient hv.denominator
    | pow =>
      rw [text, String.toList_append, String.toList_append, List.append_assoc]
      exact hu.base.power hv.exponent

/-- **The text of an expression is read as an expression of the same value**, whatever the names
mean, which has a value at the same points. -/
theorem exists_parse_text {e : Expr Double} (h : e.Readable) :
    ∃ e' : Expr Double, parse e.text = .ok e' ∧ (∀ M : Meaning, e'.value M = e.value M) ∧
      ∀ ρ, e'.Defined ρ ↔ e.Defined ρ := by
  obtain ⟨e', hparse, hagrees⟩ := parse_of_spelled (spelled_text h).toSum
  exact ⟨e', hparse, hagrees.value, hagrees.defined⟩

/-- The text `ra - (rb + 2)^(-0.5)` of a sum with a negated power. -/
theorem exists_parse_text_difference :
    ∃ e : Expr Double, e.Readable ∧ e.text = "ra - (rb + 2)^(-0.5)" ∧
      ∃ e' : Expr Double, parse e.text = .ok e' ∧ (∀ M : Meaning, e'.value M = e.value M) ∧
        ∀ ρ, e'.Defined ρ ↔ e.Defined ρ := by
  have hra : isIdentifier "ra" = true := by decide
  have hrb : isIdentifier "rb" = true := by decide
  have hminusOne : ReadsBack (minusOne : Double) := .of_read (by decide) (by decide)
  have htwo : ReadsBack (two : Double) := .of_read (by decide) (by decide)
  have hminusHalf : ReadsBack (minusHalf : Double) := .of_read (by decide) (by decide)
  have hreadable : (Expr.add (.sym "ra") (Expr.pow (.add (.sym "rb") (.num two))
      (.num minusHalf)).negate : Expr Double).Readable :=
    ⟨hra, hminusOne, ⟨hrb, htwo⟩, hminusHalf⟩
  exact ⟨_, hreadable, by decide, exists_parse_text hreadable⟩

end Expr

end DensityKernel
