import DensityKernel.Formula.Token
import Mathlib.Data.List.Basic

/-!
The grammar of formulas. A `Phrase` is what was written, with its parentheses
and signs, and `Derives` has one constructor to a production:

    sum     ::= product | sum (+|-) product
    product ::= unary | product (*|/) unary
    unary   ::= power | (+|-) unary
    power   ::= atom | atom ^ unary
    atom    ::= number | name | name ( [sum {, sum}] ) | ( sum )

A token list has at most one derivation (`Derives.unique`): of two phrases with
the same beginning, neither of which can go on, each ends where the other does.
-/

namespace DensityKernel

/-- A formula as it was written. -/
inductive Phrase (K : Type) where
  | number (value : K)
  | name (text : String)
  | call (name : String) (args : List (Phrase K))
  | group (inner : Phrase K)
  | sign (negative : Bool) (operand : Phrase K)
  | binary (op : Operator) (left right : Phrase K)

namespace Phrase

variable {K : Type} [Literal K]

mutual

/-- The expression of a phrase. Parentheses and plus signs leave no trace; a minus before
a number belongs to the number, and any other is the product with minus one. -/
def expr : Phrase K → Expr K
  | .number x => .num x
  | .name s => .sym s
  | .call s args => .call s (exprs args)
  | .group p => p.expr
  | .sign false p => p.expr
  | .sign true p =>
    match p.expr with
    | .num x => .num (-x)
    | e => .mul (.num Literal.minusOne) e
  | .binary op p q => .binary op p.expr q.expr

def exprs : List (Phrase K) → List (Expr K)
  | [] => []
  | p :: ps => p.expr :: exprs ps

end

theorem exprs_eq_map (ps : List (Phrase K)) : exprs ps = ps.map expr := by
  induction ps with
  | nil => rfl
  | cons p ps ih => rw [exprs, List.map_cons, ih]

end Phrase

/-- The operators that are signs, and whether they negate. -/
def Operator.IsSign (op : Operator) (negative : Bool) : Prop :=
  op = .add ∧ negative = false ∨ op = .sub ∧ negative = true

/-- The levels of the grammar, from the loosest to the tightest. -/
inductive Rank where
  | sum | product | unary | power | atom

variable {K : Type}

mutual

/-- The tokens of a phrase. -/
inductive Derives : Rank → List (Token K) → Phrase K → Prop
  | product {ts : List (Token K)} {p : Phrase K} : Derives .product ts p → Derives .sum ts p
  | term {as bs : List (Token K)} {p q : Phrase K} {op : Operator} : op = .add ∨ op = .sub →
    Derives .sum as p → Derives .product bs q →
      Derives .sum (as ++ .operator op :: bs) (.binary op p q)
  | unary {ts : List (Token K)} {p : Phrase K} : Derives .unary ts p → Derives .product ts p
  | factor {as bs : List (Token K)} {p q : Phrase K} {op : Operator} : op = .mul ∨ op = .div →
    Derives .product as p → Derives .unary bs q →
      Derives .product (as ++ .operator op :: bs) (.binary op p q)
  | power {ts : List (Token K)} {p : Phrase K} : Derives .power ts p → Derives .unary ts p
  | plus {ts : List (Token K)} {p : Phrase K} :
    Derives .unary ts p → Derives .unary (.operator .add :: ts) (.sign false p)
  | minus {ts : List (Token K)} {p : Phrase K} :
    Derives .unary ts p → Derives .unary (.operator .sub :: ts) (.sign true p)
  | atom {ts : List (Token K)} {p : Phrase K} : Derives .atom ts p → Derives .power ts p
  | raised {as bs : List (Token K)} {p q : Phrase K} :
    Derives .atom as p → Derives .unary bs q →
      Derives .power (as ++ .operator .pow :: bs) (.binary .pow p q)
  | number (x : K) : Derives .atom [.number x] (.number x)
  | name (s : String) : Derives .atom [.name s] (.name s)
  | call {ts : List (Token K)} {ps : List (Phrase K)} (s : String) : DerivesArguments ts ps →
      Derives .atom (.name s :: .leftParen :: (ts ++ [.rightParen])) (.call s ps)
  | group {ts : List (Token K)} {p : Phrase K} :
    Derives .sum ts p → Derives .atom (.leftParen :: (ts ++ [.rightParen])) (.group p)

/-- The tokens of the arguments of a call, with commas between them. -/
inductive DerivesArguments : List (Token K) → List (Phrase K) → Prop
  | none : DerivesArguments [] []
  | last {ts : List (Token K)} {p : Phrase K} : Derives .sum ts p → DerivesArguments ts [p]
  | comma {ts us : List (Token K)} {p q : Phrase K} {ps : List (Phrase K)} : Derives .sum ts p →
    DerivesArguments us (q :: ps) → DerivesArguments (ts ++ .comma :: us) (p :: q :: ps)

end

namespace Derives

variable {r : Rank} {op : Operator} {ts us : List (Token K)} {p : Phrase K}

/-! ### Weaker levels -/

theorem toSum (h : Derives r ts p) : Derives .sum ts p := by
  cases r with
  | sum => exact h
  | product => exact .product h
  | unary => exact .product (.unary h)
  | power => exact .product (.unary (.power h))
  | atom => exact .product (.unary (.power (.atom h)))

theorem toProduct (h : Derives r ts p) (hsum : r ≠ .sum) : Derives .product ts p := by
  cases r with
  | sum => exact absurd rfl hsum
  | product => exact h
  | unary => exact .unary h
  | power => exact .unary (.power h)
  | atom => exact .unary (.power (.atom h))

theorem toUnary (h : Derives r ts p) (hsum : r ≠ .sum) (hproduct : r ≠ .product) :
    Derives .unary ts p := by
  cases r with
  | sum => exact absurd rfl hsum
  | product => exact absurd rfl hproduct
  | unary => exact h
  | power => exact .power h
  | atom => exact .power (.atom h)

theorem sign {negative : Bool} (hop : op.IsSign negative) (h : Derives .unary ts p) :
    Derives .unary (.operator op :: ts) (.sign negative p) := by
  rcases hop with ⟨rfl, rfl⟩ | ⟨rfl, rfl⟩
  · exact .plus h
  · exact .minus h

/-! ### The first token -/

/-- Every phrase begins with a token, which is no closing parenthesis and, for a phrase
without a sign, no operator. -/
theorem exists_cons (h : Derives r ts p) : ∃ t us, ts = t :: us ∧ t ≠ .rightParen ∧
    (r = .power ∨ r = .atom → ∀ op, t ≠ .operator op) := by
  induction h using Derives.rec (motive_2 := fun _ _ _ => True) with
  | product _ ih | unary _ ih | power _ ih =>
    obtain ⟨t, us, rfl, ht, -⟩ := ih
    exact ⟨t, us, rfl, ht, nofun⟩
  | term _ _ _ ih | factor _ _ _ ih =>
    obtain ⟨t, us, rfl, ht, -⟩ := ih
    exact ⟨t, _, rfl, ht, nofun⟩
  | plus | minus => exact ⟨_, _, rfl, nofun, nofun⟩
  | atom _ ih =>
    obtain ⟨t, us, rfl, ht, hop⟩ := ih
    exact ⟨t, us, rfl, ht, fun _ => hop (.inr rfl)⟩
  | raised _ _ ih =>
    obtain ⟨t, us, rfl, ht, hop⟩ := ih
    exact ⟨t, _, rfl, ht, fun _ => hop (.inr rfl)⟩
  | number | name | call | group => exact ⟨_, _, rfl, nofun, nofun⟩
  | none | last | comma => trivial

end Derives

/-! ### Where a phrase ends -/

/-- No phrase of the level goes on with the token. -/
def Rank.endsAt : Rank → Token K → Bool
  | _, .leftParen => false
  | .sum, .operator _ => false
  | .product, .operator op => op == .add || op == .sub
  | .unary, .operator op | .power, .operator op => op != .pow
  | _, _ => true

/-- Phrases of the level end before the tokens. -/
def Rank.EndsBefore (r : Rank) (ts : List (Token K)) : Prop :=
  ∀ t ∈ ts.head?, r.endsAt t = true

/-- The operators that join operands on a level. -/
def Rank.Joins : Rank → Operator → Prop
  | .sum, op => op = .add ∨ op = .sub
  | .product, op => op = .mul ∨ op = .div
  | _, _ => False

/-- The level of the operands that are joined. -/
def Rank.operand : Rank → Rank
  | .sum => .product
  | _ => .unary

section Ends

variable {r : Rank} {op : Operator} {ts us : List (Token K)}

theorem Rank.EndsBefore.operand (h : r.EndsBefore ts) (hr : r = .sum ∨ r = .product) :
    r.operand.EndsBefore ts := by
  intro t ht
  have hends := h t ht
  rcases hr with rfl | rfl <;> cases t <;> simp_all [endsAt, Rank.operand]
  rename_i op
  cases op <;> simp_all

theorem Rank.Joins.endsBefore (h : r.Joins op) : r.operand.EndsBefore (.operator op :: ts) := by
  intro t ht
  obtain rfl : Token.operator op = t := by simpa using ht
  cases r <;> simp only [Joins] at h <;> rcases h with rfl | rfl <;> rfl

theorem Rank.Joins.not_endsBefore (h : r.Joins op) : ¬r.EndsBefore (.operator op :: ts) := by
  intro hends
  have hop := hends _ rfl
  cases r <;> simp only [Joins] at h <;> rcases h with rfl | rfl <;>
    exact absurd hop Bool.false_ne_true

end Ends

/-! ### Chains of operands -/

/-- Operators with their right operands lead from one phrase of a level to another. -/
inductive Extends (r : Rank) : Phrase K → List (Token K) → Phrase K → Prop
  | nil (p : Phrase K) : Extends r p [] p
  | cons {vs us : List (Token K)} {p q p' : Phrase K} {op : Operator} : r.Joins op →
    Derives r.operand vs q → Extends r (.binary op p q) us p' →
      Extends r p (.operator op :: (vs ++ us)) p'

section Chains

variable {r : Rank} {op : Operator} {as bs ts us vs x y : List (Token K)} {p q p' t : Phrase K}

theorem Extends.snoc (h : Extends r p us p') (hop : r.Joins op) (hq : Derives r.operand vs q) :
    Extends r p (us ++ .operator op :: vs) (.binary op p' q) := by
  induction h with
  | nil p => simpa using Extends.cons hop hq (.nil _)
  | cons hop' hq' _ ih => simpa using Extends.cons hop' hq' ih

/-- A sum or product is its first operand, extended. -/
theorem Derives.exists_extends (hr : r = .sum ∨ r = .product) (h : Derives r ts p) :
    ∃ us q vs, ts = us ++ vs ∧ Derives r.operand us q ∧ Extends r q vs p := by
  induction h using Derives.rec (motive_2 := fun _ _ _ => True) with
  | product h _ | unary h _ => exact ⟨_, _, [], by simp, h, .nil _⟩
  | term hop _ hq ih _ | factor hop _ hq ih _ =>
    obtain ⟨us, u, vs, rfl, hu, hext⟩ := ih hr
    exact ⟨us, u, _, by simp, hu, hext.snoc hop hq⟩
  | power | plus | minus | atom | raised | number | name | call | group => simp at hr
  | none | last | comma => trivial

/-- The phrase is the only one with these first tokens. -/
def OnlyPhrase (r : Rank) (as : List (Token K)) (p : Phrase K) : Prop :=
  ∀ ⦃bs t x y⦄, Derives r bs t → as ++ x = bs ++ y → r.EndsBefore x → r.EndsBefore y →
    as = bs ∧ p = t

/-- Every sum or product with these first tokens is the phrase, extended. -/
def OnlyExtended (r : Rank) (as : List (Token K)) (p : Phrase K) : Prop :=
  ∀ ⦃bs t x y⦄, Derives r bs t → as ++ x = bs ++ y → r.operand.EndsBefore x → r.EndsBefore y →
    ∃ vs, bs = as ++ vs ∧ Extends r p vs t

theorem OnlyExtended.onlyPhrase (hr : r = .sum ∨ r = .product) (h : OnlyExtended r as p) :
    OnlyPhrase r as p := by
  intro bs t x y ht heq hx hy
  obtain ⟨vs, rfl, hext⟩ := h ht heq (hx.operand hr) hy
  rw [List.append_assoc, List.append_cancel_left_eq] at heq
  cases hext with
  | nil => exact ⟨by simp, rfl⟩
  | cons hop _ _ => exact absurd (heq ▸ hx) hop.not_endsBefore

theorem OnlyPhrase.onlyExtended (hr : r = .sum ∨ r = .product) (h : OnlyPhrase r.operand as p) :
    OnlyExtended r as p := by
  intro bs t x y ht heq hx hy
  obtain ⟨us, u, vs, rfl, hu, hext⟩ := ht.exists_extends hr
  have hvs : r.operand.EndsBefore (vs ++ y) := by
    cases hext with
    | nil => exact hy.operand hr
    | cons hop _ _ => exact hop.endsBefore
  obtain ⟨rfl, rfl⟩ := h hu (by simpa using heq) hx hvs
  exact ⟨vs, rfl, hext⟩

theorem OnlyExtended.join (hr : r = .sum ∨ r = .product) (hop : r.Joins op)
    (h : OnlyExtended r as p) (hq : OnlyPhrase r.operand bs q) :
    OnlyExtended r (as ++ .operator op :: bs) (.binary op p q) := by
  intro cs t x y ht heq hx hy
  obtain ⟨vs, rfl, hext⟩ := h ht (by simpa using heq) hop.endsBefore hy
  rw [List.append_assoc, List.append_assoc, List.append_cancel_left_eq] at heq
  cases hext with
  | nil =>
    rw [List.nil_append] at heq
    exact absurd (heq ▸ hy) hop.not_endsBefore
  | @cons ws us _ u _ op' hop' hu hext =>
    obtain ⟨hhead, hrest⟩ := List.cons.inj heq
    cases hhead
    have hus : r.operand.EndsBefore (us ++ y) := by
      cases hext with
      | nil => exact hy.operand hr
      | cons hop _ _ => exact hop.endsBefore
    obtain ⟨rfl, rfl⟩ := hq hu (by simpa using hrest) hx hus
    exact ⟨us, by simp, hext⟩

end Chains

/-! ### One derivation -/

section Unique

variable {as bs ts x y : List (Token K)} {p q t : Phrase K} {ps : List (Phrase K)} {r : Rank}

/-- The arguments are the only ones with these tokens before a closing parenthesis. -/
def OnlyArguments (ts : List (Token K)) (ps : List (Phrase K)) : Prop :=
  ∀ ⦃us qs x y⦄, DerivesArguments us qs → ts ++ .rightParen :: x = us ++ .rightParen :: y →
    ts = us ∧ ps = qs

theorem Rank.endsBefore_rightParen : r.EndsBefore (.rightParen :: ts) := by
  intro t ht
  obtain rfl : Token.rightParen = t := by simpa using ht
  cases r <;> rfl

theorem Rank.endsBefore_comma : r.EndsBefore (.comma :: ts) := by
  intro t ht
  obtain rfl : Token.comma = t := by simpa using ht
  cases r <;> rfl

/-- An atom ends before a caret, and wherever a power ends. -/
theorem Rank.EndsBefore.atom (h : Rank.power.EndsBefore ts) : Rank.atom.EndsBefore ts := by
  intro t ht
  have hends := h t ht
  cases t <;> simp_all [endsAt]

theorem Rank.endsBefore_unary_iff : Rank.unary.EndsBefore ts ↔ Rank.power.EndsBefore ts := by
  have hends : ∀ t : Token K, Rank.unary.endsAt t = Rank.power.endsAt t := fun t => by
    cases t <;> rfl
  simp only [EndsBefore, hends]

theorem Rank.endsBefore_caret : Rank.atom.EndsBefore (.operator .pow :: ts) := by
  intro t ht
  obtain rfl : Token.operator .pow = t := by simpa using ht
  rfl

theorem Rank.not_endsBefore_caret : ¬Rank.power.EndsBefore (.operator .pow :: ts) :=
  fun h => absurd (h _ rfl) (by simp [endsAt])

theorem Rank.not_endsBefore_leftParen : ¬r.EndsBefore (.leftParen :: ts) := by
  intro h
  have hends := h _ rfl
  cases r <;> exact absurd hends Bool.false_ne_true

theorem OnlyPhrase.unary (hp : Derives .power as p) (h : OnlyPhrase .power as p) :
    OnlyPhrase .unary as p := by
  intro bs t x y ht heq hx hy
  obtain ⟨u, us, rfl, -, hop⟩ := hp.exists_cons
  cases ht with
  | power ht =>
    exact h ht heq (Rank.endsBefore_unary_iff.mp hx) (Rank.endsBefore_unary_iff.mp hy)
  | plus | minus => exact absurd (List.cons.inj heq).1 (hop (.inl rfl) _)

theorem OnlyPhrase.sign {op : Operator} {negative : Bool} (hop : op.IsSign negative)
    (h : OnlyPhrase .unary as p) : OnlyPhrase .unary (.operator op :: as) (.sign negative p) := by
  intro bs t x y ht heq hx hy
  cases ht with
  | power ht =>
    obtain ⟨u, us, rfl, -, hnone⟩ := ht.exists_cons
    exact absurd (List.cons.inj heq).1.symm (hnone (.inl rfl) _)
  | plus ht | minus ht =>
    obtain ⟨hhead, hrest⟩ := List.cons.inj heq
    cases hhead
    obtain ⟨rfl, rfl⟩ := h ht hrest hx hy
    simp_all [Operator.IsSign]

theorem OnlyPhrase.power (h : OnlyPhrase .atom as p) : OnlyPhrase .power as p := by
  intro bs t x y ht heq hx hy
  cases ht with
  | atom ht => exact h ht heq hx.atom hy.atom
  | raised ht _ =>
    rw [List.append_assoc] at heq
    obtain ⟨rfl, -⟩ := h ht heq hx.atom Rank.endsBefore_caret
    rw [List.append_cancel_left_eq] at heq
    exact absurd (heq ▸ hx) Rank.not_endsBefore_caret

theorem OnlyPhrase.raised (h : OnlyPhrase .atom as p) (hq : OnlyPhrase .unary bs q) :
    OnlyPhrase .power (as ++ .operator .pow :: bs) (.binary .pow p q) := by
  intro cs t x y ht heq hx hy
  rw [List.append_assoc] at heq
  cases ht with
  | atom ht =>
    obtain ⟨rfl, -⟩ := h ht heq Rank.endsBefore_caret hy.atom
    rw [List.append_cancel_left_eq] at heq
    exact absurd (heq ▸ hy) Rank.not_endsBefore_caret
  | raised ht hu =>
    rw [List.append_assoc] at heq
    obtain ⟨rfl, rfl⟩ := h ht heq Rank.endsBefore_caret Rank.endsBefore_caret
    rw [List.append_cancel_left_eq] at heq
    obtain ⟨rfl, rfl⟩ := hq hu (List.cons.inj heq).2 (Rank.endsBefore_unary_iff.mpr hx)
      (Rank.endsBefore_unary_iff.mpr hy)
    exact ⟨rfl, rfl⟩

theorem OnlyPhrase.call {s : String} (h : OnlyArguments ts ps) :
    OnlyPhrase .atom (.name s :: .leftParen :: (ts ++ [.rightParen])) (.call s ps) := by
  intro bs t x y ht heq hx hy
  cases ht with
  | number | group => simp at heq
  | name =>
    rw [← show _ = y from (List.cons.inj heq).2] at hy
    exact absurd hy Rank.not_endsBefore_leftParen
  | call _ ht =>
    simp only [List.cons_append, List.append_assoc, List.nil_append, List.cons.injEq,
      Token.name.injEq] at heq
    obtain ⟨rfl, -, hrest⟩ := heq
    obtain ⟨rfl, rfl⟩ := h ht hrest
    exact ⟨rfl, rfl⟩

theorem OnlyPhrase.group (h : OnlyPhrase .sum ts p) :
    OnlyPhrase .atom (.leftParen :: (ts ++ [.rightParen])) (.group p) := by
  intro bs t x y ht heq hx hy
  cases ht with
  | number | name | call => simp at heq
  | group ht =>
    simp only [List.cons_append, List.append_assoc, List.nil_append, List.cons.injEq,
      true_and] at heq
    obtain ⟨rfl, rfl⟩ := h ht heq Rank.endsBefore_rightParen Rank.endsBefore_rightParen
    exact ⟨rfl, rfl⟩

/-- The first argument ends at the first comma or closing parenthesis outside of it. -/
theorem OnlyArguments.last (hp : Derives .sum ts p) (h : OnlyPhrase .sum ts p) :
    OnlyArguments ts [p] := by
  intro us qs x y hus heq
  cases hus with
  | none =>
    obtain ⟨u, us, rfl, hparen, -⟩ := hp.exists_cons
    exact absurd (List.cons.inj heq).1 hparen
  | last hu =>
    obtain ⟨rfl, rfl⟩ := h hu heq Rank.endsBefore_rightParen Rank.endsBefore_rightParen
    exact ⟨rfl, rfl⟩
  | comma hu _ =>
    rw [List.append_assoc] at heq
    obtain ⟨rfl, -⟩ := h hu heq Rank.endsBefore_rightParen Rank.endsBefore_comma
    simp at heq

theorem OnlyArguments.comma {us : List (Token K)} (hp : Derives .sum ts p)
    (h : OnlyPhrase .sum ts p) (hrest : OnlyArguments us (q :: ps)) :
    OnlyArguments (ts ++ .comma :: us) (p :: q :: ps) := by
  intro vs qs x y hvs heq
  rw [List.append_assoc] at heq
  cases hvs with
  | none =>
    obtain ⟨u, us, rfl, hparen, -⟩ := hp.exists_cons
    exact absurd (List.cons.inj heq).1 hparen
  | last hu =>
    obtain ⟨rfl, -⟩ := h hu heq Rank.endsBefore_comma Rank.endsBefore_rightParen
    simp at heq
  | comma hu hus =>
    rw [List.append_assoc] at heq
    obtain ⟨rfl, rfl⟩ := h hu heq Rank.endsBefore_comma Rank.endsBefore_comma
    rw [List.append_cancel_left_eq] at heq
    obtain ⟨rfl, hps⟩ := hrest hus (List.cons.inj heq).2
    exact ⟨rfl, congrArg (p :: ·) hps⟩

theorem Derives.onlyPhrase (h : Derives r ts p) :
    (r = .sum ∨ r = .product → OnlyExtended r ts p) ∧ OnlyPhrase r ts p := by
  have hchain : ∀ {r ts p}, r = .sum ∨ r = .product → OnlyExtended r ts p →
      (r = .sum ∨ r = .product → OnlyExtended (K := K) r ts p) ∧ OnlyPhrase r ts p :=
    fun hr h => ⟨fun _ => h, h.onlyPhrase hr⟩
  induction h using Derives.rec (motive_2 := fun ts ps _ => OnlyArguments ts ps) with
  | product _ ih => exact hchain (.inl rfl) (ih.2.onlyExtended (.inl rfl))
  | term hop _ _ ihp ihq => exact hchain (.inl rfl) ((ihp.1 (.inl rfl)).join (.inl rfl) hop ihq.2)
  | unary _ ih => exact hchain (.inr rfl) (ih.2.onlyExtended (.inr rfl))
  | factor hop _ _ ihp ihq =>
    exact hchain (.inr rfl) ((ihp.1 (.inr rfl)).join (.inr rfl) hop ihq.2)
  | power h ih => exact ⟨nofun, ih.2.unary h⟩
  | plus _ ih => exact ⟨nofun, ih.2.sign (.inl ⟨rfl, rfl⟩)⟩
  | minus _ ih => exact ⟨nofun, ih.2.sign (.inr ⟨rfl, rfl⟩)⟩
  | atom _ ih => exact ⟨nofun, ih.2.power⟩
  | raised _ _ ihp ihq => exact ⟨nofun, ihp.2.raised ihq.2⟩
  | number x =>
    refine ⟨nofun, fun bs t x y ht heq _ _ => ?_⟩
    cases ht <;> simp_all
  | name s =>
    refine ⟨nofun, fun bs t x y ht heq hx _ => ?_⟩
    cases ht with
    | name => simp_all
    | call =>
      rw [show x = _ from (List.cons.inj heq).2] at hx
      exact absurd hx Rank.not_endsBefore_leftParen
    | number | group => simp at heq
  | call s _ ih => exact ⟨nofun, OnlyPhrase.call ih⟩
  | group _ ih => exact ⟨nofun, ih.2.group⟩
  | none =>
    intro us qs x y hus heq
    cases hus with
    | none => exact ⟨rfl, rfl⟩
    | last hu | comma hu _ =>
      obtain ⟨u, us, rfl, hparen, -⟩ := hu.exists_cons
      exact absurd (List.cons.inj heq).1.symm hparen
  | last h ih => exact OnlyArguments.last h ih.2
  | comma h _ ih ihrest => exact OnlyArguments.comma h ih.2 ihrest

/-- **The grammar is unambiguous.** -/
theorem Derives.unique (hp : Derives r ts p) (hq : Derives r ts q) : p = q :=
  (hp.onlyPhrase.2 (x := []) (y := []) hq rfl nofun nofun).2

end Unique

end DensityKernel
