import DensityKernel.Proofs.C.Grammar

/-!
Types of C expressions, as far as a division asks for them. A number without a
point or an exponent is an integer, symbols and calls are of type double, and an
operation is on integers if both of its operands are.

`Typed` says of a text that C reads it without a division of integers, whatever
tree that makes. Where a text stands after an asterisk or a slash without
parentheses, C takes it apart and divides by its operands one after the other
(`Reads.join`); the types still say that no division is one of integers, if the
text in front of a slash is of type double.
-/

namespace DensityKernel.C

/-- A character that makes a number a floating one. -/
def marksFloating (c : Char) : Bool :=
  c == '.' || c == 'e' || c == 'E'

namespace Tree

/-- The expression has an integer type. -/
def isInteger : Tree → Bool
  | .number t => !t.any marksFloating
  | .operand _ | .call .. | .pair .. => false
  | .negative x => x.isInteger
  | .binary _ x y => x.isInteger && y.isInteger

/-- Somewhere in the expression an integer is divided by an integer. -/
def dividesIntegers : Tree → Bool
  | .number _ | .operand _ => false
  | .call _ args => args.dividesIntegers
  | .pair front last => front.dividesIntegers || last.dividesIntegers
  | .negative x => x.dividesIntegers
  | .binary op x y => decide (op = .div) && x.isInteger && y.isInteger
    || x.dividesIntegers || y.dividesIntegers

variable {op : Operator} {x y : Tree}

theorem dividesIntegers_binary : (binary op x y).dividesIntegers = false ↔
    (op = .div → (x.isInteger && y.isInteger) = false) ∧
      x.dividesIntegers = false ∧ y.dividesIntegers = false := by
  rw [dividesIntegers, Bool.or_eq_false_iff, Bool.or_eq_false_iff, Bool.and_assoc, and_assoc,
    Bool.and_eq_false_imp, decide_eq_true_iff]

end Tree

/-! ### Regrouping -/

section Reads

variable {as bs : List Token} {x y : Tree} {m : Char} {op : Operator}

theorem div_of_mem_termMarks (hm : (m, op) ∈ termMarks) : op ≠ .div := by
  rintro rfl
  simp [termMarks] at hm

/-- A product or quotient after an operator of a product: what stands in front of the operator is
joined with its first operand. -/
theorem Reads.join (hm : (m, op) ∈ factorMarks) (hx : Reads .multiplicative as x)
    (hy : Reads .multiplicative bs y) (hdiv : op = .div → x.isInteger = false)
    (hxd : x.dividesIntegers = false) (hyd : y.dividesIntegers = false) :
    ∃ z, Reads .multiplicative (as ++ .mark m :: bs) z ∧ z.dividesIntegers = false ∧
      z.isInteger = (x.isInteger && y.isInteger) := by
  generalize hlevel : Level.multiplicative = level at hy
  induction hy with
  | multiplicative hy =>
    refine ⟨.binary op x _, .factor hm hx hy, Tree.dividesIntegers_binary.mpr ⟨?_, hxd, hyd⟩, rfl⟩
    intro hop
    rw [hdiv hop, Bool.false_and]
  | @factor bs cs y w m' op' hm' hy hw ih =>
    obtain ⟨hop, hyd, hwd⟩ := Tree.dividesIntegers_binary.mp hyd
    obtain ⟨z, hz, hzd, hinteger⟩ := ih hyd hlevel
    refine ⟨.binary op' z w, by simpa using hz.factor hm' hw,
      Tree.dividesIntegers_binary.mpr ⟨fun hdivided => ?_, hzd, hwd⟩, ?_⟩
    · rw [hinteger, Bool.and_assoc, hop hdivided, Bool.and_false]
    · rw [Tree.isInteger, hinteger, Tree.isInteger, Bool.and_assoc]
  | number | operand | call | parens | unary | negative | additive | term | argument | comma =>
    nomatch hlevel

/-- A sum after a plus. -/
theorem Reads.plus (hx : Reads .additive as x) (hy : Reads .additive bs y)
    (hxd : x.dividesIntegers = false) (hyd : y.dividesIntegers = false) :
    ∃ z, Reads .additive (as ++ .mark '+' :: bs) z ∧ z.dividesIntegers = false ∧
      z.isInteger = (x.isInteger && y.isInteger) := by
  generalize hlevel : Level.additive = level at hy
  induction hy with
  | additive hy =>
    exact ⟨.binary .add x _, .term (by decide) hx hy,
      Tree.dividesIntegers_binary.mpr ⟨nofun, hxd, hyd⟩, rfl⟩
  | @term bs cs y w m op hm hy hw ih =>
    obtain ⟨-, hyd, hwd⟩ := Tree.dividesIntegers_binary.mp hyd
    obtain ⟨z, hz, hzd, hinteger⟩ := ih hyd hlevel
    refine ⟨.binary op z w, by simpa using hz.term hm hw, Tree.dividesIntegers_binary.mpr
      ⟨fun hdivided => absurd hdivided (div_of_mem_termMarks hm), hzd, hwd⟩, ?_⟩
    rw [Tree.isInteger, hinteger, Tree.isInteger, Bool.and_assoc]
  | number | operand | call | parens | unary | negative | multiplicative | factor | argument
  | comma => nomatch hlevel

/-- A minus in front of a product or quotient is one in front of its first operand. -/
theorem Reads.minus (hx : Reads .multiplicative as x) (hxd : x.dividesIntegers = false) :
    ∃ z, Reads .multiplicative (.mark '-' :: as) z ∧ z.dividesIntegers = false ∧
      z.isInteger = x.isInteger := by
  generalize hlevel : Level.multiplicative = level at hx
  induction hx with
  | multiplicative hx => exact ⟨.negative _, .multiplicative (.negative hx), hxd, rfl⟩
  | @factor as bs x y m op hm hx hy ih =>
    obtain ⟨hop, hxd, hyd⟩ := Tree.dividesIntegers_binary.mp hxd
    obtain ⟨z, hz, hzd, hinteger⟩ := ih hxd hlevel
    refine ⟨.binary op z y, hz.factor hm hy,
      Tree.dividesIntegers_binary.mpr ⟨?_, hzd, hyd⟩, ?_⟩
    · rwa [hinteger]
    · rw [Tree.isInteger, hinteger, Tree.isInteger]
  | number | operand | call | parens | unary | negative | additive | term | argument | comma =>
    nomatch hlevel

end Reads

/-! ### Typed texts -/

/-- C reads a text of a level without a division of integers. A `floating` text is of type double;
of any other nothing is said. -/
def Typed (level : Level) (floating : Bool) (cs : List Char) : Prop :=
  ∃ ts x, Lexes cs ts ∧ Reads level ts x ∧ x.dividesIntegers = false ∧
    (floating = true → x.isInteger = false)

namespace Typed

variable {level : Level} {floating floating' : Bool} {a b : List Char}

theorem mono (h : Typed level floating a) (himp : floating' = true → floating = true) :
    Typed level floating' a := by
  obtain ⟨ts, x, hlex, hreads, hdivides, hinteger⟩ := h
  exact ⟨ts, x, hlex, hreads, hdivides, fun hfloating => hinteger (himp hfloating)⟩

theorem forget (h : Typed level floating a) : Typed level false a :=
  h.mono nofun

theorem weaken {level' : Level} (h : Typed level floating a)
    (hweaken : ∀ {ts x}, Reads level ts x → Reads level' ts x) : Typed level' floating a := by
  obtain ⟨ts, x, hlex, hreads, htyped⟩ := h
  exact ⟨ts, x, hlex, hweaken hreads, htyped⟩

theorem multiplicative (h : Typed .primary floating a) : Typed .multiplicative floating a :=
  h.weaken fun hreads => .multiplicative (.unary hreads)

theorem additive (h : Typed .multiplicative floating a) : Typed .additive floating a :=
  h.weaken .additive

theorem ne_nil (h : Typed level floating a) : a ≠ [] := by
  rintro rfl
  obtain ⟨ts, x, hlex, -⟩ := h
  obtain ⟨c, hc, -⟩ := hlex.begins
  cases hc

theorem ne_minus (h : Typed .primary floating a) : a ≠ '-' :: b := by
  obtain ⟨ts, x, hlex, hreads, -⟩ := h
  exact hreads.ne_minus hlex

theorem number {t : List Char} (ht : IsNumeral t)
    (hmark : floating = true → t.any marksFloating = true) : Typed .primary floating t := by
  refine ⟨_, _, lexes_numeral ht, .number t, rfl, fun hfloating => ?_⟩
  rw [Tree.isInteger, hmark hfloating, Bool.not_true]

theorem parens (h : Typed .additive floating a) :
    Typed .primary floating ('(' :: (a ++ [')'])) := by
  obtain ⟨ts, x, hlex, hreads, htyped⟩ := h
  exact ⟨_, x, hlex.parens, .parens hreads, htyped⟩

/-- The argument of a call is typed on its own. -/
theorem call {w : List Char} (hw : isWord w = true) (h : Typed .additive floating a) :
    Typed .primary true (w ++ '(' :: (a ++ [')'])) := by
  obtain ⟨ts, x, hlex, hreads, hdivides, -⟩ := h
  exact ⟨_, _, hlex.call hw, .call w (.argument hreads), hdivides, fun _ => rfl⟩

theorem pow (ha : Typed .additive floating a) (hb : Typed .additive floating' b) :
    Typed .primary true (['p', 'o', 'w'] ++ '(' :: ((a ++ ',' :: ' ' :: b) ++ [')'])) := by
  obtain ⟨ts, x, hlex, hreads, hdivides, -⟩ := ha
  obtain ⟨ts', y, hlex', hreads', hdivides', -⟩ := hb
  refine ⟨_, _, (hlex.comma hlex').call (by decide), .call _ (.comma (.argument hreads) hreads'),
    ?_, fun _ => rfl⟩
  rw [Tree.dividesIntegers, Tree.dividesIntegers, hdivides, hdivides', Bool.or_false]

/-- Of two operands one that is of type double is enough. -/
theorem isInteger_of_or {x y : Tree} (hx : floating = true → x.isInteger = false)
    (hy : floating' = true → y.isInteger = false) (h : (floating || floating') = true) :
    (x.isInteger && y.isInteger) = false := by
  rcases Bool.or_eq_true_iff.mp h with hfloating | hfloating
  · rw [hx hfloating, Bool.false_and]
  · rw [hy hfloating, Bool.and_false]

/-- A product or quotient of two texts. A text of type double is divided. -/
theorem join {m : Char} {op : Operator} (hm : (m, op) ∈ factorMarks)
    (ha : Typed .multiplicative floating a) (hb : Typed .multiplicative floating' b)
    (hdiv : op = .div → floating = true) :
    Typed .multiplicative (floating || floating') (a ++ m :: b) := by
  obtain ⟨ts, x, hlex, hreads, hdivides, hinteger⟩ := ha
  obtain ⟨ts', y, hlex', hreads', hdivides', hinteger'⟩ := hb
  have hmark : m ∈ ['*', '/'] := List.mem_map_of_mem (f := Prod.fst) hm
  obtain ⟨z, hz, hzd, hboth⟩ :=
    hreads.join hm hreads' (fun hop => hinteger (hdiv hop)) hdivides hdivides'
  refine ⟨_, z, hlex.times hmark hlex', hz, hzd, fun hfloating => ?_⟩
  rw [hboth]
  exact isInteger_of_or hinteger hinteger' hfloating

/-- A sum or difference, the right operand of which is no sum. -/
theorem term {m : Char} {op : Operator} (hm : (m, op) ∈ termMarks)
    (ha : Typed .additive floating a) (hb : Typed .multiplicative floating' b) :
    Typed .additive (floating || floating') (a ++ ' ' :: m :: ' ' :: b) := by
  obtain ⟨ts, x, hlex, hreads, hdivides, hinteger⟩ := ha
  obtain ⟨ts', y, hlex', hreads', hdivides', hinteger'⟩ := hb
  have hmark : m ∈ ['+', '-'] := List.mem_map_of_mem (f := Prod.fst) hm
  exact ⟨_, .binary op x y, hlex.plus hmark hlex', .term hm hreads hreads',
    Tree.dividesIntegers_binary.mpr
      ⟨fun hop => absurd hop (div_of_mem_termMarks hm), hdivides, hdivides'⟩,
    isInteger_of_or hinteger hinteger'⟩

theorem plus (ha : Typed .additive floating a) (hb : Typed .additive floating' b) :
    Typed .additive (floating || floating') (a ++ ' ' :: '+' :: ' ' :: b) := by
  obtain ⟨ts, x, hlex, hreads, hdivides, hinteger⟩ := ha
  obtain ⟨ts', y, hlex', hreads', hdivides', hinteger'⟩ := hb
  obtain ⟨z, hz, hzd, hboth⟩ := hreads.plus hreads' hdivides hdivides'
  refine ⟨_, z, hlex.plus (by decide) hlex', hz, hzd, fun hfloating => ?_⟩
  rw [hboth]
  exact isInteger_of_or hinteger hinteger' hfloating

theorem minus (h : Typed .multiplicative floating a) (hplain : ∀ ds, a ≠ '-' :: ds) :
    Typed .multiplicative floating ('-' :: a) := by
  have hminus : ∀ c ∈ a.head?, c ≠ '-' := by
    rintro c hc rfl
    obtain ⟨cs, rfl⟩ := List.head?_eq_some_iff.mp hc
    exact hplain cs rfl
  obtain ⟨ts, x, hlex, hreads, hdivides, hinteger⟩ := h
  obtain ⟨z, hz, hzd, hsame⟩ := hreads.minus hdivides
  exact ⟨_, z, hlex.minus hminus, hz, hzd, fun hfloating => hsame.trans (hinteger hfloating)⟩

end Typed

/-- The text of a C operand of type double. -/
def IsDoubleOperand (text : String) : Prop :=
  Typed .primary true text.toList

/-- Identifiers and fields are of type double. -/
theorem IsOperand.isDoubleOperand {text : String} (h : IsOperand text.toList) :
    IsDoubleOperand text := by
  obtain ⟨ts, haccess, hlex⟩ := h.lexes
  exact ⟨ts, _, hlex, .operand haccess, rfl, fun _ => rfl⟩

/-! ### Signs -/

/-- A product or quotient, or a minus in front of one. -/
inductive TypedSigned (floating : Bool) : List Char → Prop
  | plain {cs : List Char} : Typed .multiplicative floating cs → (∀ ds, cs ≠ '-' :: ds) →
    TypedSigned floating cs
  | minus {cs : List Char} : Typed .multiplicative floating cs → (∀ ds, cs ≠ '-' :: ds) →
    TypedSigned floating ('-' :: cs)

namespace TypedSigned

variable {floating floating' : Bool} {a b : List Char}

theorem of_primary (h : Typed .primary floating a) : TypedSigned floating a :=
  .plain h.multiplicative fun _ => h.ne_minus

theorem negative (h : Typed .primary floating a) : TypedSigned floating ('-' :: a) :=
  .minus h.multiplicative fun _ => h.ne_minus

theorem mono (h : TypedSigned floating a) (himp : floating' = true → floating = true) :
    TypedSigned floating' a := by
  cases h with
  | plain h hplain => exact .plain (h.mono himp) hplain
  | minus h hplain => exact .minus (h.mono himp) hplain

theorem forget (h : TypedSigned floating a) : TypedSigned false a :=
  h.mono nofun

theorem multiplicative (h : TypedSigned floating a) : Typed .multiplicative floating a := by
  cases h with
  | plain h _ => exact h
  | minus h hplain => exact h.minus hplain

/-- What is left without the minus. -/
theorem stripped (h : TypedSigned floating ('-' :: a)) : Typed .multiplicative floating a := by
  cases h with
  | plain _ hplain => exact absurd rfl (hplain a)
  | minus h _ => exact h

theorem join {m : Char} {op : Operator} (hm : (m, op) ∈ factorMarks) (ha : TypedSigned floating a)
    (hb : Typed .multiplicative floating' b) (hdiv : op = .div → floating = true) :
    TypedSigned (floating || floating') (a ++ m :: b) := by
  have plain : ∀ {cs : List Char}, Typed .multiplicative floating cs → (∀ ds, cs ≠ '-' :: ds) →
      ∀ ds, cs ++ m :: b ≠ '-' :: ds := by
    intro cs hcs hplain ds heq
    obtain ⟨c, cs, rfl⟩ := List.exists_cons_of_ne_nil hcs.ne_nil
    cases heq
    exact hplain cs rfl
  cases ha with
  | plain ha hplain => exact .plain (ha.join hm hb hdiv) (plain ha hplain)
  | minus ha hplain => exact .minus (ha.join hm hb hdiv) (plain ha hplain)

end TypedSigned

end DensityKernel.C
