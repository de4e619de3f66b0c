import DensityKernel.Proofs.NormalForm.Tidy

/-!
The weight of a tree. A coefficient weighs five wherever one could stand: in front of a product
that has none (`led`), and in front of every term of a sum (`term`). So like terms and factors of
equal base are lighter together, while a coefficient that comes or goes changes nothing for the
tree around it. What the rules for sums and products do either makes a tree lighter, or the factors
or terms were tidy before except for their order.
-/

namespace DensityKernel

/-- What a tree weighs by itself, with a coefficient in front, and as a term of a sum. -/
structure Weight where
  bare : Nat
  led : Nat
  term : Nat
  two_le_bare : 2 ≤ bare
  bare_le_led : bare ≤ led
  led_le : led ≤ bare + 5
  bare_le_term : bare ≤ term
  term_le : term ≤ bare + 5
  six_le_term : 6 ≤ term

namespace Weight

/-- Neither sum nor product. -/
def single (n : Nat) (h : 2 ≤ n) : Weight where
  bare := n
  led := n + 5
  term := n + 5
  two_le_bare := h
  bare_le_led := by omega
  led_le := le_rfl
  bare_le_term := by omega
  term_le := le_rfl
  six_le_term := by omega

/-- A literal is its own coefficient. -/
def literal : Weight where
  bare := 2
  led := 2
  term := 6
  two_le_bare := le_rfl
  bare_le_led := le_rfl
  led_le := by omega
  bare_le_term := by omega
  term_le := by omega
  six_le_term := le_rfl

def sum (a b : Weight) : Weight where
  bare := a.term + b.term
  led := a.term + b.term + 5
  term := a.term + b.term
  two_le_bare := by have := a.six_le_term; omega
  bare_le_led := by omega
  led_le := le_rfl
  bare_le_term := le_rfl
  term_le := by omega
  six_le_term := by have := a.six_le_term; omega

variable (w a b : Weight)

theorem bounds : 2 ≤ w.bare ∧ w.bare ≤ w.led ∧ w.led ≤ w.bare + 5 ∧ w.bare ≤ w.term ∧
    w.term ≤ w.bare + 5 ∧ 6 ≤ w.term :=
  ⟨w.two_le_bare, w.bare_le_led, w.led_le, w.bare_le_term, w.term_le, w.six_le_term⟩

/-- The coefficient stands in either factor. -/
def product : Weight where
  bare := a.bare + b.bare + 3
  led := min (a.led + b.bare) (a.bare + b.led) + 3
  term := min (a.led + b.bare) (a.bare + b.led) + 3
  two_le_bare := by have := a.bounds; omega
  bare_le_led := by have := a.bounds; have := b.bounds; omega
  led_le := by have := a.bounds; omega
  bare_le_term := by have := a.bounds; have := b.bounds; omega
  term_le := by have := a.bounds; omega
  six_le_term := by have := a.bounds; have := b.bounds; omega

def ofOperator : Operator → Weight → Weight → Weight
  | .add, a, b | .sub, a, b => sum a b
  | .mul, a, b => product a b
  | .div, a, b => single (a.bare + 2 * b.bare + 10) (by omega)
  | .pow, a, b => single (2 * a.bare + b.bare) (by have := a.bounds; omega)

/-- Not heavier in any place. -/
structure AtMost (a b : Weight) : Prop where
  bare : a.bare ≤ b.bare
  led : a.led ≤ b.led
  term : a.term ≤ b.term

/-- Lighter in every place. -/
structure Below (a b : Weight) : Prop where
  bare : a.bare < b.bare
  led : a.led < b.led
  term : a.term < b.term

variable {a b} {a' b' : Weight}

theorem AtMost.refl (a : Weight) : a.AtMost a :=
  ⟨le_rfl, le_rfl, le_rfl⟩

theorem AtMost.trans {c : Weight} (h : a.AtMost b) (h' : b.AtMost c) : a.AtMost c :=
  ⟨h.bare.trans h'.bare, h.led.trans h'.led, h.term.trans h'.term⟩

theorem Below.atMost (h : a.Below b) : a.AtMost b :=
  ⟨h.bare.le, h.led.le, h.term.le⟩

theorem AtMost.trans_below {c : Weight} (h : a.AtMost b) (h' : b.Below c) : a.Below c :=
  ⟨h.bare.trans_lt h'.bare, h.led.trans_lt h'.led, h.term.trans_lt h'.term⟩

theorem Below.trans_atMost {c : Weight} (h : a.Below b) (h' : b.AtMost c) : a.Below c :=
  ⟨h.bare.trans_le h'.bare, h.led.trans_le h'.led, h.term.trans_le h'.term⟩

theorem ofOperator_atMost (op : Operator) (ha : a'.AtMost a) (hb : b'.AtMost b) :
    (ofOperator op a' b').AtMost (ofOperator op a b) := by
  obtain ⟨ha₁, ha₂, ha₃⟩ := ha
  obtain ⟨hb₁, hb₂, hb₃⟩ := hb
  cases op <;> constructor <;> simp only [ofOperator, sum, product, single] <;> omega

/-- A node is lighter as soon as one of its operands is. -/
theorem ofOperator_below (op : Operator) (ha : a'.AtMost a) (hb : b'.AtMost b)
    (h : a'.Below a ∨ b'.Below b) : (ofOperator op a' b').Below (ofOperator op a b) := by
  obtain ⟨ha₁, ha₂, ha₃⟩ := ha
  obtain ⟨hb₁, hb₂, hb₃⟩ := hb
  rcases h with ⟨h₁, h₂, h₃⟩ | ⟨h₁, h₂, h₃⟩ <;> cases op <;> constructor <;>
    simp only [ofOperator, sum, product, single] <;> omega

/-- An operand is lighter than a sum. -/
theorem left_below_sum (a b : Weight) : a.Below (a.sum b) := by
  have ha := a.bounds
  have hb := b.bounds
  constructor <;> simp only [Weight.sum] <;> omega

theorem right_below_sum (a b : Weight) : b.Below (a.sum b) := by
  have ha := a.bounds
  have hb := b.bounds
  constructor <;> simp only [Weight.sum] <;> omega

/-- An operand is not heavier than a product. -/
theorem left_atMost_product (a b : Weight) : a.AtMost (a.product b) := by
  have ha := a.bounds
  have hb := b.bounds
  constructor <;> simp only [Weight.product] <;> omega

theorem right_atMost_product (a b : Weight) : b.AtMost (a.product b) := by
  have ha := a.bounds
  have hb := b.bounds
  constructor <;> simp only [Weight.product] <;> omega

end Weight

namespace Expr

variable {K : Type}

mutual

def weight : Expr K → Weight
  | .num _ => .literal
  | .sym _ => .single 2 le_rfl
  | .call _ args => .single (2 + weightArgs args) (Nat.le_add_right 2 _)
  | .binary op u v => .ofOperator op u.weight v.weight

/-- Arguments do not get coefficients. -/
def weightArgs : List (Expr K) → Nat
  | [] => 0
  | a :: args => a.weight.bare + weightArgs args

end

@[simp] theorem weight_num (x : K) : (num x).weight = .literal := by rw [weight]

@[simp] theorem weight_binary (op : Operator) (u v : Expr K) :
    (binary op u v).weight = .ofOperator op u.weight v.weight := by rw [weight]

end Expr

namespace NormalForm

open DensityKernel.Expr

/-- What is dropped is missing from the sum. -/
theorem sum_filter_cases {α : Type} {weigh : α → Nat} (hweigh : ∀ x, 0 < weigh x)
    (kept : α → Bool) (xs : List α) :
    ((xs.filter kept).map weigh).sum < (xs.map weigh).sum ∨ xs.filter kept = xs := by
  induction xs with
  | nil => exact .inr rfl
  | cons x xs ih =>
    have hx := hweigh x
    rw [List.filter_cons]
    split_ifs
    · rcases ih with hlt | heq
      · refine .inl ?_
        rw [List.map_cons, List.map_cons, List.sum_cons, List.sum_cons]
        omega
      · exact .inr (congrArg (x :: ·) heq)
    · refine .inl ?_
      rw [List.map_cons, List.sum_cons]
      rcases ih with hlt | heq
      · omega
      · rw [heq]
        omega

/-! ### Products -/

section Products

variable {K : Type}

/-- The weight of a product of some factors, and three more. -/
def load (fs : List (Expr K)) : Nat :=
  (fs.map fun f => f.weight.bare + 3).sum

@[simp] theorem load_nil : load ([] : List (Expr K)) = 0 := rfl

@[simp] theorem load_cons (f : Expr K) (fs : List (Expr K)) :
    load (f :: fs) = f.weight.bare + 3 + load fs := by
  simp [load]

@[simp] theorem load_append (fs fs' : List (Expr K)) : load (fs ++ fs') = load fs + load fs' := by
  simp [load]

theorem load_perm {fs fs' : List (Expr K)} (h : fs.Perm fs') : load fs = load fs' :=
  (h.map _).sum_eq

theorem load_filter_cases {α : Type} (factor : α → Expr K) (kept : α → Bool) (xs : List α) :
    load ((xs.filter kept).map factor) < load (xs.map factor) ∨ xs.filter kept = xs := by
  simp only [load, List.map_map]
  exact sum_filter_cases (fun _ => Nat.succ_pos _) kept xs

/-- The number of literals among some factors. -/
def literalCount (fs : List (Expr K)) : Nat :=
  (fs.filterMap literal?).length

/-- **A product weighs as much as its factors**, with one of the literals or a coefficient more. -/
theorem weight_factors (e : Expr K) :
    e.weight.bare + 3 = load (nonLiterals (factors e)) + 5 * literalCount (factors e) ∧
      e.weight.led + 3 = load (nonLiterals (factors e)) + 5 * max 1 (literalCount (factors e)) := by
  have hsingle : ∀ e : Expr K, e.literal? = none → e.weight.led = e.weight.bare + 5 →
      e.weight.bare + 3 = load (nonLiterals [e]) + 5 * literalCount [e] ∧
        e.weight.led + 3 = load (nonLiterals [e]) + 5 * max 1 (literalCount [e]) := by
    intro e he hled
    have hcount : literalCount [e] = 0 := by rw [literalCount, List.filterMap_cons, he]; rfl
    have hkept : nonLiterals [e] = [e] := by
      rw [nonLiterals, List.filter_cons_of_pos (by rw [he]; rfl), List.filter_nil]
    rw [hcount, hkept, hled, load_cons, load_nil]
    omega
  induction e using factors.induct with
  | case1 u v ihu ihv =>
    have happend : nonLiterals (factors u ++ factors v) =
        nonLiterals (factors u) ++ nonLiterals (factors v) := List.filter_append ..
    have hcount : literalCount (factors u ++ factors v) =
        literalCount (factors u) + literalCount (factors v) := by simp [literalCount]
    rw [factors, happend, load_append, hcount, weight_binary, Weight.ofOperator]
    simp only [Weight.product]
    omega
  | case2 e hne =>
    cases e with
    | num => exact ⟨rfl, rfl⟩
    | sym | call => exact hsingle _ rfl rfl
    | binary op u v =>
      cases op with
      | mul => exact absurd rfl (hne u v)
      | add | sub | div | pow => exact hsingle _ rfl rfl

/-- A product ends up as light as its first factor and the others allow. -/
theorem weight_foldl (fs : List (Expr K)) (u : Expr K) :
    (fs.foldl .mul u).weight.bare = u.weight.bare + load fs ∧
      (fs.foldl .mul u).weight.led ≤ u.weight.led + load fs ∧
        (fs.foldl .mul u).weight.term ≤ max u.weight.led u.weight.term + load fs := by
  induction fs generalizing u with
  | nil => simp
  | cons f fs ih =>
    obtain ⟨hbare, hled, hterm⟩ := ih (.mul u f)
    rw [List.foldl_cons, load_cons]
    rw [weight_binary] at hbare hled hterm
    simp only [Weight.ofOperator, Weight.product] at hbare hled hterm
    omega

theorem literal_below (x : K) (op : Operator) (u v : Expr K) :
    (Expr.num x).weight.Below (Expr.binary op u v).weight := by
  have hu := u.weight.bounds
  have hv := v.weight.bounds
  rw [weight_num, weight_binary]
  cases op <;> constructor <;>
    simp only [Weight.literal, Weight.ofOperator, Weight.sum, Weight.product, Weight.single] <;>
    omega

variable [Literal K] {fs : List (Expr K)} {c : K}

theorem weight_buildProduct (hne : fs ≠ []) :
    (buildProduct c fs).weight.bare + 3 = load fs + (if Literal.isOne c then 0 else 5) ∧
      (buildProduct c fs).weight.led ≤ load fs + 2 ∧
        (buildProduct c fs).weight.term ≤ load fs + 2 := by
  obtain ⟨f, fs, rfl⟩ := List.exists_cons_of_ne_nil hne
  have hf := f.weight.bounds
  rw [buildProduct, load_cons]
  split_ifs
  · have hfold := weight_foldl fs f
    omega
  · have hfold := weight_foldl fs (.mul (.num c) f)
    rw [weight_binary, weight_num] at hfold
    simp only [Weight.ofOperator, Weight.product, Weight.literal] at hfold
    omega

end Products

/-! ### Sums -/

section Sums

variable {K : Type}

/-- The weight of a term with its coefficient. -/
def Term.load (t : Term K) : Nat :=
  match t.rest with
  | none => 6
  | some r => r.weight.bare + 5

theorem Term.six_le_load (t : Term K) : 6 ≤ t.load := by
  unfold Term.load
  split
  · exact le_rfl
  · rename_i r _
    have hr := r.weight.bounds
    omega

def termLoad (ts : List (Term K)) : Nat :=
  (ts.map Term.load).sum

@[simp] theorem termLoad_nil : termLoad ([] : List (Term K)) = 0 := rfl

@[simp] theorem termLoad_cons (t : Term K) (ts : List (Term K)) :
    termLoad (t :: ts) = t.load + termLoad ts := by
  simp [termLoad]

@[simp] theorem termLoad_append (ts ts' : List (Term K)) :
    termLoad (ts ++ ts') = termLoad ts + termLoad ts' := by
  simp [termLoad]

theorem termLoad_perm {ts ts' : List (Term K)} (h : ts.Perm ts') : termLoad ts = termLoad ts' :=
  (h.map _).sum_eq

theorem termLoad_filter_cases {α : Type} (term : α → Term K) (kept : α → Bool) (xs : List α) :
    termLoad ((xs.filter kept).map term) < termLoad (xs.map term) ∨ xs.filter kept = xs := by
  simp only [termLoad, List.map_map]
  exact sum_filter_cases (fun x => Nat.lt_of_lt_of_le (by decide) (term x).six_le_load) kept xs

theorem six_mul_length_le (ts : List (Term K)) : 6 * ts.length ≤ termLoad ts := by
  induction ts with
  | nil => exact Nat.zero_le _
  | cons t ts ih =>
    have ht := t.six_le_load
    rw [List.length_cons, termLoad_cons]
    omega

theorem weight_of_isSum {e : Expr K} (h : e.isSum = true) :
    e.weight.bare = e.weight.term ∧ e.weight.led = e.weight.term + 5 := by
  cases e with
  | num | sym | call => cases h
  | binary op u v =>
    rw [weight_binary]
    cases op with
    | add | sub => exact ⟨rfl, rfl⟩
    | mul | div | pow => cases h

variable [Literal K] {e : Expr K} {t : Term K} {ts : List (Term K)}

theorem length_terms_pos (sign : K) (e : Expr K) : 0 < (terms sign e).length := by
  induction e generalizing sign with
  | num | sym | call => exact Nat.one_pos
  | binary op u v ihu _ =>
    cases op with
    | add | sub =>
      have hu := ihu sign
      rw [terms, List.length_append]
      omega
    | mul | div | pow => exact Nat.one_pos

theorem two_le_length_terms (sign : K) (h : e.isSum = true) : 2 ≤ (terms sign e).length := by
  cases e with
  | num | sym | call => cases h
  | binary op u v =>
    cases op with
    | add =>
      have hu := length_terms_pos sign u
      have hv := length_terms_pos sign v
      rw [terms, List.length_append]
      omega
    | sub =>
      have hu := length_terms_pos sign u
      have hv := length_terms_pos (-sign) v
      rw [terms, List.length_append]
      omega
    | mul | div | pow => cases h

theorem weight_toExpr (t : Term K) :
    t.toExpr.weight.bare ≤ t.load ∧ t.toExpr.weight.led ≤ t.load ∧ t.toExpr.weight.term ≤ t.load ∧
      (t.toExpr.weight.term = t.load → t.Marked) := by
  obtain ⟨x, rest⟩ := t
  cases rest with
  | none =>
    have hnum : (⟨x, none⟩ : Term K).toExpr = .num x := rfl
    rw [hnum, weight_num]
    exact ⟨(by decide : 2 ≤ 6), (by decide : 2 ≤ 6), le_rfl, fun _ => nofun⟩
  | some r =>
    have hr := r.weight.bounds
    simp only [Term.toExpr, buildProduct, List.foldl_nil, Term.load]
    split_ifs with hone
    · refine ⟨by omega, by omega, by omega, ?_⟩
      rintro heq r' ⟨⟩ hsum
      have hbare := (weight_of_isSum hsum).1
      omega
    · rw [weight_binary, weight_num]
      simp only [Weight.ofOperator, Weight.product, Weight.literal]
      refine ⟨by omega, by omega, by omega, ?_⟩
      rintro - r' - -
      exact Bool.eq_false_iff.mpr hone

theorem load_unsigned (t : Term K) : t.unsigned.load = t.load := by
  unfold Term.unsigned
  split_ifs <;> rfl

theorem weight_appendTerm (sum : Expr K) (t : Term K) :
    (appendTerm sum t).weight = sum.weight.sum t.unsigned.toExpr.weight := by
  unfold appendTerm Term.unsigned
  split_ifs <;> rw [weight_binary] <;> rfl

theorem isSum_buildSum (hlength : 2 ≤ ts.length) : (buildSum ts).isSum = true := by
  induction ts using List.reverseRecOn with
  | nil => cases hlength
  | append_singleton ts t _ =>
    have hne : ts ≠ [] := by
      rintro rfl
      exact absurd hlength (by simp)
    rw [buildSum_concat hne, appendTerm]
    split_ifs <;> rfl

/-- A sum is lighter than its terms if one of them can do without its coefficient. -/
theorem term_buildSum (hne : ts ≠ []) :
    (buildSum ts).weight.term ≤ termLoad ts ∧
      ((buildSum ts).weight.term = termLoad ts →
        (∀ t ∈ ts.head?, t.Marked) ∧ ∀ t ∈ ts.tail, t.unsigned.Marked) := by
  induction ts using List.reverseRecOn with
  | nil => exact absurd rfl hne
  | append_singleton ts t ih =>
    by_cases hts : ts = []
    · subst hts
      obtain ⟨-, -, hle, hmarked⟩ := weight_toExpr t
      have hsingle : buildSum ([] ++ [t]) = t.toExpr := rfl
      have hload : termLoad ([] ++ [t]) = t.load := by simp
      rw [hsingle, hload]
      refine ⟨hle, fun heq => ⟨?_, nofun⟩⟩
      rintro t' ⟨⟩
      exact hmarked heq
    obtain ⟨hle, hmarked⟩ := ih hts
    obtain ⟨-, -, hle', hmarked'⟩ := weight_toExpr t.unsigned
    rw [load_unsigned] at hle' hmarked'
    rw [buildSum_concat hts, weight_appendTerm, termLoad_append, termLoad_cons, termLoad_nil]
    simp only [Weight.sum]
    refine ⟨by omega, fun heq => ?_⟩
    obtain ⟨hfirst, hlater⟩ := hmarked (by omega)
    constructor
    · intro t' ht'
      rw [List.head?_append_of_ne_nil _ hts] at ht'
      exact hfirst t' ht'
    · rw [List.tail_append_of_ne_nil hts]
      exact List.forall_mem_append.mpr ⟨hlater, List.forall_mem_singleton.mpr (hmarked' (by omega))⟩

variable [Neutral K]

theorem load_ofExpr (sign : K) (he : e.isSum = false) :
    (Term.ofExpr sign e).load ≤ e.weight.term := by
  cases e with
  | num x => exact le_rfl
  | sym | call => exact le_rfl
  | binary op u v =>
    cases op with
    | add | sub => cases he
    | div | pow => exact le_rfl
    | mul =>
      show (Term.ofExpr sign (.mul u v)).load ≤ (Expr.mul u v).weight.term
      have hterm : (Expr.mul u v).weight.term = (Expr.mul u v).weight.led := by
        rw [weight_binary]
        rfl
      obtain ⟨-, hled⟩ := weight_factors (.mul u v)
      rw [ofExpr_mul, Term.load]
      split_ifs with hnil
      · exact (Expr.mul u v).weight.six_le_term
      · obtain ⟨hbare, -⟩ := weight_buildProduct (c := Literal.one) hnil
        rw [if_pos Neutral.isOne_one] at hbare
        dsimp only
        omega

/-- The terms of a sum are not heavier than the sum. -/
theorem termLoad_terms (sign : K) (e : Expr K) : termLoad (terms sign e) ≤ e.weight.term := by
  have hterm : ∀ {sign : K} {e : Expr K}, e.isSum = false →
      termLoad [Term.ofExpr sign e] ≤ e.weight.term := by
    intro sign e he
    rw [termLoad_cons, termLoad_nil]
    exact load_ofExpr sign he
  induction e generalizing sign with
  | num | sym | call => exact hterm rfl
  | binary op u v ihu ihv =>
    cases op with
    | add | sub =>
      rw [terms, termLoad_append, weight_binary]
      exact Nat.add_le_add (ihu _) (ihv _)
    | mul | div | pow => exact hterm rfl

end Sums

/-! ### Rules for other nodes -/

section Rules

variable {K : Type} [Literal K] {e r : Expr K}

theorem foldCall_below (h : foldCall e = some r) : r.weight.Below e.weight := by
  unfold foldCall at h
  split at h
  · obtain ⟨f, -, h⟩ := Option.bind_eq_some_iff.mp h
    obtain ⟨-, h⟩ := Option.ite_none_right_eq_some.mp h
    obtain rfl := Option.some.inj h
    simp only [weight, weightArgs]
    constructor <;> simp only [Weight.single, Weight.literal] <;> omega
  · cases h

/-- A quotient weighs more than a product with a power. -/
theorem inverted_cases (e : Expr K) :
    (inverted e).weight.Below e.weight ∨ inverted e = e := by
  unfold inverted invertDenominator
  split
  · rename_i u n
    dsimp only
    split_ifs
    · refine .inl ?_
      have hu := u.weight.bounds
      rw [Option.getD_some, weight_binary, weight_binary, weight_num, weight_num]
      constructor <;>
        simp only [Weight.ofOperator, Weight.single, Weight.product, Weight.literal] <;> omega
    · exact .inr rfl
  · rename_i u v _
    refine .inl ?_
    have hu := u.weight.bounds
    have hv := v.weight.bounds
    rw [Option.getD_some]
    split_ifs <;> simp only [weight_binary, weight_num] <;> constructor <;>
      simp only [Weight.ofOperator, Weight.single, Weight.product, Weight.literal] <;> omega
  · exact .inr rfl

theorem powerOfPower_below (h : powerOfPower e = some r) : r.weight.Below e.weight := by
  unfold powerOfPower at h
  split at h
  · rename_i base inner outer
    obtain rfl := Option.some.inj h
    have hbase := base.weight.bounds
    have hhidden : ∀ b : Bool, (if b then Expr.call "abs" [base] else base).weight.bare ≤
        base.weight.bare + 2 := by
      rintro (_ | _)
      · exact Nat.le_add_right _ _
      · simp only [if_true, weight, weightArgs, Weight.single]
        omega
    have hle := hhidden (Literal.isEven inner && !Literal.isEven (inner * outer) &&
      !isNonNegative base)
    simp only [weight_binary, weight_num]
    constructor <;> simp only [Weight.ofOperator, Weight.single, Weight.literal] <;> omega
  · cases h

theorem powerOfProduct_below (h : powerOfProduct e = some r) : r.weight.Below e.weight := by
  unfold powerOfProduct at h
  split at h
  · rename_i u v n
    split_ifs at h
    obtain rfl := Option.some.inj h
    simp only [weight_binary, weight_num]
    constructor <;>
      simp only [Weight.ofOperator, Weight.single, Weight.product, Weight.literal] <;> omega
  · cases h

/-- Powers of powers and of products are lighter with the exponents inside. -/
theorem raised_cases (domain : Domain) (e : Expr K) :
    (raised domain e).weight.Below e.weight ∨ raised domain e = e := by
  have hgetD : ∀ (rule : Expr K → Option (Expr K)),
      (∀ {e r}, rule e = some r → r.weight.Below e.weight) → ∀ e,
        ((rule e).getD e).weight.Below e.weight ∨ (rule e).getD e = e := by
    intro rule hrule e
    cases happlied : rule e with
    | none => exact .inr rfl
    | some r => exact .inl (hrule happlied)
  cases domain with
  | anywhere => exact .inr rfl
  | densities =>
    unfold raised
    dsimp only
    rcases hgetD powerOfProduct powerOfProduct_below ((powerOfPower e).getD e) with hlt | heq
    · rcases hgetD powerOfPower powerOfPower_below e with hlt' | heq'
      · exact .inl (hlt.trans_atMost hlt'.atMost)
      · rw [heq'] at hlt ⊢
        exact .inl hlt
    · rw [heq]
      exact hgetD powerOfPower powerOfPower_below e

end Rules

end NormalForm

end DensityKernel
