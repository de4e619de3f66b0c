import DensityKernel.Expr.Basic
import DensityKernel.Proofs.C.Token

/-!
The grammar of C expressions, as far as formulas use it: calls and
parentheses bind first, then the minus of one operand, then products and
quotients, then sums and differences, each grouped from the left.

`Reads level ts x` is the grammar: one constructor to a production. A reader
that goes through the tokens once reaches the tree of every derivation
(`reached_of_reads`), so a token list has at most one tree (`reads_unique`).
-/

namespace DensityKernel.C

/-- What C reads. The arguments of a call are a pair of all but the last and
the last one, if there are several. -/
inductive Tree where
  | number (text : List Char)
  | operand (path : List Char)
  | call (name : List Char) (args : Tree)
  | pair (front last : Tree)
  | negative (x : Tree)
  | binary (op : Operator) (left right : Tree)
deriving DecidableEq

/-- How tightly a text holds together. -/
inductive Level where
  | primary | unary | multiplicative | additive | arguments

/-- The operators between the factors of a product. -/
def factorMarks : List (Char × Operator) :=
  [('*', .mul), ('/', .div)]

/-- The operators between the terms of a sum. -/
def termMarks : List (Char × Operator) :=
  [('+', .add), ('-', .sub)]

/-- The tokens of an identifier, or of a field of a structure. -/
inductive Access : List Token → List Char → Prop
  | word (w : List Char) : Access [.word w] w
  | arrow {ts : List Token} {p : List Char} (w : List Char) :
    Access ts p → Access (ts ++ [.arrow, .word w]) (p ++ '-' :: '>' :: w)
  | point {ts : List Token} {p : List Char} (w : List Char) :
    Access ts p → Access (ts ++ [.mark '.', .word w]) (p ++ '.' :: w)

inductive Reads : Level → List Token → Tree → Prop
  | number (t : List Char) : Reads .primary [.number t] (.number t)
  | operand {ts : List Token} {p : List Char} : Access ts p → Reads .primary ts (.operand p)
  | call {ts : List Token} {x : Tree} (w : List Char) :
    Reads .arguments ts x →
      Reads .primary (.word w :: .mark '(' :: (ts ++ [.mark ')'])) (.call w x)
  | parens {ts : List Token} {x : Tree} :
    Reads .additive ts x → Reads .primary (.mark '(' :: (ts ++ [.mark ')'])) x
  | unary {ts : List Token} {x : Tree} : Reads .primary ts x → Reads .unary ts x
  | negative {ts : List Token} {x : Tree} :
    Reads .unary ts x → Reads .unary (.mark '-' :: ts) (.negative x)
  | multiplicative {ts : List Token} {x : Tree} : Reads .unary ts x → Reads .multiplicative ts x
  | factor {as bs : List Token} {x y : Tree} {m : Char} {op : Operator} :
    (m, op) ∈ factorMarks → Reads .multiplicative as x → Reads .unary bs y →
      Reads .multiplicative (as ++ .mark m :: bs) (.binary op x y)
  | additive {ts : List Token} {x : Tree} : Reads .multiplicative ts x → Reads .additive ts x
  | term {as bs : List Token} {x y : Tree} {m : Char} {op : Operator} :
    (m, op) ∈ termMarks → Reads .additive as x → Reads .multiplicative bs y →
      Reads .additive (as ++ .mark m :: bs) (.binary op x y)
  | argument {ts : List Token} {x : Tree} : Reads .additive ts x → Reads .arguments ts x
  | comma {as bs : List Token} {x y : Tree} :
    Reads .arguments as x → Reads .additive bs y →
      Reads .arguments (as ++ .mark ',' :: bs) (.pair x y)

/-- The tree that C reads in a text. -/
def Reading (text : String) (x : Tree) : Prop :=
  ∃ ts, lex text.toList = some ts ∧ Reads .additive ts x

/-! ### Operands -/

/-- The text of an identifier, or of a field of a structure: `x`, `dp->x`, `s.x`. -/
inductive IsOperand : List Char → Prop
  | word {w : List Char} : isWord w = true → IsOperand w
  | arrow {p w : List Char} : IsOperand p → isWord w = true → IsOperand (p ++ '-' :: '>' :: w)
  | point {p w : List Char} : IsOperand p → isWord w = true → IsOperand (p ++ '.' :: w)

theorem isWord_cons {c : Char} {cs : List Char} (h : isWord (c :: cs) = true) :
    isWordChar c = true ∧ c.isDigit = false := by
  simp only [isWord, List.all_cons, Bool.and_eq_true, Bool.not_eq_true'] at h
  exact ⟨h.2.1, h.1⟩

/-- A point before a word is a token of its own. -/
theorem after_point {w rest : List Char} (h : isWord w = true) : After (.mark '.') (w ++ rest) := by
  cases w with
  | nil => exact absurd h (by decide)
  | cons c cs =>
    obtain ⟨hc, hdigit⟩ := isWord_cons h
    intro d hd
    obtain rfl : c = d := by simpa using hd
    have hpoint : c ≠ '.' := by
      rintro rfl
      exact absurd hc (by decide)
    simp [Token.meet, hdigit, hpoint]

theorem IsOperand.begins {p : List Char} (h : IsOperand p) : ∃ c ∈ p.head?, opens c = true := by
  induction h with
  | @word w hw =>
    cases w with
    | nil => exact absurd hw (by decide)
    | cons c cs => exact ⟨c, rfl, by simp [opens, (isWord_cons hw).1]⟩
  | arrow _ _ ih | point _ _ ih =>
    obtain ⟨c, hc, hopens⟩ := ih
    exact ⟨c, by rw [List.head?_append, Option.mem_def.mp hc]; rfl, hopens⟩

/-- An operand has its tokens in front of anything that is no part of a word. -/
theorem IsOperand.access {p : List Char} (h : IsOperand p) :
    ∃ ts, Access ts p ∧ ∀ rest, (∀ c ∈ rest.head?, isWordChar c = false) →
      lexFrom none (p ++ rest) = (lexFrom none rest).map (ts ++ ·) := by
  induction h with
  | @word w hw =>
    refine ⟨[.word w], .word w, fun rest hrest => ?_⟩
    exact lexFrom_word hw fun c hc => by simp [Token.meet, hrest c hc]
  | @arrow p w _ hw ih =>
    obtain ⟨ts, haccess, hlex⟩ := ih
    refine ⟨_, .arrow w haccess, fun rest hrest => ?_⟩
    have hstart : ∀ c ∈ ('-' :: '>' :: w ++ rest).head?, isWordChar c = false := by
      intro c hc
      obtain rfl : '-' = c := by simpa using hc
      rfl
    have harrow : lexFrom none ('-' :: '>' :: (w ++ rest)) =
        (lexFrom none (w ++ rest)).map (.arrow :: ·) := by
      rw [lexFrom_begun rfl, lexFrom_joined rfl]
      exact lexFrom_some fun c _ => rfl
    rw [List.append_assoc, hlex _ hstart, List.cons_append, List.cons_append, harrow,
      lexFrom_word hw fun c hc => by simp [Token.meet, hrest c hc]]
    simp [Function.comp_def]
  | @point p w _ hw ih =>
    obtain ⟨ts, haccess, hlex⟩ := ih
    refine ⟨_, .point w haccess, fun rest hrest => ?_⟩
    have hstart : ∀ c ∈ ('.' :: w ++ rest).head?, isWordChar c = false := by
      intro c hc
      obtain rfl : '.' = c := by simpa using hc
      rfl
    rw [List.append_assoc, hlex _ hstart, List.cons_append,
      lexFrom_mark (by decide) (after_point hw),
      lexFrom_word hw fun c hc => by simp [Token.meet, hrest c hc]]
    simp [Function.comp_def]

theorem IsOperand.lexes {p : List Char} (h : IsOperand p) : ∃ ts, Access ts p ∧ Lexes p ts := by
  obtain ⟨ts, haccess, hlex⟩ := h.access
  refine ⟨ts, haccess, h.begins, fun rest hrest => hlex rest fun c hc => ?_⟩
  have hmem := hrest c hc
  simp only [List.mem_cons, List.not_mem_nil, or_false] at hmem
  rcases hmem with rfl | rfl | rfl | rfl | rfl <;> rfl

/-! ### The beginning of an operand -/

/-- The first token of an operand without a sign is neither minus nor arrow. -/
theorem Reads.head_of_primary {ts : List Token} {x : Tree} (h : Reads .primary ts x) :
    ∃ t us, ts = t :: us ∧ t ≠ .mark '-' ∧ t ≠ .arrow := by
  cases h with
  | number t => exact ⟨_, _, rfl, nofun, nofun⟩
  | call w _ => exact ⟨_, _, rfl, nofun, nofun⟩
  | parens _ => exact ⟨_, _, rfl, by decide, nofun⟩
  | operand h =>
    induction h with
    | word w => exact ⟨_, _, rfl, nofun, nofun⟩
    | arrow w _ ih | point w _ ih =>
      obtain ⟨t, us, rfl, hminus, harrow⟩ := ih
      exact ⟨t, _, rfl, hminus, harrow⟩

/-- A text that begins with a minus has a minus or an arrow as its first token. -/
theorem lex_minus {cs : List Char} {ts : List Token} (h : lex ('-' :: cs) = some ts) :
    ∃ t us, ts = t :: us ∧ (t = .mark '-' ∨ t = .arrow) := by
  rw [lex, lexFrom_begun rfl] at h
  cases cs with
  | nil => exact ⟨_, _, (Option.some.inj h).symm, .inl rfl⟩
  | cons c cs =>
    cases hmeet : (Token.mark '-').meet c with
    | joined t =>
      obtain rfl : t = .arrow := by
        simp only [Token.meet] at hmeet
        split at hmeet
        · exact (Junction.joined.inj hmeet).symm
        · split at hmeet <;> simp at hmeet
      rw [lexFrom_joined hmeet, lexFrom_some fun _ _ => rfl, Option.map_eq_some_iff] at h
      obtain ⟨us, -, rfl⟩ := h
      exact ⟨_, us, rfl, .inr rfl⟩
    | apart =>
      have hafter : After (.mark '-') (c :: cs) := by
        intro d hd
        obtain rfl : c = d := by simpa using hd
        exact hmeet
      rw [lexFrom_some hafter, Option.map_eq_some_iff] at h
      obtain ⟨us, -, rfl⟩ := h
      exact ⟨_, us, rfl, .inl rfl⟩
    | refused => simp [lexFrom, lexChar, hmeet] at h

/-- No operand without a sign begins with a minus. -/
theorem Reads.ne_minus {cs ds : List Char} {ts : List Token} {x : Tree} (h : Reads .primary ts x)
    (hlex : Lexes cs ts) : cs ≠ '-' :: ds := by
  rintro rfl
  obtain ⟨t, us, rfl, hminus, harrow⟩ := h.head_of_primary
  obtain ⟨t', us', heq, ht⟩ := lex_minus hlex.lex_eq
  cases heq
  rcases ht with rfl | rfl
  · exact hminus rfl
  · exact harrow rfl

/-! ### A reader -/

/-- What is still to be done with an operand: the signs in front of it, the
product to its left, and the sum to the left of that. -/
structure Pending where
  sum : Tree → Tree
  product : Tree → Tree
  sign : Tree → Tree

namespace Pending

/-- At the beginning of an expression. -/
def start : Pending :=
  ⟨id, id, id⟩

/-- The expression that ends in an operand. -/
def finish (p : Pending) (x : Tree) : Tree :=
  p.sum (p.product (p.sign x))

end Pending

/-- An open parenthesis, and what is pending outside. -/
inductive Bracket where
  | group (outer : Pending)
  /-- Of a call; `front` puts an argument after those before it. -/
  | call (outer : Pending) (name : List Char) (front : Tree → Tree)

inductive State where
  /-- An operand comes next. -/
  | wants (p : Pending) (stack : List Bracket)
  | has (p : Pending) (x : Tree) (stack : List Bracket)
  /-- The name of a field comes next. -/
  | field (p : Pending) (path : List Char) (stack : List Bracket)

namespace State

/-- The state after one more token. -/
def step : State → Token → Option State
  | wants p stack, .number t => some (has p (.number t) stack)
  | wants p stack, .word w => some (has p (.operand w) stack)
  | wants p stack, .mark '-' =>
    some (wants ⟨p.sum, p.product, fun x => p.sign (.negative x)⟩ stack)
  | wants p stack, .mark '(' => some (wants .start (.group p :: stack))
  | has p x stack, .mark '*' =>
    some (wants ⟨p.sum, .binary .mul (p.product (p.sign x)), id⟩ stack)
  | has p x stack, .mark '/' =>
    some (wants ⟨p.sum, .binary .div (p.product (p.sign x)), id⟩ stack)
  | has p x stack, .mark '+' => some (wants ⟨.binary .add (p.finish x), id, id⟩ stack)
  | has p x stack, .mark '-' => some (wants ⟨.binary .sub (p.finish x), id, id⟩ stack)
  | has p (.operand w) stack, .mark '(' => some (wants .start (.call p w id :: stack))
  | has p (.operand path) stack, .arrow => some (field p (path ++ ['-', '>']) stack)
  | has p (.operand path) stack, .mark '.' => some (field p (path ++ ['.']) stack)
  | field p path stack, .word w => some (has p (.operand (path ++ w)) stack)
  | has p x (.call outer w front :: stack), .mark ',' =>
    some (wants .start (.call outer w (.pair (front (p.finish x))) :: stack))
  | has p x (.group outer :: stack), .mark ')' => some (has outer (p.finish x) stack)
  | has p x (.call outer w front :: stack), .mark ')' =>
    some (has outer (.call w (front (p.finish x))) stack)
  | _, _ => none

/-- The state after some tokens. -/
def run (s : State) (ts : List Token) : Option State :=
  ts.foldlM step s

theorem run_append (s : State) (as bs : List Token) :
    s.run (as ++ bs) = (s.run as).bind (·.run bs) :=
  List.foldlM_append

theorem run_cons (s : State) (t : Token) (ts : List Token) :
    s.run (t :: ts) = (s.step t).bind (·.run ts) :=
  List.foldlM_cons

@[simp] theorem run_nil (s : State) : s.run [] = some s := rfl

end State

/-- Where the reader is after a text of some level: the operand it has and what
is pending make up the tree of the text. -/
def Reached : Level → List Token → Tree → Prop
  | .primary, ts, x => ∀ p stack, (State.wants p stack).run ts = some (.has p x stack)
  | .unary, ts, x => ∀ sum product sign stack, ∃ sign' y, sign' y = sign x ∧
    (State.wants ⟨sum, product, sign⟩ stack).run ts = some (.has ⟨sum, product, sign'⟩ y stack)
  | .multiplicative, ts, x => ∀ sum stack, ∃ product sign y, product (sign y) = x ∧
    (State.wants ⟨sum, id, id⟩ stack).run ts = some (.has ⟨sum, product, sign⟩ y stack)
  | .additive, ts, x => ∀ stack, ∃ p y, p.finish y = x ∧
    (State.wants .start stack).run ts = some (.has p y stack)
  | .arguments, ts, x => ∀ outer w stack, ∃ p y front, front (p.finish y) = x ∧
    (State.wants .start (.call outer w id :: stack)).run ts =
      some (.has p y (.call outer w front :: stack))

theorem reached_of_access {ts : List Token} {path : List Char} (h : Access ts path) :
    Reached .primary ts (.operand path) := by
  intro p stack
  induction h with
  | word w => rfl
  | arrow w _ ih | point w _ ih =>
    rw [State.run_append, ih]
    simp [State.run_cons, State.step]

/-- **The reader reaches the tree of every derivation.** -/
theorem reached_of_reads {level : Level} {ts : List Token} {x : Tree} (h : Reads level ts x) :
    Reached level ts x := by
  induction h with
  | number t => exact fun p stack => rfl
  | operand h => exact reached_of_access h
  | call w _ ih =>
    intro p stack
    obtain ⟨q, y, front, rfl, hrun⟩ := ih p w stack
    simp only [State.run_cons, State.step, Option.bind_some, State.run_append, hrun, State.run_nil]
  | parens _ ih =>
    intro p stack
    obtain ⟨q, y, rfl, hrun⟩ := ih (.group p :: stack)
    simp only [State.run_cons, State.step, Option.bind_some, State.run_append, hrun, State.run_nil]
  | unary _ ih => exact fun sum product sign stack => ⟨sign, _, rfl, ih _ stack⟩
  | negative _ ih =>
    intro sum product sign stack
    obtain ⟨sign', y, hy, hrun⟩ := ih sum product (fun z => sign (.negative z)) stack
    exact ⟨sign', y, hy, hrun⟩
  | multiplicative _ ih =>
    intro sum stack
    obtain ⟨sign, y, hy, hrun⟩ := ih sum id id stack
    exact ⟨id, sign, y, hy, hrun⟩
  | @factor as bs x y m op hm _ _ ihx ihy =>
    intro sum stack
    obtain ⟨product, sign, z, rfl, hrun⟩ := ihx sum stack
    obtain ⟨sign', y', hy', hrun'⟩ := ihy sum (.binary op (product (sign z))) id stack
    refine ⟨_, sign', y', congrArg _ hy', ?_⟩
    rw [State.run_append, hrun, Option.bind_some, State.run_cons]
    simp only [factorMarks, List.mem_cons, Prod.mk.injEq, List.not_mem_nil, or_false] at hm
    rcases hm with ⟨rfl, rfl⟩ | ⟨rfl, rfl⟩ <;> exact hrun'
  | additive _ ih =>
    intro stack
    obtain ⟨product, sign, y, rfl, hrun⟩ := ih id stack
    exact ⟨⟨id, product, sign⟩, y, rfl, hrun⟩
  | @term as bs x y m op hm _ _ ihx ihy =>
    intro stack
    obtain ⟨p, z, rfl, hrun⟩ := ihx stack
    obtain ⟨product, sign, y', rfl, hrun'⟩ := ihy (.binary op (p.finish z)) stack
    refine ⟨⟨_, product, sign⟩, y', rfl, ?_⟩
    rw [State.run_append, hrun, Option.bind_some, State.run_cons]
    simp only [termMarks, List.mem_cons, Prod.mk.injEq, List.not_mem_nil, or_false] at hm
    rcases hm with ⟨rfl, rfl⟩ | ⟨rfl, rfl⟩ <;> exact hrun'
  | argument _ ih =>
    intro outer w stack
    obtain ⟨p, y, rfl, hrun⟩ := ih (.call outer w id :: stack)
    exact ⟨p, y, id, rfl, hrun⟩
  | comma _ _ ihx ihy =>
    intro outer w stack
    obtain ⟨p, y, front, rfl, hrun⟩ := ihx outer w stack
    obtain ⟨q, z, rfl, hrun'⟩ := ihy (.call outer w (.pair (front (p.finish y))) :: stack)
    refine ⟨q, z, _, rfl, ?_⟩
    rw [State.run_append, hrun, Option.bind_some, State.run_cons]
    exact hrun'

/-- **The grammar is unambiguous.** -/
theorem reads_unique {ts : List Token} {x y : Tree} (hx : Reads .additive ts x)
    (hy : Reads .additive ts y) : x = y := by
  obtain ⟨p, u, rfl, hp⟩ := reached_of_reads hx []
  obtain ⟨q, v, rfl, hq⟩ := reached_of_reads hy []
  rw [hp] at hq
  cases hq
  rfl

theorem reading_unique {text : String} {x y : Tree} (hx : Reading text x) (hy : Reading text y) :
    x = y := by
  obtain ⟨ts, hlex, hreads⟩ := hx
  obtain ⟨ts', hlex', hreads'⟩ := hy
  rw [hlex] at hlex'
  cases hlex'
  exact reads_unique hreads hreads'

end DensityKernel.C
