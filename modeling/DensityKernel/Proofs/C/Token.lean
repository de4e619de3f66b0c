import Mathlib.Data.List.Basic
import Mathlib.Data.Option.Basic

/-!
The tokens of C expressions. A token is as long as it can be: a character
joins the token before it if the two are the beginning of a token of C. Texts
in which that would be a token that no expression has, such as `--`, or the
beginning of a comment, are refused.

`Lexes` says of a text which tokens it has wherever it stands in front of a
blank, a comma, a closing parenthesis or an operator of a product.
-/

namespace DensityKernel.C

/-- A character of an identifier. -/
def isWordChar (c : Char) : Bool :=
  c.isAlphanum || c == '_'

/-- An identifier. -/
def isWord (w : List Char) : Bool :=
  match w with
  | [] => false
  | c :: _ => !c.isDigit && w.all isWordChar

inductive Token where
  | number (text : List Char)
  | word (text : List Char)
  | arrow
  /-- An operator of one character, a point, a comma or a parenthesis. -/
  | mark (sign : Char)
deriving DecidableEq, Repr

/-- How a token goes with the character after it. -/
inductive Junction where
  | joined (t : Token)
  | apart
  /-- The two belong to something that is no token of an expression. -/
  | refused

namespace Token

/-- A sign belongs to a number right after the letter of an exponent. -/
def endsInExponent (text : List Char) : Bool :=
  text.getLast?.any fun c => c ∈ ['e', 'E', 'p', 'P']

/-- The token before a character with that character. -/
def meet : Token → Char → Junction
  | number t, c =>
    if isWordChar c || c == '.' || ((c == '+' || c == '-') && endsInExponent t) then
      .joined (number (t ++ [c]))
    else .apart
  | word w, c => if isWordChar c then .joined (word (w ++ [c])) else .apart
  | arrow, _ => .apart
  | mark m, c =>
    if m == '-' && c == '>' then .joined arrow
    else if (m, c) ∈ [('+', '+'), ('+', '='), ('-', '-'), ('-', '='), ('*', '='), ('/', '='),
      ('/', '/'), ('/', '*')] then .refused
    else if m == '.' && (c.isDigit || c == '.') then .refused
    else .apart

/-- What a character begins: nothing if it is a blank. -/
def begun (c : Char) : Option (Option Token) :=
  if c == ' ' then some none
  else if c.isDigit then some (some (number [c]))
  else if isWordChar c then some (some (word [c]))
  else if c ∈ ['(', ')', ',', '.', '+', '-', '*', '/'] then some (some (mark c))
  else none

end Token

/-- The tokens that a character finishes, and the one that it leaves open. -/
def lexChar (pending : Option Token) (c : Char) : Option (List Token × Option Token) :=
  match pending with
  | none => (Token.begun c).map ([], ·)
  | some t =>
    match t.meet c with
    | .joined u => some ([], some u)
    | .apart => (Token.begun c).map ([t], ·)
    | .refused => none

/-- The tokens of a text after the beginning of a token. -/
def lexFrom (pending : Option Token) : List Char → Option (List Token)
  | [] => some pending.toList
  | c :: cs => do
    let (done, pending) ← lexChar pending c
    let ts ← lexFrom pending cs
    some (done ++ ts)

/-- The tokens of a text. -/
def lex (cs : List Char) : Option (List Token) :=
  lexFrom none cs

/-! ### Single tokens -/

/-- A text does not go on with the token before it. -/
def After (t : Token) (rest : List Char) : Prop :=
  ∀ c ∈ rest.head?, t.meet c = .apart

theorem lexFrom_some {t : Token} {rest : List Char} (h : After t rest) :
    lexFrom (some t) rest = (lexFrom none rest).map (t :: ·) := by
  cases rest with
  | nil => rfl
  | cons c cs =>
    have hmeet : t.meet c = .apart := h c rfl
    simp only [lexFrom, lexChar, hmeet]
    cases Token.begun c with
    | none => rfl
    | some next => cases hnext : lexFrom next cs <;> simp [hnext]

theorem lexFrom_joined {t u : Token} {c : Char} {rest : List Char} (h : t.meet c = .joined u) :
    lexFrom (some t) (c :: rest) = lexFrom (some u) rest := by
  simp [lexFrom, lexChar, h]

theorem lexFrom_begun {c : Char} {next : Option Token} {rest : List Char}
    (h : Token.begun c = some next) : lexFrom none (c :: rest) = lexFrom next rest := by
  simp [lexFrom, lexChar, h]

theorem lexFrom_mark {m : Char} {rest : List Char}
    (hm : m ∈ ['(', ')', ',', '.', '+', '-', '*', '/']) (h : After (.mark m) rest) :
    lexFrom none (m :: rest) = (lexFrom none rest).map (.mark m :: ·) := by
  have hbegun : Token.begun m = some (some (.mark m)) := by
    simp only [List.mem_cons, List.not_mem_nil, or_false] at hm
    rcases hm with rfl | rfl | rfl | rfl | rfl | rfl | rfl | rfl <;> rfl
  rw [lexFrom_begun hbegun, lexFrom_some h]

theorem lexFrom_blank {rest : List Char} : lexFrom none (' ' :: rest) = lexFrom none rest :=
  lexFrom_begun rfl

/-! ### Words and numbers -/

/-- A number as C's preprocessor takes it: it starts with a digit and goes on
with letters, digits, points and the signs of exponents. -/
inductive IsNumeral : List Char → Prop
  | digit {c : Char} : c.isDigit = true → IsNumeral [c]
  | next {t : List Char} {c : Char} :
    IsNumeral t → (Token.number t).meet c = .joined (.number (t ++ [c])) → IsNumeral (t ++ [c])

theorem lexFrom_numeral {t rest : List Char} (h : IsNumeral t) :
    lexFrom none (t ++ rest) = lexFrom (some (.number t)) rest := by
  induction h generalizing rest with
  | @digit c hc =>
    have hblank : c ≠ ' ' := by
      rintro rfl
      exact absurd hc (by decide)
    exact lexFrom_begun (by simp [Token.begun, hc, hblank])
  | @next t c _ hmeet ih =>
    rw [List.append_assoc, ih]
    exact lexFrom_joined hmeet

theorem IsNumeral.append {t cs : List Char} (h : IsNumeral t)
    (hcs : ∀ c ∈ cs, (isWordChar c || c == '.') = true) : IsNumeral (t ++ cs) := by
  induction cs generalizing t with
  | nil => simpa using h
  | cons c cs ih =>
    have hc := hcs c List.mem_cons_self
    rw [List.append_cons]
    exact ih (h.next (by rw [Token.meet, hc]; simp)) fun d hd => hcs d (List.mem_cons_of_mem _ hd)

/-- A minus goes on with a number that ends in the letter of an exponent. -/
theorem IsNumeral.minus {t : List Char} (h : IsNumeral (t ++ ['e'])) :
    IsNumeral (t ++ ['e', '-']) := by
  have hnext := h.next (c := '-') (by simp [Token.meet, Token.endsInExponent])
  simpa using hnext

theorem isWordChar_of_isDigit {c : Char} (h : c.isDigit = true) : isWordChar c = true := by
  simp [isWordChar, Char.isAlphanum, h]

theorem ne_blank_of_isWordChar {c : Char} (h : isWordChar c = true) : c ≠ ' ' := by
  rintro rfl
  exact absurd h (by decide)

theorem lexFrom_wordChars {w cs rest : List Char} (h : ∀ c ∈ cs, isWordChar c = true) :
    lexFrom (some (.word w)) (cs ++ rest) = lexFrom (some (.word (w ++ cs))) rest := by
  induction cs generalizing w with
  | nil => simp
  | cons c cs ih =>
    have hc : (Token.word w).meet c = .joined (.word (w ++ [c])) := by
      simp [Token.meet, h c List.mem_cons_self]
    rw [List.cons_append, lexFrom_joined hc, ih fun d hd => h d (List.mem_cons_of_mem _ hd)]
    simp

theorem lexFrom_word {w rest : List Char} (h : isWord w = true) (hrest : After (.word w) rest) :
    lexFrom none (w ++ rest) = (lexFrom none rest).map (.word w :: ·) := by
  cases w with
  | nil => exact absurd h (by decide)
  | cons c cs =>
    obtain ⟨hdigit, hc, hcs⟩ :
        c.isDigit = false ∧ isWordChar c = true ∧ ∀ d ∈ cs, isWordChar d = true := by
      simpa [isWord] using h
    have hbegun : Token.begun c = some (some (.word [c])) := by
      simp [Token.begun, hdigit, hc, ne_blank_of_isWordChar hc]
    rw [List.cons_append, lexFrom_begun hbegun, lexFrom_wordChars hcs]
    exact lexFrom_some hrest

/-! ### Texts in place -/

/-- A blank, a closing parenthesis, a comma, an operator of a product, or the end. -/
def Closes (rest : List Char) : Prop :=
  ∀ c ∈ rest.head?, c ∈ [' ', ')', ',', '*', '/']

/-- A character that an operand begins with. -/
def opens (c : Char) : Bool :=
  isWordChar c || c == '(' || c == '-'

/-- A text has some tokens in front of anything that closes it. -/
structure Lexes (cs : List Char) (ts : List Token) : Prop where
  begins : ∃ c ∈ cs.head?, opens c = true
  lex : ∀ rest, Closes rest → lexFrom none (cs ++ rest) = (lexFrom none rest).map (ts ++ ·)

theorem Lexes.lex_eq {cs : List Char} {ts : List Token} (h : Lexes cs ts) :
    C.lex cs = some ts := by
  have hend := h.lex [] fun c hc => absurd hc (by simp)
  simpa [C.lex, lexFrom] using hend

theorem Closes.after_numeral {t rest : List Char} (h : Closes rest) : After (.number t) rest := by
  intro c hc
  have hmem := h c hc
  simp only [List.mem_cons, List.not_mem_nil, or_false] at hmem
  rcases hmem with rfl | rfl | rfl | rfl | rfl <;> rfl

theorem closes_cons {c : Char} {rest : List Char} (h : c ∈ [' ', ')', ',', '*', '/']) :
    Closes (c :: rest) := by
  intro d hd
  obtain rfl : c = d := by simpa using hd
  exact h

/-- Parentheses, commas and arrows never go on. -/
theorem after_mark {m : Char} {rest : List Char} (hm : m ∈ ['(', ')', ',']) :
    After (.mark m) rest := by
  intro c _
  simp only [List.mem_cons, List.not_mem_nil, or_false] at hm
  rcases hm with rfl | rfl | rfl <;> simp [Token.meet]

/-- No operator goes on with the beginning of an operand, but for two minuses. -/
theorem Lexes.after {cs : List Char} {ts : List Token} {rest : List Char} {m : Char}
    (h : Lexes cs ts) (hm : m ∈ ['*', '/'] ∨ m = '-' ∧ ∀ c ∈ cs.head?, c ≠ '-') :
    After (.mark m) (cs ++ rest) := by
  obtain ⟨c, hc, hopens⟩ := h.begins
  intro d hd
  obtain rfl : c = d := by
    rw [List.head?_append, Option.mem_def.mp hc] at hd
    simpa using hd
  have hne : c ≠ '>' ∧ c ≠ '=' ∧ c ≠ '/' ∧ c ≠ '*' := by
    refine ⟨?_, ?_, ?_, ?_⟩ <;> rintro rfl <;> exact absurd hopens (by decide)
  rcases hm with hm | ⟨rfl, hminus⟩
  · simp only [List.mem_cons, List.not_mem_nil, or_false] at hm
    rcases hm with rfl | rfl <;> simp [Token.meet, hne]
  · simp [Token.meet, hne, hminus c hc]

section Rules

variable {a b : List Char} {A B : List Token}

theorem lexes_numeral {t : List Char} (h : IsNumeral t) : Lexes t [.number t] where
  begins := by
    induction h with
    | @digit c hc => exact ⟨c, rfl, by simp [opens, isWordChar_of_isDigit hc]⟩
    | @next t c _ _ ih =>
      obtain ⟨d, hd, hopens⟩ := ih
      exact ⟨d, by rw [List.head?_append, Option.mem_def.mp hd]; rfl, hopens⟩
  lex rest hrest := by
    rw [lexFrom_numeral h, lexFrom_some hrest.after_numeral]
    rfl

theorem Lexes.parens (h : Lexes a A) :
    Lexes ('(' :: (a ++ [')'])) (.mark '(' :: (A ++ [.mark ')'])) where
  begins := ⟨'(', rfl, rfl⟩
  lex rest hrest := by
    have hclose : lexFrom none (')' :: rest) = (lexFrom none rest).map (.mark ')' :: ·) :=
      lexFrom_mark (by decide) (after_mark (by decide))
    rw [List.cons_append, lexFrom_mark (by decide) (after_mark (by decide)), List.append_assoc,
      List.singleton_append, h.lex _ (closes_cons (by decide)), hclose]
    simp [Function.comp_def]

theorem Lexes.call {w : List Char} (hw : isWord w = true) (h : Lexes a A) :
    Lexes (w ++ '(' :: (a ++ [')'])) (.word w :: .mark '(' :: (A ++ [.mark ')'])) where
  begins := by
    cases w with
    | nil => exact absurd hw (by decide)
    | cons c cs =>
      have hc : isWordChar c = true := by
        simp only [isWord, List.all_cons, Bool.and_eq_true] at hw
        exact hw.2.1
      exact ⟨c, rfl, by simp [opens, hc]⟩
  lex rest hrest := by
    have hafter : After (.word w) ('(' :: (a ++ [')']) ++ rest) := by
      intro c hc
      obtain rfl : '(' = c := by simpa using hc
      rfl
    rw [List.append_assoc, lexFrom_word hw hafter, h.parens.lex rest hrest]
    simp [Function.comp_def]

/-- A product of two texts. -/
theorem Lexes.times {m : Char} (hm : m ∈ ['*', '/']) (ha : Lexes a A) (hb : Lexes b B) :
    Lexes (a ++ m :: b) (A ++ .mark m :: B) where
  begins := by
    obtain ⟨c, hc, hopens⟩ := ha.begins
    exact ⟨c, by rw [List.head?_append, Option.mem_def.mp hc]; rfl, hopens⟩
  lex rest hrest := by
    have hmark : m ∈ ['(', ')', ',', '.', '+', '-', '*', '/'] ∧ m ∈ [' ', ')', ',', '*', '/'] := by
      simp only [List.mem_cons, List.not_mem_nil, or_false] at hm ⊢
      rcases hm with rfl | rfl <;> decide
    rw [List.append_assoc, List.cons_append, ha.lex _ (closes_cons hmark.2),
      lexFrom_mark hmark.1 (hb.after (.inl hm)), hb.lex rest hrest]
    simp [Function.comp_def]

/-- A sum of two texts, with blanks around its operator. -/
theorem Lexes.plus {m : Char} (hm : m ∈ ['+', '-']) (ha : Lexes a A) (hb : Lexes b B) :
    Lexes (a ++ ' ' :: m :: ' ' :: b) (A ++ .mark m :: B) where
  begins := by
    obtain ⟨c, hc, hopens⟩ := ha.begins
    exact ⟨c, by rw [List.head?_append, Option.mem_def.mp hc]; rfl, hopens⟩
  lex rest hrest := by
    have hmark : m ∈ ['(', ')', ',', '.', '+', '-', '*', '/'] := by
      simp only [List.mem_cons, List.not_mem_nil, or_false] at hm ⊢
      rcases hm with rfl | rfl <;> decide
    have hafter : After (.mark m) (' ' :: (b ++ rest)) := by
      intro c hc
      obtain rfl : ' ' = c := by simpa using hc
      simp only [List.mem_cons, List.not_mem_nil, or_false] at hm
      rcases hm with rfl | rfl <;> rfl
    rw [List.append_assoc, List.cons_append, List.cons_append, List.cons_append,
      ha.lex _ (closes_cons (by decide)), lexFrom_blank, lexFrom_mark hmark hafter, lexFrom_blank,
      hb.lex rest hrest]
    simp [Function.comp_def]

/-- Two arguments of a call. -/
theorem Lexes.comma (ha : Lexes a A) (hb : Lexes b B) :
    Lexes (a ++ ',' :: ' ' :: b) (A ++ .mark ',' :: B) where
  begins := by
    obtain ⟨c, hc, hopens⟩ := ha.begins
    exact ⟨c, by rw [List.head?_append, Option.mem_def.mp hc]; rfl, hopens⟩
  lex rest hrest := by
    rw [List.append_assoc, List.cons_append, List.cons_append, ha.lex _ (closes_cons (by decide)),
      lexFrom_mark (by decide) (after_mark (by decide)), lexFrom_blank, hb.lex rest hrest]
    simp [Function.comp_def]

theorem Lexes.minus (hb : Lexes b B) (h : ∀ c ∈ b.head?, c ≠ '-') :
    Lexes ('-' :: b) (.mark '-' :: B) where
  begins := ⟨'-', rfl, rfl⟩
  lex rest hrest := by
    rw [List.cons_append, lexFrom_mark (by decide) (hb.after (.inr ⟨rfl, h⟩)), hb.lex rest hrest]
    simp [Function.comp_def]

end Rules

end DensityKernel.C
