import DensityKernel.Formula.Parser
import DensityKernel.Functional.Basic
import Mathlib

/-!
The tokens of formula texts. `Spells` says of a text which tokens it has
wherever it stands before something that its last token does not go on with: no
character of a word and no point. Such a text begins with a character that is
no blank.
-/

namespace DensityKernel.Formula

variable {K : Type} [Spelling K]

/-! ### Scanning -/

/-- A text has the tokens, wherever in a formula it stands. -/
def Scans (cs : List Char) (ts : List (Token K)) : Prop :=
  ∀ position, ∃ lexemes, Lexeme.scanFrom position cs = .ok lexemes ∧
    lexemes.map Lexeme.token = ts

section Scans

variable {c : Char} {cs w rest : List Char} {t : Token K} {ts : List (Token K)}

theorem scans_nil : Scans (K := K) [] [] :=
  fun _ => ⟨[], by rw [Lexeme.scanFrom], rfl⟩

theorem Scans.blank (h : Scans cs ts) : Scans (' ' :: cs) ts := by
  intro position
  obtain ⟨lexemes, hscan, htokens⟩ := h (position + 1)
  exact ⟨lexemes, by rw [Lexeme.scanFrom, if_pos (by decide), hscan], htokens⟩

theorem Scans.token (h : Scans rest ts) (hskip : Lexeme.isSkipped c = false)
    (hfirst : Token.firstText c (w ++ rest) = c :: w)
    (htoken : Token.ofText? (c :: w) = some t) : Scans (c :: (w ++ rest)) (t :: ts) := by
  intro position
  obtain ⟨lexemes, hscan, htokens⟩ := h (position + Lexeme.byteCount (c :: w))
  refine ⟨⟨t, ⟨position, position + Lexeme.byteCount (c :: w)⟩⟩ :: lexemes, ?_,
    by rw [List.map_cons, htokens]⟩
  rw [Lexeme.scanFrom, hskip, if_neg Bool.false_ne_true]
  simp only [hfirst, htoken, List.length_cons, Nat.add_sub_cancel, List.drop_left, hscan]
  rfl

end Scans

/-! ### Single tokens -/

/-- The tokens of one character; a second asterisk would make a caret of the first. -/
def marks : List (Char × Token K) :=
  [('(', .leftParen), (')', .rightParen), (',', .comma), ('+', .operator .add),
    ('-', .operator .sub), ('*', .operator .mul), ('/', .operator .div), ('^', .operator .pow)]

theorem Scans.mark {m : Char} {t : Token K} {rest : List Char} {ts : List (Token K)}
    (h : Scans rest ts) (hm : (m, t) ∈ marks) (hrest : rest.head? ≠ some '*') :
    Scans (m :: rest) (t :: ts) := by
  simp only [marks, List.mem_cons, Prod.mk.injEq, List.not_mem_nil, or_false] at hm
  rcases hm with ⟨rfl, rfl⟩ | ⟨rfl, rfl⟩ | ⟨rfl, rfl⟩ | ⟨rfl, rfl⟩ | ⟨rfl, rfl⟩ | ⟨rfl, rfl⟩ |
    ⟨rfl, rfl⟩ | ⟨rfl, rfl⟩
  all_goals
    refine h.token (w := []) (by decide) ?_ rfl
    simp [Token.firstText, Token.startsNumber, Token.startsName, Char.isDigit, Char.isAlpha,
      Char.isUpper, Char.isLower, hrest]

/-- No word and no number goes on, and no asterisk makes a caret. -/
def Parted (rest : List Char) : Prop :=
  ∀ c ∈ rest.head?, Token.continuesName c = false ∧ c ≠ '.' ∧ c ≠ '*'

theorem takeWhile_append_of_parted {p : Char → Bool} {cs rest : List Char}
    (hcs : ∀ c ∈ cs, p c = true) (hrest : ∀ c ∈ rest.head?, p c = false) :
    (cs ++ rest).takeWhile p = cs ∧ (cs ++ rest).dropWhile p = rest := by
  rw [List.takeWhile_append_of_pos hcs, List.dropWhile_append_of_pos hcs]
  cases rest with
  | nil => exact ⟨by simp, rfl⟩
  | cons c rest =>
    have hc := hrest c rfl
    exact ⟨by simp [hc], by simp [hc]⟩

section Characters

open Token

variable {c : Char} {cs rest : List Char}

theorem startsNumber_of_startsName (h : startsName c = true) : startsNumber c = false := by
  rw [startsNumber, Bool.or_eq_false_iff]
  constructor
  · rw [Bool.eq_false_iff]
    intro hdigit
    simp only [startsName, Char.isAlpha, Char.isUpper, Char.isLower, Char.isDigit, Bool.or_eq_true,
      Bool.and_eq_true, decide_eq_true_eq, beq_iff_eq, UInt32.le_iff_toNat_le, ge_iff_le]
      at h hdigit
    obtain ((⟨h, -⟩ | ⟨h, -⟩) | rfl) := h
    · have := Nat.le_trans h hdigit.2
      exact absurd this (by decide)
    · have := Nat.le_trans h hdigit.2
      exact absurd this (by decide)
    · exact absurd hdigit.2 (by decide)
  · rw [beq_eq_false_iff_ne]
    rintro rfl
    exact absurd h (by decide)

theorem isSkipped_of_starts (h : startsNumber c = true ∨ startsName c = true) :
    Lexeme.isSkipped c = false := by
  rw [Bool.eq_false_iff]
  intro hskipped
  simp only [Lexeme.isSkipped, Bool.or_eq_true, beq_iff_eq] at hskipped
  obtain ((((rfl | rfl) | rfl) | rfl) | rfl) := hskipped <;> revert h <;> decide

theorem ofText?_name (hc : startsName c = true) :
    ofText? (K := K) (c :: cs) = some (.name (String.ofList (c :: cs))) := by
  have hnumber := startsNumber_of_startsName hc
  unfold ofText?
  split <;> rename_i heq <;> cases heq <;> first
    | exact absurd hc (by decide)
    | rw [hnumber, if_neg Bool.false_ne_true, if_pos hc]

theorem ofText?_number (hc : startsNumber c = true) :
    ofText? (K := K) (c :: cs) = (Spelling.read? (c :: cs)).map .number := by
  unfold ofText?
  split <;> rename_i heq <;> cases heq <;> first
    | exact absurd hc (by decide)
    | rw [if_pos hc]

theorem firstText_name (hc : startsName c = true) (hcs : ∀ d ∈ cs, continuesName d = true)
    (hrest : Parted rest) : firstText c (cs ++ rest) = c :: cs := by
  rw [firstText, startsNumber_of_startsName hc, if_neg Bool.false_ne_true, if_pos hc,
    (takeWhile_append_of_parted hcs fun d hd => (hrest d hd).1).1]

theorem exponentText_of_parted (h : Parted rest) : exponentText rest = [] := by
  cases rest with
  | nil => rfl
  | cons c rest =>
    obtain ⟨hc, -⟩ := h c rfl
    have he : (c == 'e' || c == 'E') = false := by
      rw [Bool.eq_false_iff]
      intro he
      simp only [Bool.or_eq_true, beq_iff_eq] at he
      obtain rfl | rfl := he <;> exact absurd hc (by decide)
    unfold exponentText
    dsimp only
    rw [he, if_neg Bool.false_ne_true]

theorem startsNumber_of_parted (h : Parted rest) : ∀ c ∈ rest.head?, startsNumber c = false := by
  intro c hc
  obtain ⟨hword, hpoint, -⟩ := h c hc
  simp only [continuesName, Char.isAlphanum, Bool.or_eq_false_iff] at hword
  simp [startsNumber, hword.1.2, hpoint]

theorem firstText_number (hcs : ∀ d ∈ c :: cs, startsNumber d = true) (hrest : Parted rest) :
    firstText c (cs ++ rest) = c :: cs := by
  obtain ⟨htake, hdrop⟩ := takeWhile_append_of_parted hcs (startsNumber_of_parted hrest)
  rw [firstText, if_pos (hcs c List.mem_cons_self), numberText, ← List.cons_append, htake, hdrop,
    exponentText_of_parted hrest, List.append_nil]

end Characters

/-- Digits and points. -/
def IsPlainNumeral (cs : List Char) : Prop :=
  cs ≠ [] ∧ ∀ c ∈ cs, Token.startsNumber c = true

section Words

variable {cs rest : List Char} {ts : List (Token K)}

theorem Scans.number {x : K} (h : Scans rest ts) (hcs : IsPlainNumeral cs)
    (hread : Spelling.read? cs = some x) (hrest : Parted rest) :
    Scans (cs ++ rest) (.number x :: ts) := by
  obtain ⟨hne, hall⟩ := hcs
  obtain ⟨c, cs, rfl⟩ := List.exists_cons_of_ne_nil hne
  have hc := hall c List.mem_cons_self
  exact h.token (isSkipped_of_starts (.inl hc)) (firstText_number hall hrest)
    (by rw [ofText?_number hc, hread, Option.map_some])

theorem exists_cons_of_isIdentifier {s : String} (h : isIdentifier s = true) :
    ∃ c cs, s.toList = c :: cs ∧ Token.startsName c = true ∧
      ∀ d ∈ cs, Token.continuesName d = true := by
  rw [isIdentifier] at h
  split at h
  · exact absurd h Bool.false_ne_true
  · next c cs heq =>
    rw [Bool.and_eq_true, List.all_eq_true] at h
    exact ⟨c, cs, heq, h⟩

theorem Scans.name {s : String} (h : Scans rest ts) (hs : isIdentifier s = true)
    (hrest : Parted rest) : Scans (s.toList ++ rest) (.name s :: ts) := by
  obtain ⟨c, cs, heq, hc, hcs⟩ := exists_cons_of_isIdentifier hs
  rw [heq]
  refine h.token (isSkipped_of_starts (.inr hc)) (firstText_name hc hcs hrest) ?_
  rw [ofText?_name hc, ← heq, String.ofList_toList]

end Words

/-! ### Texts in place -/

/-- A character that a formula begins with. -/
def opens (c : Char) : Bool :=
  Token.startsNumber c || Token.startsName c || c == '(' || c == '-'

/-- A text has some tokens in front of anything that parts it from what follows. -/
structure Spells (cs : List Char) (ts : List (Token K)) : Prop where
  begins : ∃ c ∈ cs.head?, opens c = true
  scans : ∀ {rest us}, Scans rest us → Parted rest → Scans (cs ++ rest) (ts ++ us)

section Rules

variable {a b : List Char} {A B : List (Token K)} {s : String}

theorem parted_cons {c : Char} {rest : List Char} (h : c ∈ [' ', '(', ')', ',', '^']) :
    Parted (c :: rest) := by
  intro d hd
  obtain rfl : c = d := by simpa using hd
  simp only [List.mem_cons, List.not_mem_nil, or_false] at h
  obtain rfl | rfl | rfl | rfl | rfl := h <;> decide

theorem spells_number {x : K} (h : IsPlainNumeral a) (hread : Spelling.read? a = some x) :
    Spells a [.number x] where
  begins := by
    obtain ⟨c, cs, rfl⟩ := List.exists_cons_of_ne_nil h.1
    exact ⟨c, rfl, by rw [opens, h.2 c List.mem_cons_self]; rfl⟩
  scans hscans hrest := hscans.number h hread hrest

theorem spells_name (h : isIdentifier s = true) : Spells (K := K) s.toList [.name s] where
  begins := by
    obtain ⟨c, cs, heq, hc, -⟩ := exists_cons_of_isIdentifier h
    exact ⟨c, by rw [heq]; rfl, by rw [opens, hc]; simp⟩
  scans hscans hrest := hscans.name h hrest

theorem Parted.head_ne {rest : List Char} (h : Parted rest) : rest.head? ≠ some '*' :=
  fun hhead => (h _ hhead).2.2 rfl

theorem Spells.head_ne (h : Spells a A) {rest : List Char} : (a ++ rest).head? ≠ some '*' := by
  obtain ⟨c, hc, hopens⟩ := h.begins
  rw [List.head?_append, Option.mem_def.mp hc, Option.some_or]
  rintro ⟨⟩
  exact absurd hopens (by decide)

theorem Spells.group (h : Spells a A) :
    Spells ('(' :: (a ++ [')'])) (.leftParen :: (A ++ [.rightParen])) where
  begins := ⟨'(', rfl, rfl⟩
  scans {rest us} hscans hrest := by
    have hclose := hscans.mark (m := ')') (t := .rightParen)
      (by simp [marks]) hrest.head_ne
    have hopen := (h.scans hclose (parted_cons (by decide))).mark (m := '(')
      (t := .leftParen) (by simp [marks]) h.head_ne
    simpa using hopen

/-- A call, given the text between its parentheses. -/
theorem Spells.call (hs : isIdentifier s = true) (ha : a = [] ∧ A = [] ∨ Spells a A) :
    Spells (s.toList ++ '(' :: (a ++ [')'])) (.name s :: .leftParen :: (A ++ [.rightParen])) where
  begins := by
    obtain ⟨c, cs, heq, hc, -⟩ := exists_cons_of_isIdentifier hs
    exact ⟨c, by rw [heq]; rfl, by rw [opens, hc]; simp⟩
  scans {rest us} hscans hrest := by
    have hclose := hscans.mark (m := ')') (t := .rightParen) (by simp [marks]) hrest.head_ne
    have hparens : Scans ('(' :: (a ++ ')' :: rest)) (.leftParen :: (A ++ .rightParen :: us)) := by
      obtain ⟨rfl, rfl⟩ | ha := ha
      · exact hclose.mark (by simp [marks]) (by simp)
      · exact (ha.scans hclose (parted_cons (by decide))).mark (by simp [marks]) ha.head_ne
    simpa using hparens.name hs (parted_cons (by decide))

/-- Two operands with an operator and blanks between them. -/
theorem Spells.binary {m : Char} {t : Token K} (hm : (m, t) ∈ marks) (ha : Spells a A)
    (hb : Spells b B) : Spells (a ++ ' ' :: m :: ' ' :: b) (A ++ t :: B) where
  begins := by
    obtain ⟨c, hc, hopens⟩ := ha.begins
    exact ⟨c, by rw [List.head?_append, Option.mem_def.mp hc]; rfl, hopens⟩
  scans {rest us} hscans hrest := by
    have hright := ((hb.scans hscans hrest).blank.mark hm (by simp)).blank
    simpa using ha.scans hright (parted_cons (by decide))

theorem Spells.power (ha : Spells a A) (hb : Spells b B) :
    Spells (a ++ '^' :: b) (A ++ .operator .pow :: B) where
  begins := by
    obtain ⟨c, hc, hopens⟩ := ha.begins
    exact ⟨c, by rw [List.head?_append, Option.mem_def.mp hc]; rfl, hopens⟩
  scans {rest us} hscans hrest := by
    have hright := (hb.scans hscans hrest).mark (m := '^') (t := .operator .pow)
      (by simp [marks]) hb.head_ne
    simpa using ha.scans hright (parted_cons (by decide))

theorem Spells.minus (h : Spells a A) : Spells ('-' :: a) (.operator .sub :: A) where
  begins := ⟨'-', rfl, rfl⟩
  scans {rest us} hscans hrest := (h.scans hscans hrest).mark (by simp [marks]) h.head_ne

theorem Spells.comma (ha : Spells a A) (hb : Spells b B) :
    Spells (a ++ ',' :: ' ' :: b) (A ++ .comma :: B) where
  begins := by
    obtain ⟨c, hc, hopens⟩ := ha.begins
    exact ⟨c, by rw [List.head?_append, Option.mem_def.mp hc]; rfl, hopens⟩
  scans {rest us} hscans hrest := by
    have hright := (hb.scans hscans hrest).blank.mark (m := ',') (t := .comma)
      (by simp [marks]) (by simp)
    simpa using ha.scans hright (parted_cons (by decide))

/-! ### Whole formulas -/

theorem isBlank_of_opens {c : Char} (h : opens c = true) : Text.isBlank c = false := by
  have hrange : 0x28 ≤ c.toNat ∧ c.toNat ≤ 0x7A := by
    simp only [opens, Token.startsNumber, Token.startsName, Char.isAlpha, Char.isUpper,
      Char.isLower, Char.isDigit, Bool.or_eq_true, Bool.and_eq_true, decide_eq_true_eq,
      beq_iff_eq, UInt32.le_iff_toNat_le, ge_iff_le] at h
    have hdigits : '0'.val.toNat = 48 ∧ '9'.val.toNat = 57 := ⟨rfl, rfl⟩
    have hupper : 'A'.val.toNat = 65 ∧ 'Z'.val.toNat = 90 := ⟨rfl, rfl⟩
    have hlower : 'a'.val.toNat = 97 ∧ 'z'.val.toNat = 122 := ⟨rfl, rfl⟩
    obtain (((h | rfl) | ((h | h) | rfl)) | rfl) | rfl := h
    all_goals first | decide | (simp at h; omega)
  simp only [Text.isBlank, Text.blankRanges, List.any_cons, List.any_nil, Bool.or_false,
    Bool.or_eq_false_iff, Bool.and_eq_false_iff, decide_eq_false_iff_not]
  omega

theorem Spells.scan_eq {text : String} (h : Spells text.toList A) :
    ∃ lexemes, Lexeme.scan text = .ok lexemes ∧ lexemes.map Lexeme.token = A := by
  have hscans := h.scans scans_nil (by simp [Parted])
  rw [List.append_nil, List.append_nil] at hscans
  exact hscans 0

theorem Spells.not_allBlank {text : String} (h : Spells text.toList A) :
    Text.allBlank text = false := by
  obtain ⟨c, hc, hopens⟩ := h.begins
  rw [Bool.eq_false_iff, Text.allBlank, ne_eq, List.all_eq_true]
  intro hall
  have hblank := hall c (List.mem_of_mem_head? hc)
  rw [isBlank_of_opens hopens] at hblank
  exact absurd hblank (by decide)

end Rules

end DensityKernel.Formula
