import DensityKernel.Proofs.Formula.Token

/-!
Where a token ends. A number is a mantissa of digits and points with an exponent
after it, and what the lexer cuts off is the longest text of that form
(`numberText_maximal`): an `e` without digits behind it is left to the next token.
The end of a token does not move when less of the formula follows, or a blank
(`firstText_of_shortens`).
-/

namespace DensityKernel.Formula

open Token

/-! ### Exponents -/

/-- The letter of an exponent, perhaps a sign, and digits. -/
def IsExponent (cs : List Char) : Prop :=
  ∃ letter sign digits, cs = letter :: (sign ++ digits) ∧ (letter = 'e' ∨ letter = 'E') ∧
    (sign = [] ∨ sign = ['+'] ∨ sign = ['-']) ∧ digits ≠ [] ∧ ∀ d ∈ digits, d.isDigit = true

section Exponents

variable {cs rest : List Char}

theorem isDigit_sign {s : Char} (h : s = '+' ∨ s = '-') : s.isDigit = false := by
  obtain rfl | rfl := h <;> decide

/-- An exponent is cut off whole, in front of anything but a digit. -/
theorem exponentText_append (h : IsExponent cs) (hrest : ∀ d ∈ rest.head?, d.isDigit = false) :
    exponentText (cs ++ rest) = cs := by
  obtain ⟨letter, sign, digits, rfl, hletter, hsign, hne, hdigits⟩ := h
  have htake : (digits ++ rest).takeWhile Char.isDigit = digits :=
    (takeWhile_append_of_parted hdigits hrest).1
  have hbegins : (letter == 'e' || letter == 'E') = true := by
    obtain rfl | rfl := hletter <;> rfl
  obtain ⟨d, digits, rfl⟩ := List.exists_cons_of_ne_nil hne
  have hd : (d == '+' || d == '-') = false := by
    rw [Bool.eq_false_iff]
    intro hd
    have := isDigit_sign (s := d) (by simpa using hd)
    exact absurd (this.symm.trans (hdigits d List.mem_cons_self)) Bool.false_ne_true
  obtain rfl | hsign := hsign
  · simp only [List.nil_append, List.cons_append] at htake ⊢
    simp [exponentText, hbegins, hd, htake]
  · obtain ⟨s, rfl, hs⟩ : ∃ s, sign = [s] ∧ (s == '+' || s == '-') = true := by
      obtain rfl | rfl := hsign
      · exact ⟨'+', rfl, rfl⟩
      · exact ⟨'-', rfl, rfl⟩
    simp only [List.cons_append, List.nil_append] at htake ⊢
    simp [exponentText, hbegins, hs, htake]

theorem head_dropWhile {p : Char → Bool} (cs : List Char) :
    ∀ d ∈ (cs.dropWhile p).head?, p d = false := by
  intro d hd
  have hhead := cs.head?_dropWhile_not p
  rw [Option.mem_def.mp hd] at hhead
  simpa using hhead

/-- What is cut off as an exponent is nothing or an exponent that no digit follows. -/
theorem exponentText_spec (cs : List Char) :
    exponentText cs = [] ∨ IsExponent (exponentText cs) ∧
      ∃ rest, cs = exponentText cs ++ rest ∧ ∀ d ∈ rest.head?, d.isDigit = false := by
  have hsplit : ∀ after : List Char, after =
      after.takeWhile Char.isDigit ++ after.dropWhile Char.isDigit :=
    fun after => List.takeWhile_append_dropWhile.symm
  have hdigits : ∀ after : List Char, ∀ d ∈ after.takeWhile Char.isDigit, d.isDigit = true :=
    fun after d hd => List.mem_takeWhile_imp hd
  unfold exponentText
  split
  · exact .inl rfl
  · next letter rest =>
    split_ifs with hletter
    swap
    · exact .inl rfl
    have hletter : letter = 'e' ∨ letter = 'E' := by simpa using hletter
    split
    · exact .inl rfl
    · next s after =>
      dsimp only
      split_ifs with hsign hnone hnone
      · exact .inl rfl
      · have hsign : [s] = ['+'] ∨ [s] = ['-'] := by simpa using hsign
        refine .inr ⟨⟨letter, [s], _, rfl, hletter, .inr hsign, by simpa using hnone, hdigits _⟩,
          after.dropWhile Char.isDigit, ?_, head_dropWhile _⟩
        rw [List.cons_append, List.cons_append, ← hsplit]
      · exact .inl rfl
      · have hs : s.isDigit = true := by simpa using hnone
        have htake := List.takeWhile_cons_of_pos (l := after) hs
        refine .inr ⟨⟨letter, [], (s :: after).takeWhile Char.isDigit, rfl, hletter, .inl rfl,
          htake ▸ List.cons_ne_nil _ _, hdigits (s :: after)⟩,
          (s :: after).dropWhile Char.isDigit, ?_, head_dropWhile _⟩
        exact congrArg (letter :: ·) (hsplit (s :: after))

/-- An exponent in front of a text is part of what is cut off. -/
theorem prefix_exponentText {p : List Char} (h : IsExponent p) (hp : p <+: cs) :
    p <+: exponentText cs := by
  obtain ⟨letter, sign, digits, rfl, hletter, hsign, hne, hdigits⟩ := h
  obtain ⟨after, rfl⟩ := hp
  have hlonger : IsExponent (letter :: (sign ++ (digits ++ after.takeWhile Char.isDigit))) :=
    ⟨letter, sign, _, rfl, hletter, hsign, List.append_ne_nil_of_left_ne_nil hne _,
      List.forall_mem_append.mpr ⟨hdigits, fun d hd => List.mem_takeWhile_imp hd⟩⟩
  have hcut := exponentText_append hlonger (head_dropWhile after)
  rw [List.cons_append, List.append_assoc, List.append_assoc,
    List.takeWhile_append_dropWhile] at hcut
  rw [List.cons_append, List.append_assoc, hcut, ← List.append_assoc, ← List.cons_append]
  exact List.prefix_append _ _

end Exponents

/-! ### Numbers -/

/-- Digits and points, perhaps with an exponent. -/
def IsNumberText (cs : List Char) : Prop :=
  ∃ mantissa exponent, cs = mantissa ++ exponent ∧ mantissa ≠ [] ∧
    (∀ c ∈ mantissa, startsNumber c = true) ∧ (exponent = [] ∨ IsExponent exponent)

section Numbers

variable {c : Char} {cs rest : List Char}

theorem IsExponent.head (h : IsExponent cs) : ∀ c ∈ cs.head?, startsNumber c = false := by
  obtain ⟨letter, sign, digits, rfl, hletter, -⟩ := h
  rintro c ⟨⟩
  obtain rfl | rfl := hletter <;> decide

/-- A mantissa ends in front of an exponent. -/
theorem head_exponentText (cs : List Char) :
    ∀ c ∈ (exponentText cs).head?, startsNumber c = false := by
  rcases exponentText_spec cs with h | ⟨h, -⟩
  · simp [h]
  · exact h.head

theorem exponentText_isPrefix (cs : List Char) : exponentText cs <+: cs := by
  rcases exponentText_spec cs with h | ⟨-, rest, hrest, -⟩
  · rw [h]
    exact List.nil_prefix
  · exact ⟨rest, hrest.symm⟩

theorem isNumberText_numberText (h : startsNumber c = true) :
    IsNumberText (numberText (c :: cs)) := by
  refine ⟨_, _, rfl, ?_, fun d hd => List.mem_takeWhile_imp hd,
    (exponentText_spec _).imp_right And.left⟩
  rw [List.takeWhile_cons_of_pos h]
  exact List.cons_ne_nil _ _

/-- **The lexer cuts off the longest number.** -/
theorem numberText_maximal {p : List Char} (h : IsNumberText p) (hp : p <+: cs) :
    p <+: numberText cs := by
  obtain ⟨mantissa, exponent, rfl, -, hmantissa, hexponent⟩ := h
  obtain ⟨rest, rfl⟩ := hp
  rw [List.append_assoc, numberText, List.takeWhile_append_of_pos hmantissa,
    List.dropWhile_append_of_pos hmantissa, List.append_assoc]
  refine (List.prefix_append_right_inj _).mpr ?_
  rcases hexponent with rfl | hexponent
  · exact List.nil_prefix
  · obtain ⟨letter, exponent, rfl⟩ : ∃ letter es, exponent = letter :: es := by
      obtain ⟨letter, sign, digits, rfl, -⟩ := hexponent
      exact ⟨letter, _, rfl⟩
    have hletter := hexponent.head letter rfl
    rw [List.cons_append, List.takeWhile_cons_of_neg (by simp [hletter]),
      List.dropWhile_cons_of_neg (by simp [hletter]), List.nil_append]
    exact prefix_exponentText hexponent (List.prefix_append _ _)

end Numbers

/-! ### Ends of tokens -/

/-- A text that may stand behind a token in place of another: less of it, or one that parts the
token from what comes. -/
def Shortens (rest' rest : List Char) : Prop :=
  rest' <+: rest ∨ Parted rest'

section Ends

variable {c : Char} {w rest rest' : List Char}

theorem Shortens.head {p : Char → Bool} (h : Shortens rest' rest)
    (hrest : ∀ d ∈ rest.head?, p d = false)
    (hp : ∀ d, continuesName d = false → d ≠ '.' → d ≠ '*' → p d = false) :
    ∀ d ∈ rest'.head?, p d = false := by
  intro d hd
  rcases h with ⟨after, rfl⟩ | hparted
  · refine hrest d ?_
    rw [List.head?_append, Option.mem_def.mp hd]
    rfl
  · obtain ⟨hname, hpoint, hstar⟩ := hparted d hd
    exact hp d hname hpoint hstar

theorem isDigit_of_not_continuesName {d : Char} (h : continuesName d = false) :
    d.isDigit = false := by
  simp only [continuesName, Char.isAlphanum, Bool.or_eq_false_iff] at h
  exact h.1.2

/-- The exponent of a number ends where it ended before. -/
theorem exponentText_of_shortens {e : List Char} (h : exponentText (e ++ rest) = e)
    (hshort : Shortens rest' rest) : exponentText (e ++ rest') = e := by
  rcases exponentText_spec (e ++ rest) with hnone | ⟨hexponent, rest₁, hrest₁, hhead⟩
  · obtain rfl : [] = e := hnone.symm.trans h
    rcases hshort with hfront | hparted
    · rcases exponentText_spec rest' with hnone' | ⟨hexponent, -⟩
      · exact hnone'
      · have hlonger := prefix_exponentText hexponent ((exponentText_isPrefix rest').trans hfront)
        rw [List.nil_append] at h
        rw [h] at hlonger
        exact List.prefix_nil.mp hlonger
    · exact exponentText_of_parted hparted
  · rw [h] at hexponent hrest₁
    obtain rfl := List.append_cancel_left hrest₁
    exact exponentText_append hexponent
      (hshort.head hhead fun d hname _ _ => isDigit_of_not_continuesName hname)

theorem firstText_number_of_shortens (hc : startsNumber c = true)
    (h : firstText c (w ++ rest) = c :: w) (hshort : Shortens rest' rest) :
    firstText c (w ++ rest') = c :: w := by
  rw [firstText, if_pos hc, ← List.cons_append] at h ⊢
  -- the mantissa and the exponent are found again in front of `rest'`
  obtain ⟨m, e, hsplit, hm, he⟩ : ∃ m e, c :: w = m ++ e ∧
      (c :: w ++ rest).takeWhile startsNumber = m ∧
      exponentText ((c :: w ++ rest).dropWhile startsNumber) = e := ⟨_, _, h.symm, rfl, rfl⟩
  have hdrop : (c :: w ++ rest).dropWhile startsNumber = e ++ rest := by
    have hwhole := (c :: w ++ rest).takeWhile_append_dropWhile (p := startsNumber)
    rw [hm] at hwhole
    refine List.append_cancel_left (hwhole.trans ?_)
    rw [hsplit, List.append_assoc]
  rw [hdrop] at he
  have hall : ∀ d ∈ m, startsNumber d = true := by
    rw [← hm]
    exact fun d hd => List.mem_takeWhile_imp hd
  have hnext : ∀ d ∈ (e ++ rest').head?, startsNumber d = false := by
    cases e with
    | cons letter es => exact fun d hd => head_exponentText (letter :: es ++ rest) d (he.symm ▸ hd)
    | nil =>
      refine hshort.head ?_ fun d hname hpoint _ => ?_
      · rw [← List.nil_append rest, ← hdrop]
        exact head_dropWhile _
      · simp [startsNumber, isDigit_of_not_continuesName hname, hpoint]
  obtain ⟨htake, hdrop'⟩ := takeWhile_append_of_parted hall hnext
  rw [hsplit, List.append_assoc, numberText, htake, hdrop', exponentText_of_shortens he hshort]

/-- **The end of a token does not move** when less of the formula follows, or something that parts
it from what comes. -/
theorem firstText_of_shortens (h : firstText c (w ++ rest) = c :: w)
    (hshort : Shortens rest' rest) : firstText c (w ++ rest') = c :: w := by
  by_cases hnumber : startsNumber c = true
  · exact firstText_number_of_shortens hnumber h hshort
  have hplain : ∀ cs, firstText c cs = if startsName c then c :: cs.takeWhile continuesName
      else if c == '*' && cs.head? == some '*' then ['*', '*'] else [c] :=
    fun cs => if_neg hnumber
  rw [hplain] at h ⊢
  by_cases hname : startsName c = true
  · rw [if_pos hname, List.cons.injEq, and_iff_right rfl] at h
    have hw : ∀ d ∈ w, continuesName d = true := by
      rw [← h]
      exact fun d hd => List.mem_takeWhile_imp hd
    have hrest : ∀ d ∈ rest.head?, continuesName d = false := by
      have hdrop : (w ++ rest).dropWhile continuesName = rest := by
        have hwhole := (w ++ rest).takeWhile_append_dropWhile (p := continuesName)
        rw [h] at hwhole
        exact List.append_cancel_left hwhole
      rw [← hdrop]
      exact head_dropWhile _
    rw [if_pos hname, (takeWhile_append_of_parted hw
      (hshort.head hrest fun d hd _ _ => hd)).1]
  · rw [if_neg hname] at h ⊢
    split_ifs at h with hpower
    · -- two asterisks; nothing that follows matters to them
      obtain ⟨rfl, rfl⟩ := List.cons.inj h
      rfl
    · obtain rfl := (List.cons.inj h).2
      rw [if_neg]
      intro hpower'
      obtain ⟨hstar, hnext⟩ : c = '*' ∧ rest'.head? = some '*' := by simpa using hpower'
      have hfree := hshort.head (p := (· == '*'))
        (fun d hd => by
          rw [Bool.eq_false_iff]
          intro hd'
          refine hpower ?_
          rw [hstar, List.nil_append, Option.mem_def.mp hd, eq_of_beq hd']
          rfl)
        (fun d _ _ hd => beq_eq_false_iff_ne.mpr hd) '*' hnext
      exact absurd hfree (by decide)

end Ends

end DensityKernel.Formula
