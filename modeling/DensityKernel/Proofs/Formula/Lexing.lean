import DensityKernel.Proofs.Formula.Numerals

/-!
The lexer tiles a formula with tokens and white space, up to its end or to the first text that is
no token (`scan_tiles`). `Tiles` is the lexer as a judgement; it says of every token which text of
the formula it is, and that text is the same token wherever it stands alone (`IsSingle`).
-/

namespace DensityKernel.Formula

open Token Lexeme

variable {K : Type} [Spelling K]

/-! ### Texts of tokens -/

section Texts

variable {c : Char} {cs w rest : List Char} {t : Token K}

theorem numberText_isPrefix (cs : List Char) : numberText cs <+: cs := by
  conv_rhs => rw [← cs.takeWhile_append_dropWhile (p := startsNumber)]
  exact (List.prefix_append_right_inj _).mpr (exponentText_isPrefix _)

theorem firstText_isPrefix (c : Char) (rest : List Char) : firstText c rest <+: c :: rest := by
  rw [firstText]
  split_ifs with hnumber hname hpower
  · exact numberText_isPrefix _
  · exact (List.prefix_cons_inj c).mpr (List.takeWhile_prefix _)
  · obtain ⟨rfl, hnext⟩ : c = '*' ∧ rest.head? = some '*' := by simpa using hpower
    obtain ⟨after, rfl⟩ := List.head?_eq_some_iff.mp hnext
    exact ⟨after, rfl⟩
  · exact ⟨rest, rfl⟩

theorem firstText_ne_nil (c : Char) (rest : List Char) : firstText c rest ≠ [] := by
  rw [firstText]
  split_ifs with hnumber
  · obtain ⟨mantissa, exponent, heq, hne, -⟩ : IsNumberText (numberText (c :: rest)) :=
      isNumberText_numberText hnumber
    rw [heq]
    exact List.append_ne_nil_of_left_ne_nil hne _
  all_goals exact List.cons_ne_nil _ _

/-- A token is cut off the front of what is left. -/
theorem exists_firstText (c : Char) (cs : List Char) :
    ∃ w rest, cs = w ++ rest ∧ firstText c cs = c :: w := by
  obtain ⟨d, w, heq⟩ := List.exists_cons_of_ne_nil (firstText_ne_nil c cs)
  obtain ⟨rest, hrest⟩ := firstText_isPrefix c cs
  rw [heq, List.cons_append, List.cons.injEq] at hrest
  obtain ⟨rfl, rfl⟩ := hrest
  exact ⟨w, rest, rfl, heq⟩

/-- A text that is one token as a whole. -/
def IsSingle (cs : List Char) (t : Token K) : Prop :=
  ∃ c w, cs = c :: w ∧ isSkipped c = false ∧ firstText c w = c :: w ∧ ofText? (c :: w) = some t

theorem isSingle_of_firstText (hskip : isSkipped c = false)
    (hfirst : firstText c (w ++ rest) = c :: w) (ht : ofText? (c :: w) = some t) :
    IsSingle (c :: w) t := by
  have halone := firstText_of_shortens hfirst (.inl (List.nil_prefix (l := rest)))
  rw [List.append_nil] at halone
  exact ⟨c, w, rfl, hskip, halone, ht⟩

end Texts

/-! ### The judgement -/

/-- The lexemes of a text that begins at a byte of the formula. -/
inductive Tiles : Nat → List Char → List (Lexeme K) → Prop
  | nil {position : Nat} : Tiles position [] []
  | skip {position : Nat} {c : Char} {rest : List Char} {lexemes : List (Lexeme K)}
      (hskip : isSkipped c = true) (h : Tiles (position + 1) rest lexemes) :
      Tiles position (c :: rest) lexemes
  | token {position : Nat} {c : Char} {w rest : List Char} {t : Token K}
      {lexemes : List (Lexeme K)} (hskip : isSkipped c = false)
      (hfirst : firstText c (w ++ rest) = c :: w) (ht : ofText? (c :: w) = some t)
      (h : Tiles (position + byteCount (c :: w)) rest lexemes) :
      Tiles position (c :: (w ++ rest))
        (⟨t, ⟨position, position + byteCount (c :: w)⟩⟩ :: lexemes)

/-- The lexer has gone through the beginning of a text and has met what is no token. -/
def Stops (K : Type) [Spelling K] (position : Nat) (cs : List Char) (e : Error) : Prop :=
  ∃ (before : List Char) (lexemes : List (Lexeme K)) (c : Char) (w rest : List Char),
    cs = before ++ c :: (w ++ rest) ∧ Tiles position before lexemes ∧ isSkipped c = false ∧
      firstText c (w ++ rest) = c :: w ∧ ofText? (K := K) (c :: w) = none ∧
      e = rejected (c :: w)
        ⟨position + byteCount before, position + byteCount before + byteCount (c :: w)⟩

section Judgement

variable {position : Nat} {c : Char} {cs w rest : List Char} {t : Token K} {e : Error}
  {lexemes : List (Lexeme K)}

theorem byteCount_append (cs ds : List Char) :
    byteCount (cs ++ ds) = byteCount cs + byteCount ds := by
  induction cs with
  | nil => simp [byteCount]
  | cons c cs ih => rw [List.cons_append, byteCount, byteCount, ih, Nat.add_assoc]

theorem byteCount_of_isSkipped (h : isSkipped c = true) :
    byteCount (c :: cs) = 1 + byteCount cs := by
  rw [byteCount]
  simp only [isSkipped, Bool.or_eq_true, beq_iff_eq] at h
  obtain (((rfl | rfl) | rfl) | rfl) | rfl := h <;> rfl

theorem scanFrom_skip (h : isSkipped c = true) :
    scanFrom (K := K) position (c :: cs) = scanFrom (position + 1) cs := by
  rw [scanFrom, if_pos h]

theorem scanFrom_token (hskip : isSkipped c = false) (hfirst : firstText c (w ++ rest) = c :: w)
    (ht : ofText? (c :: w) = some t) :
    scanFrom position (c :: (w ++ rest)) =
      (scanFrom (position + byteCount (c :: w)) rest).map
        (⟨t, ⟨position, position + byteCount (c :: w)⟩⟩ :: ·) := by
  rw [scanFrom, hskip, if_neg Bool.false_ne_true]
  simp only [hfirst, ht, List.length_cons, Nat.add_sub_cancel, List.drop_left]
  cases scanFrom (K := K) (position + byteCount (c :: w)) rest <;> rfl

theorem scanFrom_rejected (hskip : isSkipped c = false)
    (hfirst : firstText c (w ++ rest) = c :: w) (ht : ofText? (K := K) (c :: w) = none) :
    scanFrom (K := K) position (c :: (w ++ rest)) =
      .error (rejected (c :: w) ⟨position, position + byteCount (c :: w)⟩) := by
  rw [scanFrom, hskip, if_neg Bool.false_ne_true]
  simp only [hfirst, ht]

theorem Tiles.scanFrom_eq (h : Tiles position cs lexemes) :
    scanFrom position cs = .ok lexemes := by
  induction h with
  | nil => rw [scanFrom]
  | skip hskip _ ih => rw [scanFrom_skip hskip, ih]
  | token hskip hfirst ht _ ih =>
    rw [scanFrom_token hskip hfirst ht, ih]
    rfl

theorem Stops.skip (hskip : isSkipped c = true) (h : Stops K (position + 1) cs e) :
    Stops K position (c :: cs) e := by
  obtain ⟨before, lexemes, d, w, rest, rfl, htiles, hd, hfirst, ht, rfl⟩ := h
  refine ⟨c :: before, lexemes, d, w, rest, rfl, htiles.skip hskip, hd, hfirst, ht, ?_⟩
  rw [byteCount_of_isSkipped hskip, ← Nat.add_assoc]

/-- The tokens before a stop are cut off without what comes after it. -/
theorem Stops.token (hskip : isSkipped c = false) (hfirst : firstText c (w ++ cs) = c :: w)
    (ht : ofText? (c :: w) = some t) (h : Stops K (position + byteCount (c :: w)) cs e) :
    Stops K position (c :: (w ++ cs)) e := by
  obtain ⟨before, lexemes, d, v, rest, rfl, htiles, hd, hfirst', ht', rfl⟩ := h
  have hcut := firstText_of_shortens hfirst (.inl (List.prefix_append before _))
  refine ⟨c :: (w ++ before), _, d, v, rest, by simp, htiles.token hskip hcut ht, hd, hfirst',
    ht', ?_⟩
  rw [← List.cons_append, byteCount_append, ← Nat.add_assoc]

theorem scanFrom_spec (position : Nat) (cs : List Char) :
    match scanFrom (K := K) position cs with
    | .ok lexemes => Tiles position cs lexemes
    | .error e => Stops K position cs e := by
  induction hn : cs.length using Nat.strong_induction_on generalizing position cs with
  | _ n ih =>
  subst hn
  cases cs with
  | nil =>
    rw [scanFrom]
    exact .nil
  | cons c cs =>
    by_cases hskip : isSkipped c = true
    · have hrest := ih cs.length (by simp) (position + 1) cs rfl
      rw [scanFrom_skip hskip]
      cases hscan : scanFrom (K := K) (position + 1) cs with
      | ok lexemes => exact .skip hskip (by simpa only [hscan] using hrest)
      | error e => exact .skip hskip (by simpa only [hscan] using hrest)
    · rw [Bool.not_eq_true] at hskip
      obtain ⟨w, rest, rfl, hfirst⟩ := exists_firstText c cs
      cases ht : ofText? (K := K) (c :: w) with
      | none =>
        rw [scanFrom_rejected hskip hfirst ht]
        exact ⟨[], [], c, w, rest, rfl, .nil, hskip, hfirst, ht, by simp [byteCount]⟩
      | some t =>
        have hrest := ih rest.length (by simp) (position + byteCount (c :: w)) rest rfl
        rw [scanFrom_token hskip hfirst ht]
        cases hscan : scanFrom (K := K) (position + byteCount (c :: w)) rest with
        | ok lexemes => exact .token hskip hfirst ht (by simpa only [hscan] using hrest)
        | error e => exact .token hskip hfirst ht (by simpa only [hscan] using hrest)

end Judgement

/-! ### Texts and their tokens -/

/-- The text at some bytes of a text that begins at byte `position`. -/
def StandsAt (position : Nat) (cs : List Char) (span : Span) (text : List Char) : Prop :=
  ∃ before after, cs = before ++ text ++ after ∧
    span = ⟨position + byteCount before, position + byteCount (before ++ text)⟩

section Pieces

variable {position : Nat} {c : Char} {cs text w rest : List Char} {t : Token K} {span : Span}
  {lexemes : List (Lexeme K)}

theorem StandsAt.behind (h : StandsAt (position + byteCount w) rest span text) :
    StandsAt position (w ++ rest) span text := by
  obtain ⟨before, after, rfl, rfl⟩ := h
  exact ⟨w ++ before, after, by simp, by simp [byteCount_append, Nat.add_assoc]⟩

/-- Every token is a text of the formula that is this token alone. -/
theorem Tiles.pieces (h : Tiles position cs lexemes) :
    ∃ texts, List.Forall₂ (fun (l : Lexeme K) text =>
      StandsAt position cs l.span text ∧ IsSingle text l.token) lexemes texts := by
  induction h with
  | nil => exact ⟨[], .nil⟩
  | @skip _ c _ _ hskip _ ih =>
    obtain ⟨texts, htexts⟩ := ih
    refine ⟨texts, htexts.imp fun l text hl => ⟨?_, hl.2⟩⟩
    refine StandsAt.behind (w := [c]) ?_
    rw [byteCount_of_isSkipped hskip]
    exact hl.1
  | @token _ c w rest t _ hskip hfirst ht _ ih =>
    obtain ⟨texts, htexts⟩ := ih
    refine ⟨(c :: w) :: texts, .cons ⟨⟨[], rest, by simp, by simp [byteCount]⟩,
      isSingle_of_firstText hskip hfirst ht⟩ (htexts.imp fun l text hl => ⟨?_, hl.2⟩)⟩
    exact hl.1.behind

theorem IsSingle.tiles_append (h : IsSingle text t) (hparted : Parted rest)
    (hrest : Tiles (position + byteCount text) rest lexemes) :
    Tiles position (text ++ rest) (⟨t, ⟨position, position + byteCount text⟩⟩ :: lexemes) := by
  obtain ⟨c, w, rfl, hskip, hfirst, ht⟩ := h
  have halone : firstText c (w ++ []) = c :: w := by rwa [List.append_nil]
  exact .token hskip (firstText_of_shortens halone (.inr hparted)) ht hrest

/-- **A token alone** is cut off again. -/
theorem IsSingle.tiles (h : IsSingle text t) (position : Nat) :
    Tiles position text [⟨t, ⟨position, position + byteCount text⟩⟩] := by
  have hparted : Parted ([] : List Char) := by simp [Parted]
  simpa using h.tiles_append hparted .nil

/-- **Tokens with blanks between them** are cut off again. -/
theorem tiles_intercalate {ts : List (Token K)} {texts : List (List Char)}
    (h : List.Forall₂ (fun t text => IsSingle text t) ts texts) (position : Nat) :
    ∃ lexemes, Tiles position ([' '].intercalate texts) lexemes ∧
      lexemes.map Lexeme.token = ts := by
  induction h generalizing position with
  | nil => exact ⟨[], .nil, rfl⟩
  | @cons t text ts texts htext htexts ih =>
    obtain ⟨lexemes, htiles, htokens⟩ := ih (position + byteCount text + 1)
    cases htexts with
    | nil => exact ⟨_, by simpa [List.intercalate] using htext.tiles position, rfl⟩
    | cons hnext hrest =>
      refine ⟨⟨t, ⟨position, position + byteCount text⟩⟩ :: lexemes, ?_,
        congrArg (t :: ·) htokens⟩
      rw [List.intercalate_cons_cons, List.append_assoc]
      exact htext.tiles_append (parted_cons (by decide)) (htiles.skip (by decide))

end Pieces

/-! ### Spans -/

section Spans

variable {position : Nat} {c : Char} {cs w rest : List Char} {lexemes : List (Lexeme K)}

theorem byteCount_pos (c : Char) (cs : List Char) : 0 < byteCount (c :: cs) :=
  Nat.add_pos_left c.utf8Size_pos _

/-- The spans lie behind one another, none of them empty. -/
theorem Tiles.ordered (h : Tiles position cs lexemes) :
    (∀ l ∈ lexemes, position ≤ l.span.start ∧ l.span.start < l.span.stop) ∧
      lexemes.Pairwise fun l l' => l.span.stop ≤ l'.span.start := by
  induction h with
  | nil => simp
  | skip _ _ ih => exact ⟨fun l hl => ⟨by have := ih.1 l hl; omega, (ih.1 l hl).2⟩, ih.2⟩
  | @token position c w _ _ _ _ _ _ _ ih =>
    have hpos := byteCount_pos c w
    refine ⟨?_, .cons (fun l hl => (ih.1 l hl).1) ih.2⟩
    rintro l (_ | ⟨_, hl⟩)
    · exact ⟨le_rfl, Nat.lt_add_of_pos_right hpos⟩
    · exact ⟨by have := ih.1 l hl; omega, (ih.1 l hl).2⟩

/-- Space, tab, line feed, form feed and carriage return. -/
def whiteSpace : List Char :=
  [' ', '\t', '\n', '\x0c', '\r']

theorem mem_whiteSpace_iff : c ∈ whiteSpace ↔ isSkipped c = true := by
  simp [whiteSpace, isSkipped, or_assoc]

/-- Outside the tokens there is white space only. -/
theorem Tiles.whiteSpace_outside (h : Tiles position cs lexemes) {i : Nat} (hle : position ≤ i)
    (hlt : i < position + byteCount cs)
    (houtside : ∀ l ∈ lexemes, ¬(l.span.start ≤ i ∧ i < l.span.stop)) :
    ∃ c ∈ whiteSpace, StandsAt position cs (.single i) [c] := by
  induction h with
  | nil => simp [byteCount] at hlt; omega
  | @skip position c rest lexemes hskip _ ih =>
    rw [byteCount_of_isSkipped hskip] at hlt
    obtain rfl | hbehind := Nat.eq_or_lt_of_le hle
    · refine ⟨c, mem_whiteSpace_iff.mpr hskip, [], rest, rfl, ?_⟩
      simp [Span.single, byteCount_of_isSkipped hskip, byteCount]
    · obtain ⟨d, hd, hstands⟩ := ih (by omega) (by omega) houtside
      refine ⟨d, hd, StandsAt.behind (w := [c]) ?_⟩
      rwa [byteCount_of_isSkipped hskip]
  | @token position c w rest t lexemes _ _ _ _ ih =>
    obtain ⟨hfirst, hothers⟩ := List.forall_mem_cons.mp houtside
    rw [← List.cons_append, byteCount_append] at hlt
    have hbehind : position + byteCount (c :: w) ≤ i := by
      by_contra hinside
      exact hfirst ⟨hle, Nat.lt_of_not_le hinside⟩
    obtain ⟨d, hd, hstands⟩ := ih hbehind (by omega) hothers
    exact ⟨d, hd, hstands.behind⟩

end Spans

/-! ### Texts that are no tokens -/

/-- No token begins with the character, and it is not skipped. -/
def BeginsNothing (c : Char) : Prop :=
  c.isAlphanum = false ∧ c ∉ ['_', '.', '(', ')', ',', '+', '-', '*', '/', '^'] ∧ c ∉ whiteSpace

/-- The error about a text in front of `after`, at some bytes of a formula. -/
inductive Blames (K : Type) [Spelling K] (text after : List Char) (span : Span) : Error → Prop
  /-- A character that cannot begin a token. -/
  | token {c : Char} (htext : text = [c]) (hc : BeginsNothing c) :
      Blames K text after span (.invalidToken (String.ofList text) (some span))
  /-- The longest number that stands there, and it cannot be read. -/
  | number (hnumber : IsNumberText text)
      (hlongest : ∀ p, IsNumberText p → p <+: text ++ after → p <+: text)
      (hread : Spelling.read? (K := K) text = none) :
      Blames K text after span (.invalidNumber (String.ofList text) (some span))

section Rejections

variable {c : Char} {w rest : List Char} {span : Span}

theorem beginsNothing_of_ofText? (hskip : isSkipped c = false) (hnumber : startsNumber c = false)
    (hname : startsName c = false) (ht : ofText? (K := K) [c] = none) : BeginsNothing c := by
  rw [startsNumber, Bool.or_eq_false_iff] at hnumber
  rw [startsName, Bool.or_eq_false_iff] at hname
  refine ⟨by rw [Char.isAlphanum, hname.1, hnumber.1]; rfl, ?_, ?_⟩
  · simp only [List.mem_cons, List.not_mem_nil, or_false]
    rintro (rfl | rfl | rfl | rfl | rfl | rfl | rfl | rfl | rfl | rfl)
    · exact absurd hname.2 (by decide)
    · exact absurd hnumber.2 (by decide)
    all_goals exact absurd ht (by simp [ofText?])
  · rw [mem_whiteSpace_iff, hskip]
    exact Bool.false_ne_true

theorem blames_rejected (hskip : isSkipped c = false) (hfirst : firstText c (w ++ rest) = c :: w)
    (ht : ofText? (K := K) (c :: w) = none) :
    Blames K (c :: w) rest span (rejected (c :: w) span) := by
  by_cases hnumber : startsNumber c = true
  · have hwhole : numberText (c :: (w ++ rest)) = c :: w := by
      rwa [firstText, if_pos hnumber] at hfirst
    have herror : rejected (c :: w) span = .invalidNumber (String.ofList (c :: w)) (some span) := by
      simp [rejected, hnumber]
    rw [herror]
    refine .number (hwhole ▸ isNumberText_numberText hnumber) (fun p hp hfront => ?_) ?_
    · exact hwhole ▸ numberText_maximal hp hfront
    · simpa [ofText?_number hnumber] using ht
  rw [Bool.not_eq_true] at hnumber
  have hname : startsName c = false := by
    rw [Bool.eq_false_iff]
    intro hname
    rw [ofText?_name hname] at ht
    cases ht
  have herror : rejected (c :: w) span = .invalidToken (String.ofList (c :: w)) (some span) := by
    simp [rejected, hnumber]
  rw [herror]
  rw [firstText, hnumber, hname, if_neg Bool.false_ne_true, if_neg Bool.false_ne_true] at hfirst
  split_ifs at hfirst
  · obtain ⟨rfl, rfl⟩ := List.cons.inj hfirst
    exact absurd ht (by simp [ofText?])
  · obtain rfl := (List.cons.inj hfirst).2
    exact .token rfl (beginsNothing_of_ofText? hskip hnumber hname ht)

end Rejections

/-! ### Formulas -/

/-- The text at some bytes of a formula. Both ends of it lie between characters. -/
def Slice (formula : String) (span : Span) (text : String) : Prop :=
  ∃ before after, formula = before ++ text ++ after ∧
    span = ⟨before.utf8ByteSize, (before ++ text).utf8ByteSize⟩

/-- Lexemes that make up a formula, with white space between them. -/
structure Tiled (formula : String) (lexemes : List (Lexeme K)) : Prop where
  nonempty : ∀ l ∈ lexemes, l.span.start < l.span.stop
  ordered : lexemes.Pairwise fun l l' => l.span.stop ≤ l'.span.start
  slices : ∀ l ∈ lexemes, ∃ text, Slice formula l.span text
  whiteSpace_outside : ∀ i < formula.utf8ByteSize,
    (∀ l ∈ lexemes, ¬(l.span.start ≤ i ∧ i < l.span.stop)) →
      ∃ c ∈ whiteSpace, Slice formula (.single i) (.singleton c)
  alone : ∀ l ∈ lexemes, ∀ text, Slice formula l.span text →
    scan text = .ok [⟨l.token, ⟨0, text.utf8ByteSize⟩⟩]
  joined : ∀ texts, List.Forall₂ (fun (l : Lexeme K) text => Slice formula l.span text)
      lexemes texts →
    ∃ again, scan (" ".intercalate texts) = .ok again ∧
      again.map Lexeme.token = lexemes.map Lexeme.token

/-- The error is about a text of the formula, and what is before that text has tokens. -/
def Halts (K : Type) [Spelling K] (formula : String) (e : Error) : Prop :=
  ∃ before text after : String, formula = before ++ text ++ after ∧
    (∃ lexemes : List (Lexeme K), scan before = .ok lexemes) ∧
    Blames K text.toList after.toList
      ⟨before.utf8ByteSize, (before ++ text).utf8ByteSize⟩ e

section Formulas

variable {formula text text' : String} {cs : List Char} {span : Span}

theorem byteCount_eq (cs : List Char) : byteCount cs = (String.ofList cs).utf8ByteSize := by
  induction cs with
  | nil => rfl
  | cons c cs ih =>
    rw [byteCount, ih, ← List.singleton_append, String.ofList_append, String.utf8ByteSize_append,
      ← String.singleton_eq_ofList, String.utf8ByteSize_singleton]

theorem slice_iff : Slice formula span text ↔ StandsAt 0 formula.toList span text.toList := by
  constructor
  · rintro ⟨before, after, rfl, rfl⟩
    exact ⟨before.toList, after.toList, by simp, by simp [byteCount_eq]⟩
  · rintro ⟨before, after, heq, rfl⟩
    refine ⟨String.ofList before, String.ofList after, ?_, by simp [byteCount_eq]⟩
    rw [← String.toList_inj, heq]
    simp

theorem eq_of_byteCount_eq {a b c d : List Char} (h : a ++ c = b ++ d)
    (hcount : byteCount a = byteCount b) : a = b ∧ c = d := by
  have hcut : ∀ x y : List Char, byteCount (x ++ y) = byteCount x → y = [] := by
    intro x y hxy
    rw [byteCount_append, Nat.add_eq_left] at hxy
    cases y with
    | nil => rfl
    | cons e y => exact absurd hxy (byteCount_pos e y).ne'
  rcases List.append_eq_append_iff.mp h with ⟨e, rfl, rfl⟩ | ⟨e, rfl, rfl⟩
  · obtain rfl := hcut a e hcount.symm
    simp
  · obtain rfl := hcut b e hcount
    simp

/-- There is one text at some bytes. -/
theorem Slice.unique (h : Slice formula span text) (h' : Slice formula span text') :
    text = text' := by
  obtain ⟨before, after, heq, rfl⟩ := slice_iff.mp h
  obtain ⟨before', after', heq', hspan⟩ := slice_iff.mp h'
  obtain ⟨hstart, hstop⟩ := Span.mk.inj hspan
  rw [Nat.zero_add, Nat.zero_add] at hstart hstop
  obtain ⟨hpiece, -⟩ := eq_of_byteCount_eq (heq.symm.trans heq') hstop
  rw [← String.toList_inj]
  exact (eq_of_byteCount_eq hpiece hstart).2

theorem IsSingle.scan_eq {t : Token K} (h : IsSingle text.toList t) :
    scan text = .ok [⟨t, ⟨0, text.utf8ByteSize⟩⟩] := by
  have htiles := (h.tiles 0).scanFrom_eq
  rwa [byteCount_eq, String.ofList_toList, Nat.zero_add] at htiles

theorem Tiles.tiled {lexemes : List (Lexeme K)} (h : Tiles 0 formula.toList lexemes) :
    Tiled formula lexemes := by
  obtain ⟨texts, htexts⟩ := h.pieces
  have hpieces : List.Forall₂ (fun (l : Lexeme K) text =>
      Slice formula l.span text ∧ IsSingle text.toList l.token) lexemes (texts.map String.ofList) :=
    List.forall₂_map_right_iff.mpr (htexts.imp fun l text hl => by simpa [slice_iff] using hl)
  have hsingle : ∀ l ∈ lexemes, ∃ text, Slice formula l.span text ∧ IsSingle text.toList l.token :=
    ((List.forall₂_and_left _ _).mp (hpieces.imp fun l text hl => ⟨⟨text, hl⟩, hl⟩)).1
  refine ⟨fun l hl => (h.ordered.1 l hl).2, h.ordered.2,
    fun l hl => (hsingle l hl).imp fun _ => And.left, fun i hi houtside => ?_,
    fun l hl text htext => ?_, fun texts' htexts' => ?_⟩
  · obtain ⟨c, hc, hstands⟩ := h.whiteSpace_outside (Nat.zero_le i)
      (by rwa [byteCount_eq, String.ofList_toList, Nat.zero_add]) houtside
    exact ⟨c, hc, slice_iff.mpr (by simpa using hstands)⟩
  · obtain ⟨text', htext', hl⟩ := hsingle l hl
    exact (htext.unique htext' ▸ hl).scan_eq
  · obtain rfl : texts' = texts.map String.ofList :=
      List.right_unique_forall₂' (R := fun (l : Lexeme K) text => Slice formula l.span text)
        (fun _ _ _ => Slice.unique) htexts' (hpieces.imp fun _ _ => And.left)
    obtain ⟨again, htiles, htokens⟩ := tiles_intercalate (List.forall₂_map_left_iff.mpr
      (htexts.imp fun _ _ => And.right)) 0
    refine ⟨again, ?_, htokens⟩
    rw [scan, String.toList_intercalate, List.map_map]
    simpa [Function.comp_def] using htiles.scanFrom_eq

/-- **The lexer tiles a formula.** If it has tokens, their spans are texts of the formula, none of
them empty, one behind the other with white space only outside them, and each is that token alone
as well as in a row with blanks; otherwise the formula has tokens up to a character that begins
none or up to a longest number that cannot be read, and the error says where. -/
theorem scan_tiles (formula : String) :
    match scan (K := K) formula with
    | .ok lexemes => Tiled formula lexemes
    | .error e => Halts K formula e := by
  have hspec := scanFrom_spec (K := K) 0 formula.toList
  rw [scan]
  cases hscan : scanFrom (K := K) 0 formula.toList with
  | ok lexemes =>
    rw [hscan] at hspec
    exact hspec.tiled
  | error e =>
    rw [hscan] at hspec
    obtain ⟨before, lexemes, c, w, rest, heq, htiles, hskip, hfirst, ht, rfl⟩ := hspec
    refine ⟨String.ofList before, String.ofList (c :: w), String.ofList rest, ?_,
      ⟨lexemes, ?_⟩, ?_⟩
    · rw [← String.toList_inj, heq]
      simp
    · rw [scan, String.toList_ofList]
      exact htiles.scanFrom_eq
    · rw [String.toList_ofList, String.toList_ofList, ← String.ofList_append, ← byteCount_eq,
        ← byteCount_eq, byteCount_append, Nat.zero_add]
      exact blames_rejected hskip hfirst ht

end Formulas

end DensityKernel.Formula
