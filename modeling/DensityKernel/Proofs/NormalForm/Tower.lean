import DensityKernel.Proofs.NormalForm.Idempotence

/-!
Trees that need any number of passes. A pass takes only the last factor out of the square of a
product, so the square of `a * b * ... * z` takes a pass for each factor but one. The tree
`(s + a * b * ... * z - a^2 * b^2 * ... * z^2)^2` is the square of a sum until `s`, an earlier
square, is multiplied out. Then `s` cancels against the subtracted product, and what is left is the
square of a product. So the squares of a tower are multiplied out one after the other, from the
inside, and a tower of twenty squares over fifty-two letters is one pass too high for the limit.
-/

namespace DensityKernel.NormalForm

open DensityKernel.Expr

/-! ### Squares of products -/

/-- A symbol of one letter. -/
def letter (c : Char) : Expr Double :=
  .sym (String.singleton c)

def squared (e : Expr Double) : Expr Double :=
  .pow e (.num Literal.two)

/-- The product of some letters. -/
def letters (cs : List Char) : Expr Double :=
  buildProduct Literal.one (cs.map letter)

/-- The product of the squares of some letters. -/
def squares (cs : List Char) : Expr Double :=
  buildProduct Literal.one (cs.map fun c => squared (letter c))

/-- The square of the product of some letters, from which others have been taken out. -/
def partly (cs ds : List Char) : Expr Double :=
  buildProduct Literal.one (squared (letters cs) :: ds.map fun c => squared (letter c))

/-- The square of a product that comes out when another square has been multiplied out. -/
def storey (cs : List Char) (e : Expr Double) : Expr Double :=
  squared (.sub (.add e (letters cs)) (squares cs))

/-- Squares over each other. -/
def tower (cs : List Char) : Nat → Expr Double
  | 0 => squared (letters cs)
  | n + 1 => storey cs (tower cs n)

/-! ### Texts -/

/-- The text begins with some characters. -/
def Begins (e : Expr Double) (start : List Char) : Prop :=
  ∃ rest, e.text.toList = start ++ rest

variable {d e u v : Expr Double} {start : List Char} {a b c : Char}

theorem append_lt_append (hlt : a < b) (start rest rest' : List Char) :
    start ++ [a] ++ rest < start ++ [b] ++ rest' := by
  induction start with
  | nil => exact List.cons_lt_cons_iff.mpr (.inl hlt)
  | cons s start ih => exact List.cons_lt_cons_iff.mpr (.inr ⟨rfl, ih⟩)

/-- Texts are compared at the first character in which they differ. -/
theorem text_lt_of_begins (start : List Char) (hd : Begins d (start ++ [a]))
    (he : Begins e (start ++ [b])) (hlt : a < b) : d.text < e.text := by
  obtain ⟨rest, hrest⟩ := hd
  obtain ⟨rest', hrest'⟩ := he
  rw [String.lt_iff_toList_lt, hrest, hrest']
  exact append_lt_append hlt start rest rest'

theorem le_and_ne_of_text_lt (h : d.text < e.text) : d.text ≤ e.text ∧ d ≠ e :=
  ⟨h.le, fun heq => h.ne (congrArg Expr.text heq)⟩

theorem Begins.of_append (start : List Char) (h : Begins e (start ++ [a])) : Begins e start := by
  obtain ⟨rest, hrest⟩ := h
  exact ⟨a :: rest, by rw [hrest, List.append_assoc, List.singleton_append]⟩

theorem begins_mul (hliteral : u.literal? = none) (hsum : u.isSum = false) (h : Begins u start) :
    Begins (.mul u v) start := by
  obtain ⟨rest, hrest⟩ := h
  have htext : (Expr.mul u v).text = u.text ++ " * " ++ enclosed v.isSum v.text := by
    cases u with
    | num => cases hliteral
    | sym | call | binary => simp [text, hsum, enclosed]
  refine ⟨rest ++ (" * " ++ enclosed v.isSum v.text).toList, ?_⟩
  rw [htext, String.append_assoc, String.toList_append, hrest, List.append_assoc]

/-- A product begins as its first factors do. -/
theorem begins_foldl (hliteral : u.literal? = none) (hsum : u.isSum = false) (h : Begins u start)
    (fs : List (Expr Double)) : Begins (fs.foldl .mul u) start := by
  induction fs generalizing u with
  | nil => exact h
  | cons f fs ih => exact ih rfl rfl (begins_mul hliteral hsum h)

/-- The square of a product begins with a parenthesis. -/
theorem begins_squared (h : e.isBare = false) : Begins (squared e) ['('] := by
  refine ⟨(e.text ++ ")" ++ "^" ++ (Expr.num Literal.two : Expr Double).text).toList, ?_⟩
  have hbare : (Expr.num Literal.two : Expr Double).isBareExponent = true := by decide
  simp [squared, text, enclosed, h, hbare]

theorem begins_letter (c : Char) : Begins (letter c) [c] :=
  ⟨[], by simp [letter, text]⟩

theorem letter_lt_letter (hlt : a < b) : (letter a).text < (letter b).text :=
  text_lt_of_begins [] (begins_letter a) (begins_letter b) hlt

theorem begins_squared_letter (c : Char) : Begins (squared (letter c)) [c, '^'] := by
  refine ⟨(Expr.num Literal.two : Expr Double).text.toList, ?_⟩
  have hbare : (Expr.num Literal.two : Expr Double).isBareExponent = true := by decide
  simp [squared, letter, text, enclosed, isBare, hbare]

/-! ### Products of letters -/

section Products

variable {cs ds p : List Char} {x y : Char} {fs : List (Expr Double)} {f : Expr Double}

theorem buildProduct_cons (f : Expr Double) (fs : List (Expr Double)) :
    buildProduct Literal.one (f :: fs) = fs.foldl .mul f := by
  rw [buildProduct, if_pos Neutral.isOne_one]

theorem letters_concat (hp : p ≠ []) (x : Char) :
    letters (p ++ [x]) = .mul (letters p) (letter x) := by
  rw [letters, List.map_append, List.map_singleton,
    buildProduct_concat (List.map_eq_nil_iff.not.mpr hp), letters]

theorem partly_concat (cs ds : List Char) (y : Char) :
    partly cs (ds ++ [y]) = .mul (partly cs ds) (squared (letter y)) := by
  rw [partly, List.map_append, List.map_singleton, ← List.cons_append,
    buildProduct_concat (List.cons_ne_nil _ _), partly]

theorem partly_nil (cs : List Char) : partly cs [] = squared (letters cs) := by
  rw [partly, List.map_nil, buildProduct_cons, List.foldl_nil]

theorem letters_begins (c : Char) (cs : List Char) : Begins (letters (c :: cs)) [c] := by
  rw [letters, List.map_cons, buildProduct_cons]
  exact begins_foldl rfl rfl (begins_letter c) _

theorem tidyFactor_letter (c : Char) : TidyFactor (letter c) :=
  ⟨rfl, rfl, if_pos Neutral.isOne_one, Neutral.isZero_one⟩

theorem isOne_two : Literal.isOne (Literal.two : Double) = false := by decide

theorem isZero_two : Literal.isZero (Literal.two : Double) = false := by decide

theorem tidyFactor_squared (e : Expr Double) : TidyFactor (squared e) :=
  ⟨rfl, rfl, if_neg (Bool.eq_false_iff.mp isOne_two), isZero_two⟩

theorem tidyFactors_letters (h : cs.Pairwise (· < ·)) : TidyFactors (cs.map letter) where
  each f hf := by
    obtain ⟨c, -, rfl⟩ := List.mem_map.mp hf
    exact tidyFactor_letter c
  ordered := List.pairwise_map.mpr (h.imp fun hlt =>
    le_and_ne_of_text_lt (letter_lt_letter hlt))

theorem tidyFactors_partly (hcs : cs ≠ []) (h : (cs ++ ds).Pairwise (· < ·)) :
    TidyFactors (squared (letters cs) :: ds.map fun c => squared (letter c)) := by
  obtain ⟨c, cs, rfl⟩ := List.exists_cons_of_ne_nil hcs
  obtain ⟨-, hds, hcross⟩ := List.pairwise_append.mp h
  constructor
  · refine List.forall_mem_cons.mpr ⟨tidyFactor_squared _, fun f hf => ?_⟩
    obtain ⟨d, -, rfl⟩ := List.mem_map.mp hf
    exact tidyFactor_squared _
  · refine List.pairwise_cons.mpr ⟨fun f hf => ?_, List.pairwise_map.mpr (hds.imp fun hlt =>
      le_and_ne_of_text_lt (letter_lt_letter hlt))⟩
    obtain ⟨d, hd, rfl⟩ := List.mem_map.mp hf
    exact le_and_ne_of_text_lt (text_lt_of_begins [] (letters_begins c cs)
      (begins_letter d) (hcross c List.mem_cons_self d hd))

end Products

/-! ### Passes over squares -/

section Passes

variable {cs ds p : List Char} {x y : Char}

theorem applyRules_squared (h : e.literal? = none) :
    applyRules (rules .densities .pow) (squared e) = raised .densities (squared e) := by
  have hfold : foldLiterals (squared e) = none := by
    rcases foldLiterals_cases .pow e (.num Literal.two) with hnone | ⟨x, y, rfl, -⟩
    · exact hnone
    · cases h
  have hone : e.isOne = false := (not_neutral h).2
  have hone' : (Expr.num Literal.two : Expr Double).isOne = false := isOne_two
  have hzero : (Expr.num Literal.two : Expr Double).isZero = false := isZero_two
  rw [squared, applyRules_pow, ← squared, hfold, hone, hone', hzero]
  rfl

theorem pass_letter (c : Char) : pass .densities (letter c) = letter c := rfl

theorem pass_squared_letter (c : Char) :
    pass .densities (squared (letter c)) = squared (letter c) :=
  applyRules_squared (e := letter c) rfl

theorem pass_letters (hcs : cs ≠ []) (h : cs.Pairwise (· < ·)) :
    pass .densities (letters cs) = letters cs := by
  refine pass_buildProduct (tidyFactors_letters h) (List.map_eq_nil_iff.not.mpr hcs)
    Neutral.isZero_one fun f hf => ?_
  obtain ⟨c, -, rfl⟩ := List.mem_map.mp hf
  exact pass_letter c

/-- The square of a product is the product of squares, at its last factor. -/
theorem raised_squared_mul (u v : Expr Double) :
    raised .densities (squared (.mul u v)) = .mul (squared u) (squared v) := by
  have hwhole : Literal.isWhole (Literal.two : Double) = true := by decide
  show (powerOfProduct (squared (.mul u v))).getD (squared (.mul u v)) = _
  rw [squared, powerOfProduct, hwhole]
  rfl

/-- **A pass takes one factor out of a square.** -/
theorem pass_partly (hp : p ≠ []) (h : (p ++ x :: ds).Pairwise (· < ·)) :
    pass .densities (partly (p ++ [x]) ds) = partly p (x :: ds) := by
  induction ds using List.reverseRecOn with
  | nil =>
    have hletters := pass_letters (List.append_ne_nil_of_right_ne_nil p (List.cons_ne_nil x [])) h
    have hpass : pass .densities (squared (letters (p ++ [x]))) =
        applyRules (rules .densities .pow) (squared (pass .densities (letters (p ++ [x])))) := rfl
    rw [partly_nil, hpass, hletters, letters_concat hp, applyRules_squared rfl, raised_squared_mul,
      ← partly_nil]
    exact (partly_concat p [] x).symm
  | append_singleton ds y ih =>
    have hfront : (p ++ x :: ds).Pairwise (· < ·) :=
      h.sublist ((List.sublist_append_left _ [y]).trans (by simp))
    have htidy := tidyFactors_partly hp h
    have hpass : pass .densities (partly (p ++ [x]) (ds ++ [y])) =
        applyRules (rules .densities .mul)
          (.mul (pass .densities (partly (p ++ [x]) ds))
            (pass .densities (squared (letter y)))) := by
      rw [partly_concat]
      rfl
    rw [hpass, ih hfront, pass_squared_letter,
      applyRules_mul_of_factors htidy Neutral.isZero_one ?_ ?_ rfl]
    · rfl
    · rw [← partly_concat]
      exact factors_buildProduct (List.cons_ne_nil _ _) htidy.alone
    · intro z hz
      have hliteral := literal?_buildProduct (c := (Literal.one : Double)) (List.cons_ne_nil _ _)
        (tidyFactors_partly hp hfront).nonLiteral
      rw [← partly, hz] at hliteral
      cases hliteral

end Passes

/-! ### Squares that wait for others -/

section Storeys

/-- Letters in the order of characters, all of them after the parenthesis. -/
structure Alphabet (cs : List Char) : Prop where
  sorted : cs.Pairwise (· < ·)
  after : ∀ c ∈ cs, '(' < c

/-- A term that comes before products of letters. -/
structure Waiting (e : Expr Double) : Prop where
  terms : terms Literal.one e = [⟨Literal.one, some e⟩]
  begins : Begins e ['(']

variable {cs ds p : List Char} {x : Char} {f : Expr Double} {fs : List (Expr Double)}

theorem terms_product (htidy : TidyFactors (f :: fs)) (hf : f.isSum = false) (sign : Double) :
    terms sign (buildProduct Literal.one (f :: fs)) =
      [⟨sign, some (buildProduct Literal.one (f :: fs))⟩] := by
  have hsum : (buildProduct Literal.one (f :: fs)).isSum = false := by
    rw [buildProduct_cons]
    cases fs using List.reverseRecOn with
    | nil => exact hf
    | append_singleton fs g => rw [List.foldl_append]; rfl
  rw [terms_of_factors htidy (List.cons_ne_nil f fs)
    (factors_buildProduct (List.cons_ne_nil f fs) htidy.alone) hsum, if_pos Neutral.isOne_one]

theorem waiting_squared (h : e.isBare = false) : Waiting (squared e) :=
  ⟨rfl, begins_squared h⟩

theorem waiting_partly (hcs : 2 ≤ cs.length) (h : (cs ++ ds).Pairwise (· < ·)) :
    Waiting (partly cs ds) := by
  have hne : cs ≠ [] := List.ne_nil_of_length_pos (by omega)
  refine ⟨terms_product (tidyFactors_partly hne h) rfl _, ?_⟩
  rw [partly, buildProduct_cons]
  refine begins_foldl rfl rfl (begins_squared ?_) _
  obtain ⟨c, d, cs, rfl⟩ : ∃ c d cs', cs = c :: d :: cs' := by
    match cs, hcs with
    | c :: d :: cs, _ => exact ⟨c, d, cs, rfl⟩
  rw [letters, List.map_cons, List.map_cons, buildProduct_cons, List.foldl_cons]
  cases cs using List.reverseRecOn with
  | nil => rfl
  | append_singleton cs c => rw [List.map_append, List.foldl_append]; rfl

theorem literal?_letters (hne : cs ≠ []) (h : cs.Pairwise (· < ·)) :
    (letters cs).literal? = none :=
  literal?_buildProduct (List.map_eq_nil_iff.not.mpr hne) (tidyFactors_letters h).nonLiteral

theorem terms_letters (hne : cs ≠ []) (h : cs.Pairwise (· < ·)) (sign : Double) :
    terms sign (letters cs) = [⟨sign, some (letters cs)⟩] := by
  obtain ⟨c, cs, rfl⟩ := List.exists_cons_of_ne_nil hne
  exact terms_product (tidyFactors_letters h) rfl sign

theorem squares_eq_partly (c : Char) (cs : List Char) : squares (c :: cs) = partly [c] cs := by
  rw [squares, partly, List.map_cons, letters, List.map_singleton, buildProduct_cons,
    buildProduct_cons, buildProduct_cons, List.foldl_nil]

theorem literal?_squares (hne : cs ≠ []) (h : cs.Pairwise (· < ·)) :
    (squares cs).literal? = none := by
  obtain ⟨c, cs, rfl⟩ := List.exists_cons_of_ne_nil hne
  rw [squares_eq_partly]
  exact literal?_buildProduct (List.cons_ne_nil _ _)
    (tidyFactors_partly (List.cons_ne_nil c []) h).nonLiteral

theorem terms_squares (hne : cs ≠ []) (h : cs.Pairwise (· < ·)) (sign : Double) :
    terms sign (squares cs) = [⟨sign, some (squares cs)⟩] := by
  obtain ⟨c, cs, rfl⟩ := List.exists_cons_of_ne_nil hne
  rw [squares_eq_partly]
  exact terms_product (tidyFactors_partly (List.cons_ne_nil c []) h) rfl sign

theorem pass_squares (hne : cs ≠ []) (h : cs.Pairwise (· < ·)) :
    pass .densities (squares cs) = squares cs := by
  obtain ⟨c, cs, rfl⟩ := List.exists_cons_of_ne_nil hne
  have htidy := tidyFactors_partly (List.cons_ne_nil c []) h
  refine pass_buildProduct ?_ (List.cons_ne_nil _ _) Neutral.isZero_one fun f hf => ?_
  · exact htidy
  · obtain ⟨d, -, rfl⟩ := List.mem_map.mp hf
    exact pass_squared_letter d

/-- The product of two letters or more comes before the product of their squares. -/
theorem letters_before_squares (hcs : 2 ≤ cs.length) :
    (letters cs).text < (squares cs).text := by
  match cs, hcs with
  | c :: d :: cs, _ =>
    refine text_lt_of_begins [c] (a := ' ') (b := '^') ?_ ?_ (by decide)
    · rw [letters, List.map_cons, List.map_cons, buildProduct_cons, List.foldl_cons]
      refine begins_foldl rfl rfl ⟨"* ".toList ++ [d], ?_⟩ _
      simp [letter, text, enclosed, isSum]
    · rw [squares, List.map_cons, buildProduct_cons]
      exact begins_foldl rfl rfl (begins_squared_letter c) _

theorem Waiting.before_letters (h : Waiting e) (hcs : Alphabet cs) (hne : cs ≠ []) :
    e.text < (letters cs).text := by
  obtain ⟨c, cs, rfl⟩ := List.exists_cons_of_ne_nil hne
  exact text_lt_of_begins [] h.begins (letters_begins c cs)
    (hcs.after c List.mem_cons_self)

theorem Waiting.before_squares (h : Waiting e) (hcs : Alphabet cs) (hne : cs ≠ []) :
    e.text < (squares cs).text := by
  obtain ⟨c, cs, rfl⟩ := List.exists_cons_of_ne_nil hne
  refine text_lt_of_begins [] h.begins (?_ : Begins _ [c])
    (hcs.after c List.mem_cons_self)
  rw [squares, List.map_cons, buildProduct_cons]
  exact begins_foldl rfl rfl (.of_append [c] (begins_squared_letter c)) _

theorem one_kept :
    Literal.cancels (Literal.one : Double) (Literal.magnitude Literal.one) = false := by
  decide

theorem neg_one_kept :
    Literal.cancels (-Literal.one : Double) (Literal.magnitude (-Literal.one)) = false := by
  decide

theorem toExpr_one (r : Expr Double) : (⟨Literal.one, some r⟩ : Term Double).toExpr = r :=
  if_pos Neutral.isOne_one

theorem appendTerm_one (sum r : Expr Double) :
    appendTerm sum ⟨Literal.one, some r⟩ = .add sum r := by
  have hsign : Literal.isNegative (Literal.one : Double) = false := by decide
  rw [appendTerm, hsign, toExpr_one]
  rfl

theorem appendTerm_neg_one (sum r : Expr Double) :
    appendTerm sum ⟨-Literal.one, some r⟩ = .sub sum r := by
  have hsign : Literal.isNegative (-Literal.one : Double) = true := by decide
  rw [appendTerm, hsign, if_pos rfl, Neutral.neg_neg, toExpr_one]

/-- Terms without constant, with a coefficient of one or minus one. -/
theorem orderedTerms_of_rests (ts : List (Double × Expr Double))
    (hunits : ∀ t ∈ ts, t.1 = Literal.one ∨ t.1 = -Literal.one)
    (h : ts.Pairwise fun t t' => t.2.text < t'.2.text) :
    OrderedTerms (ts.map fun t => (⟨t.1, some t.2⟩ : Term Double)) := by
  refine ⟨?_, ?_, List.pairwise_map.mpr (h.imp fun {t t'} hlt => ⟨t'.2, rfl, ?_⟩)⟩
  · intro t ht hnone
    obtain ⟨t, -, rfl⟩ := List.mem_map.mp ht
    cases hnone
  · intro t ht _
    obtain ⟨unit, hunit, rfl⟩ := List.mem_map.mp ht
    rcases hunits unit hunit with hone | hone <;> dsimp only <;> rw [hone]
    · exact one_kept
    · exact neg_one_kept
  · rintro r ⟨⟩
    exact le_and_ne_of_text_lt hlt

theorem pass_storey_eq (hcs : Alphabet cs) (hne : cs ≠ []) (e : Expr Double) :
    pass .densities (storey cs e) =
      applyRules (rules .densities .pow) (squared (applyRules (rules .densities .sub)
        (.sub (applyRules (rules .densities .add) (.add (pass .densities e) (letters cs)))
          (squares cs)))) := by
  show applyRules (rules .densities .pow) (squared (applyRules (rules .densities .sub)
    (.sub (applyRules (rules .densities .add)
      (.add (pass .densities e) (pass .densities (letters cs))))
      (pass .densities (squares cs))))) = _
  rw [pass_letters hne hcs.sorted, pass_squares hne hcs.sorted]

/-- **A square over a square that is not multiplied out waits.** -/
theorem pass_storey_of_waiting (he : Waiting (pass .densities e)) (hcs : Alphabet cs)
    (htwo : 2 ≤ cs.length) : pass .densities (storey cs e) = storey cs (pass .densities e) := by
  have hne : cs ≠ [] := List.ne_nil_of_length_pos (by omega)
  rw [pass_storey_eq hcs hne]
  generalize pass .densities e = e at he
  have hletters := he.before_letters hcs hne
  have hsquares := he.before_squares hcs hne
  have hterms : terms Literal.one (.add e (letters cs)) =
      [⟨Literal.one, some e⟩, ⟨Literal.one, some (letters cs)⟩] := by
    rw [terms, he.terms, terms_letters hne hcs.sorted]
    rfl
  have hzero : e.isZero = false := by
    cases e with
    | num => cases congrArg (List.map Term.rest) he.terms
    | sym | call | binary => rfl
  have hadd : applyRules (rules .densities .add) (.add e (letters cs)) = .add e (letters cs) := by
    have hordered := orderedTerms_of_rests [(Literal.one, e), (Literal.one, letters cs)] (by simp)
      (List.pairwise_pair.mpr hletters)
    rw [applyRules_sum (.inl rfl) hzero (literal?_letters hne hcs.sorted)
      (le_and_ne_of_text_lt hletters).2,
      orderedSum_of_terms hordered (List.cons_ne_nil _ _) hterms]
    show appendTerm (Term.toExpr ⟨_, some e⟩) ⟨_, some (letters cs)⟩ = _
    rw [toExpr_one, appendTerm_one]
  have hsub : applyRules (rules .densities .sub) (.sub (.add e (letters cs)) (squares cs)) =
      .sub (.add e (letters cs)) (squares cs) := by
    have hordered := orderedTerms_of_rests
      [(Literal.one, e), (Literal.one, letters cs), (-Literal.one, squares cs)] (by simp)
      (.cons (List.forall_mem_cons.mpr ⟨hletters, List.forall_mem_singleton.mpr hsquares⟩)
        (List.pairwise_pair.mpr (letters_before_squares htwo)))
    rw [applyRules_sum (.inr rfl) rfl (literal?_squares hne hcs.sorted) ?_,
      orderedSum_of_terms hordered (List.cons_ne_nil _ _) ?_]
    · show appendTerm (appendTerm (Term.toExpr ⟨_, some e⟩) ⟨_, some (letters cs)⟩)
        ⟨_, some (squares cs)⟩ = _
      rw [toExpr_one, appendTerm_one, appendTerm_neg_one]
    · rw [terms, hterms, terms_squares hne hcs.sorted]
      rfl
    · intro heq
      rw [heq, terms_squares hne hcs.sorted] at hterms
      cases congrArg List.length hterms
  rw [hadd, hsub, applyRules_squared rfl]
  rfl

/-- A sum without constants is put together from the groups of its terms. -/
theorem orderedSum_of_groups {groups : List (LikeTerms Double)}
    (hrests : ∀ t ∈ terms Literal.one e, t.rest ≠ none)
    (hgroups : (gatherTerms (terms Literal.one e)).filter
      (fun g => !Literal.cancels g.sum g.scale) = groups) :
    orderedSum e = buildSum (sortByText (groups.map fun g => (g.text, g.term))) := by
  have hconstants : constants (terms Literal.one e) = [] := by
    rw [constants, constantPart, foldl_constant_of_rests hrests, if_pos Neutral.isZero_zero]
  rw [orderedSum_eq_buildSum, sortedTerms, hconstants, hgroups, List.nil_append]

/-- A product that comes after another one changes places with it. -/
theorem applyRules_add_of_lt (hu : ∀ sign, terms sign u = [⟨sign, some u⟩])
    (hv : ∀ sign, terms sign v = [⟨sign, some v⟩]) (hlt : u.text < v.text)
    (huliteral : u.literal? = none) (hvzero : v.isZero = false) :
    applyRules (rules .densities .add) (.add v u) = .add u v := by
  have hne : u ≠ v := (le_and_ne_of_text_lt hlt).2
  have hterms : terms Literal.one (.add v u) =
      [⟨Literal.one, some v⟩, ⟨Literal.one, some u⟩] := by
    rw [terms, hu, hv]
    rfl
  have hgroups : (gatherTerms (terms Literal.one (.add v u))).filter
      (fun g => !Literal.cancels g.sum g.scale) =
        [⟨v, v.text, Literal.one, Literal.magnitude Literal.one⟩,
          ⟨u, u.text, Literal.one, Literal.magnitude Literal.one⟩] := by
    rw [hterms]
    simp [gatherTerms, addTerm, hne.symm, one_kept]
  have hsorted : sortByText [(v.text, (⟨Literal.one, some v⟩ : Term Double)),
      (u.text, ⟨Literal.one, some u⟩)] = [⟨Literal.one, some u⟩, ⟨Literal.one, some v⟩] := by
    have hle : ¬v.text ≤ u.text := not_le.mpr hlt
    simp [sortByText, List.mergeSort, hle]
  rw [applyRules_sum (.inl rfl) hvzero huliteral hne.symm, orderedSum_of_groups ?_ hgroups]
  · show buildSum (sortByText [(v.text, (⟨Literal.one, some v⟩ : Term Double)),
      (u.text, ⟨Literal.one, some u⟩)]) = _
    rw [hsorted]
    show appendTerm (Term.toExpr ⟨_, some u⟩) ⟨_, some v⟩ = _
    rw [toExpr_one, appendTerm_one]
  · simp [hterms]

/-- A product that is added and subtracted is dropped. -/
theorem applyRules_sub_of_cancel (hu : ∀ sign, terms sign u = [⟨sign, some u⟩])
    (hv : ∀ sign, terms sign v = [⟨sign, some v⟩]) (hne : u ≠ v) (hvliteral : v.literal? = none) :
    applyRules (rules .densities .sub) (.sub (.add u v) v) = u := by
  have hterms : terms Literal.one (.sub (.add u v) v) =
      [⟨Literal.one, some u⟩, ⟨Literal.one, some v⟩, ⟨-Literal.one, some v⟩] := by
    rw [terms, terms, hu, hv, hv]
    rfl
  have hcancels : Literal.cancels (Literal.one + -Literal.one : Double)
      (Literal.max (Literal.magnitude Literal.one) (Literal.magnitude (-Literal.one))) = true := by
    decide
  have hgroups : (gatherTerms (terms Literal.one (.sub (.add u v) v))).filter
      (fun g => !Literal.cancels g.sum g.scale) =
        [⟨u, u.text, Literal.one, Literal.magnitude Literal.one⟩] := by
    rw [hterms]
    simp [gatherTerms, addTerm, hne, one_kept, hcancels]
  have hdiffer : (.add u v : Expr Double) ≠ v := by
    intro heq
    have hterms' := hv Literal.one
    rw [← heq, terms, hu, hv] at hterms'
    cases congrArg List.length hterms'
  rw [applyRules_sum (.inr rfl) rfl hvliteral hdiffer, orderedSum_of_groups ?_ hgroups]
  · show buildSum (sortByText [(u.text, (⟨Literal.one, some u⟩ : Term Double))]) = _
    rw [sortByText_of_pairwise (List.pairwise_singleton _ _)]
    exact toExpr_one u
  · simp [hterms]

/-- **A square over one that is multiplied out is multiplied out next.** -/
theorem pass_storey_of_squares (he : pass .densities e = squares (p ++ [x])) (hp : p ≠ [])
    (hcs : Alphabet (p ++ [x])) :
    pass .densities (storey (p ++ [x]) e) = partly p [x] := by
  have hne : p ++ [x] ≠ [] := List.append_ne_nil_of_right_ne_nil p (List.cons_ne_nil x [])
  have hbefore : (letters (p ++ [x])).text < (squares (p ++ [x])).text := by
    have := List.length_pos_iff.mpr hp
    exact letters_before_squares (by simp; omega)
  have hletters := terms_letters hne hcs.sorted
  have hsquares := terms_squares hne hcs.sorted
  have hliteral := literal?_squares hne hcs.sorted
  have hzero : (squares (p ++ [x])).isZero = false := (not_neutral hliteral).1
  rw [pass_storey_eq hcs hne, he,
    applyRules_add_of_lt hletters hsquares hbefore (literal?_letters hne hcs.sorted) hzero,
    applyRules_sub_of_cancel hletters hsquares (le_and_ne_of_text_lt hbefore).2 hliteral,
    letters_concat hp, applyRules_squared rfl, raised_squared_mul, ← partly_nil]
  exact (partly_concat p [] x).symm

end Storeys

/-! ### The number of passes -/

section Counting

/-- The tree is the product of squares after some passes, and not before. -/
inductive Takes (cs : List Char) : Nat → Expr Double → Prop
  | done : Takes cs 0 (squares cs)
  | pass {n : Nat} {e : Expr Double} (waiting : Waiting e) (rest : Takes cs n (pass .densities e)) :
    Takes cs (n + 1) e

variable {cs ds q : List Char} {a x : Char} {n k : Nat}

theorem Takes.iterate_eq (h : Takes cs n e) : (NormalForm.pass .densities)^[n] e = squares cs := by
  induction h with
  | done => rfl
  | pass _ _ ih => exact ih

/-- The last pass changes the tree. -/
theorem Takes.changed (h : Takes cs (n + 1) e) (hcs : Alphabet cs) (hne : cs ≠ []) :
    (NormalForm.pass .densities)^[n + 1] e ≠ (NormalForm.pass .densities)^[n] e := by
  rw [h.iterate_eq]
  induction n generalizing e with
  | zero =>
    cases h with
    | pass hwaiting _ =>
      exact (le_and_ne_of_text_lt (hwaiting.before_squares hcs hne)).2.symm
  | succ n ih =>
    cases h with
    | pass _ hrest => exact ih hrest

/-- The square of a product takes a pass for each factor but one. -/
theorem takes_partly (h : (a :: q ++ ds).Pairwise (· < ·)) :
    Takes (a :: q ++ ds) q.length (partly (a :: q) ds) := by
  induction q using List.reverseRecOn generalizing ds with
  | nil => exact squares_eq_partly a ds ▸ .done
  | append_singleton q x ih =>
    have hne : a :: q ≠ [] := List.cons_ne_nil a q
    have hsplit : a :: (q ++ [x]) ++ ds = a :: q ++ x :: ds := by simp
    rw [List.length_append, List.length_singleton]
    refine .pass (waiting_partly (by simp) h) ?_
    rw [hsplit] at h ⊢
    rw [← List.cons_append, pass_partly hne h]
    exact ih h

/-- **Every storey waits for the one below** and takes as many passes more as it has factors but
two. -/
theorem Takes.storey (h : Takes cs (n + 1) e) (hcs : Alphabet cs) (hlength : cs.length = k + 2) :
    Takes cs (n + 1 + k) (storey cs e) := by
  induction n generalizing e with
  | zero =>
    cases h with
    | pass _ hrest =>
      obtain ⟨a, rest, rfl⟩ := List.exists_cons_of_length_eq_add_one hlength
      obtain rfl | ⟨q, x, rfl⟩ := List.eq_nil_or_concat' rest
      · simp at hlength
      have hq : q.length = k := by simpa using hlength
      have hsquares : NormalForm.pass .densities e = squares (a :: q ++ [x]) := hrest.iterate_eq
      rw [Nat.zero_add, Nat.add_comm]
      refine .pass (waiting_squared rfl) ?_
      rw [← List.cons_append, pass_storey_of_squares hsquares (List.cons_ne_nil a q) hcs, ← hq]
      exact takes_partly hcs.sorted
  | succ n ih =>
    cases h with
    | pass _ hrest =>
      cases hrest with
      | pass hwaiting hrest' =>
        rw [Nat.add_right_comm]
        refine .pass (waiting_squared rfl) ?_
        rw [pass_storey_of_waiting hwaiting hcs (by omega)]
        exact ih (.pass hwaiting hrest')

theorem takes_tower (hcs : Alphabet cs) (hlength : cs.length = k + 2) (n : Nat) :
    Takes cs ((n + 1) * k + 1) (tower cs n) := by
  induction n with
  | zero =>
    obtain ⟨a, q, rfl⟩ := List.exists_cons_of_length_eq_add_one hlength
    have hq : q.length = k + 1 := by simpa using hlength
    have htakes : Takes (a :: q ++ []) q.length (partly (a :: q) []) :=
      takes_partly (by simpa using hcs.sorted)
    rw [partly_nil, List.append_nil, hq] at htakes
    rw [Nat.zero_add, Nat.one_mul]
    exact htakes
  | succ n ih =>
    have hstorey := ih.storey hcs hlength
    rwa [Nat.add_right_comm, ← Nat.succ_mul] at hstorey

/-- **A tower is simplified to the end exactly if it is not too high.** -/
theorem simplify_tower_iff (hcs : Alphabet cs) (hlength : cs.length = k + 2) (n : Nat) :
    ((tower cs n).simplify .densities).simplify .densities = (tower cs n).simplify .densities ↔
      (n + 1) * k + 1 ≤ passLimit := by
  have hsettles := settles_pass (K := Double) .densities
  have htakes := takes_tower hcs hlength n
  have hne : cs ≠ [] := List.ne_nil_of_length_eq_add_one hlength
  rw [simplify_eq_iterate, simplify_eq_iterate, hsettles.iterate_iterate_eq_iff (by decide)]
  constructor
  · intro hfixed
    by_contra hhigh
    obtain ⟨m, hm⟩ : ∃ m, (n + 1) * k = m + passLimit := ⟨_, (Nat.sub_add_cancel (by omega)).symm⟩
    refine htakes.changed hcs hne ?_
    rw [Function.iterate_succ_apply'] at hfixed ⊢
    rw [hm, Function.iterate_add_apply, Function.iterate_fixed hfixed, hfixed]
  · intro hlow
    obtain ⟨m, hm⟩ := Nat.exists_eq_add_of_le' hlow
    have hfixed := pass_squares hne hcs.sorted
    rw [Function.iterate_succ_apply', hm, Function.iterate_add_apply, htakes.iterate_eq,
      Function.iterate_fixed hfixed, hfixed]

/-- Fifty-two letters. -/
def alphabet : List Char :=
  (List.range' 65 26 ++ List.range' 97 26).map Char.ofNat

theorem alphabet_alphabet : Alphabet alphabet := by
  have hpairwise : ('(' :: alphabet).Pairwise (· < ·) := by decide +kernel
  obtain ⟨hafter, hsorted⟩ := List.pairwise_cons.mp hpairwise
  exact ⟨hsorted, hafter⟩

end Counting

end DensityKernel.NormalForm
