import DensityKernel.Proofs.Expr.Symbols
import DensityKernel.Proofs.Formula.Parser
import DensityKernel.Proofs.Formula.Token

/-!
The symbols of a formula that was read. Each is the text of a name token, and
the text of a name token is an identifier.
-/

namespace DensityKernel

variable {K : Type}

/-! ### Names among the tokens -/

namespace Token

variable [Spelling K] {c : Char} {rest text : List Char} {s : String}

/-- Only a text that starts as a name spells a name, which is the text itself. -/
theorem ofText?_eq_name (h : ofText? text = some (.name s : Token K)) :
    (text.head?.map startsName).getD false = true ∧ s = String.ofList text := by
  unfold ofText? at h
  split at h <;> try cases h
  split_ifs at h with hnumber hname
  · obtain ⟨x, -, hx⟩ := Option.map_eq_some_iff.mp h
    cases hx
  · cases h
    exact ⟨hname, rfl⟩

/-- The first text of a formula is an identifier if it spells a name. -/
theorem isIdentifier_of_firstText (h : ofText? (firstText c rest) = some (.name s : Token K)) :
    isIdentifier s = true := by
  obtain ⟨hstart, rfl⟩ := ofText?_eq_name h
  unfold firstText at hstart ⊢
  split_ifs at hstart ⊢ with hnumber hname hstars
  · rw [numberText, List.takeWhile_cons_of_pos hnumber] at hstart
    have hdigit := Formula.startsNumber_of_startsName (c := c) (by simpa using hstart)
    exact absurd (hnumber.symm.trans hdigit) (by decide)
  · rw [isIdentifier, String.toList_ofList]
    exact Bool.and_eq_true_iff.mpr ⟨hname, List.all_takeWhile⟩
  · exact absurd hstart (by decide)
  · exact absurd hstart (by simp [hname])

end Token

namespace Lexeme

variable [Spelling K] {s : String}

theorem isIdentifier_of_scanFrom {position : Nat} {cs : List Char} {lexemes : List (Lexeme K)}
    (h : scanFrom position cs = .ok lexemes) (hs : .name s ∈ lexemes.map Lexeme.token) :
    isIdentifier s = true := by
  fun_induction scanFrom (K := K) position cs generalizing lexemes with
  | case1 =>
    cases h
    simp at hs
  | case2 position c rest hskip ih => exact ih h hs
  | case3 => cases h
  | case4 =>
    rename_i htoken ih
    obtain ⟨others, hothers, h⟩ := bind_eq_ok_iff.mp h
    cases h
    rcases List.mem_cons.mp hs with heq | hs
    · exact Token.isIdentifier_of_firstText (htoken.trans (congrArg some heq.symm))
    · exact ih hothers hs

end Lexeme

/-! ### Names in the expression -/

section Names

variable [Literal K] {P : String → Prop}

theorem Expr.Over.sign {p : Phrase K} (h : p.expr.Over P) (negative : Bool) :
    (Phrase.sign negative p).expr.Over P := by
  rw [Phrase.expr_sign]
  cases negative with
  | false => exact h
  | true =>
    rw [Frame.fill, Frame.negated.eq_def]
    split
    · exact over_num _
    · exact over_negate.mpr h

/-- All names among some tokens are of some kind. -/
def NamesAre (P : String → Prop) (ts : List (Token K)) : Prop :=
  ∀ s, .name s ∈ ts → P s

/-- The symbols of some phrases are names among their tokens. -/
def NamesCover (P : String → Prop) (ts : List (Token K)) (ps : List (Phrase K)) : Prop :=
  NamesAre P ts → ∀ p ∈ ps, p.expr.Over P

/-- The symbols of a phrase are names among its tokens. -/
theorem Derives.over {r : Rank} {ts : List (Token K)} {p : Phrase K} (h : Derives r ts p) :
    NamesAre P ts → p.expr.Over P := by
  induction h using Derives.rec (motive_2 := fun ts ps _ => NamesCover (K := K) P ts ps) with
  | product _ ih | unary _ ih | power _ ih | atom _ ih => exact ih
  | term _ _ _ ihp ihq | factor _ _ _ ihp ihq | raised _ _ ihp ihq =>
    intro hts
    exact Expr.over_binary.mpr
      ⟨ihp fun s hs => hts s (by simp [hs]), ihq fun s hs => hts s (by simp [hs])⟩
  | plus _ ih | minus _ ih =>
    intro hts
    exact (ih fun s hs => hts s (by simp [hs])).sign _
  | number x => exact fun _ => Expr.over_num x
  | name s => exact fun hts => Expr.over_sym.mpr (hts s (by simp))
  | call s _ ih =>
    intro hts
    rw [Phrase.expr, Expr.over_call, Phrase.exprs_eq_map]
    intro a ha
    obtain ⟨p, hp, rfl⟩ := List.mem_map.mp ha
    exact ih (fun s hs => hts s (by simp [hs])) p hp
  | group _ ih => exact fun hts => ih fun s hs => hts s (by simp [hs])
  | none => exact fun _ => List.forall_mem_nil _
  | last _ ih => exact fun hts => List.forall_mem_singleton.mpr (ih hts)
  | comma _ _ ih ihrest =>
    intro hts
    exact List.forall_mem_cons.mpr
      ⟨ih fun s hs => hts s (by simp [hs]), ihrest fun s hs => hts s (by simp [hs])⟩

end Names

/-- **The symbols of a formula are identifiers.** -/
theorem Expr.over_of_parse [Literal K] [Spelling K] {formula : String} {e : Expr K}
    (h : parse formula = .ok e) : e.Over (isIdentifier · = true) := by
  unfold parse at h
  split_ifs at h
  obtain ⟨lexemes, hscan, h⟩ := bind_eq_ok_iff.mp h
  obtain ⟨p, hp, rfl⟩ := exists_derives_of_ofLexemes h
  exact hp.over fun s hs => Lexeme.isIdentifier_of_scanFrom hscan hs

/-- An identifier is a formula. -/
theorem Expr.parse_identifier [Literal K] [Spelling K] {s : String} (h : isIdentifier s = true) :
    parse s = .ok (.sym s : Expr K) := by
  have hspells : Formula.Spells s.toList [.name s] := Formula.spells_name (K := K) h
  obtain ⟨lexemes, hscan, htokens⟩ := hspells.scan_eq
  have hphrase : Derives .sum (lexemes.map Lexeme.token) (.name s) :=
    htokens ▸ (Derives.name s).toSum
  rw [parse, hspells.not_allBlank, if_neg Bool.false_ne_true, hscan]
  exact ofLexemes_of_derives hphrase

end DensityKernel
