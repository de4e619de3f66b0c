import DensityKernel.Literal.Double
import DensityKernel.Proofs.Formula.Errors
import DensityKernel.Proofs.Formula.Parser

/-!
Where the parser stops. Whatever it has taken can be completed to a sentence of
the grammar (`Reached.completable`): an operand is supplied where one is missing,
and the parentheses that are open are closed. So the token that is named in an
error is the first one with which the input is not the beginning of any sentence,
and an error at the end of the input is about a sentence that was cut short
(`Expr.ofLexemes_blames_first`).
-/

namespace DensityKernel

variable {K : Type}

/-- The tokens of a whole formula. -/
def Sentence (ts : List (Token K)) : Prop :=
  ∃ p, Derives .sum ts p

/-- The tokens are the beginning of a sentence. -/
def Completable (ts : List (Token K)) : Prop :=
  ∃ rest, Sentence (ts ++ rest)

theorem Completable.of_append {ts us : List (Token K)} (h : Completable (ts ++ us)) :
    Completable ts := by
  obtain ⟨rest, hrest⟩ := h
  exact ⟨us ++ rest, by rwa [← List.append_assoc]⟩

/-! ### What was taken can be completed -/

section Reached

variable [Literal K] {ts us : List (Token K)} {frames : List (Frame K)} {r : Rank} {p : Phrase K}

/-- Once an operand is there, the frames around it can be closed from the inside to the outside. -/
theorem Opened.completable (h : Opened ts frames) (hp : Derives r us p)
    (hopening : Frame.outer frames ≤ r.opening) : Completable (ts ++ us) := by
  induction h generalizing r us p with
  | start => exact ⟨[], p, by simpa using hp.toSum⟩
  | operand op hopened hq houter ih =>
    have hjoined := ih (.binary op hq (hp.rightOperand hopening))
      (Nat.le_trans houter op.binding_le_opening)
    simpa using hjoined
  | @sign ts frames op negative hopened hop ih =>
    have hsigned := ih (.sign hop (hp.toUnary_of_opening hopening)) (Frame.outer_le_four frames)
    simpa using hsigned
  | @group ts frames hopened ih =>
    have hgroup := ih (.group hp.toSum) (Frame.outer_le_four frames)
    have hclosed : Completable ((ts ++ [.leftParen] ++ us) ++ [.rightParen]) := by
      simpa using hgroup
    exact hclosed.of_append
  | @call ts vs frames done s hopened hlisted ih =>
    obtain ⟨qs, hqs, -⟩ := hlisted.arguments hp.toSum
    have hcall := ih (.call s hqs) (Frame.outer_le_four frames)
    have hclosed : Completable ((ts ++ .name s :: .leftParen :: vs ++ us) ++ [.rightParen]) := by
      simpa using hcall
    exact hclosed.of_append

theorem Opened.completable_atom (h : Opened ts frames) (hp : Derives .atom us p) :
    Completable (ts ++ us) :=
  h.completable hp (Frame.outer_le_four frames)

/-- **What the parser has taken is the beginning of a sentence.** -/
theorem Reached.completable {state : ParseState K} (h : Reached ts state) : Completable ts := by
  cases h with
  | operand hopened => exact (hopened.completable_atom (.name "x")).of_append
  | @argument ts frames s hopened =>
    have hclosed : Completable ((ts ++ [.name s, .leftParen]) ++ [.rightParen]) := by
      simpa using hopened.completable_atom (.call s .none)
    exact hclosed.of_append
  | afterName s hopened => exact hopened.completable_atom (.name s)
  | operator hopened hp => exact hopened.completable_atom hp

end Reached

/-! ### What could be completed is taken -/

section Run

variable [Literal K] [Spelling K] {lexemes : List (Lexeme K)} {state : ParseState K}
  {lexeme : Lexeme K} {error : Error}

/-- A sentence is read, and so is every beginning of one. -/
theorem Completable.exists_run (h : Completable (lexemes.map Lexeme.token)) :
    ∃ state, lexemes.foldlM ParseState.step ParseState.start = .ok state := by
  obtain ⟨rest, p, hp⟩ := h
  -- The tokens that complete the input may stand anywhere.
  let added : List (Lexeme K) := rest.map (⟨·, default⟩)
  have htokens : (lexemes ++ added).map Lexeme.token = lexemes.map Lexeme.token ++ rest := by
    simp [added, Function.comp_def]
  have hread : Expr.ofLexemes (lexemes ++ added) = .ok p.expr :=
    Expr.ofLexemes_of_derives (htokens ▸ hp)
  obtain ⟨final, hrun, -⟩ := bind_eq_ok_iff.mp hread
  rw [List.foldlM_append] at hrun
  obtain ⟨state, hfront, -⟩ := bind_eq_ok_iff.mp hrun
  exact ⟨state, hfront⟩

/-- No sentence goes on with a token that the parser cannot take. -/
theorem ParseState.not_completable_of_step
    (hrun : lexemes.foldlM ParseState.step ParseState.start = .ok state)
    (hstep : state.step lexeme = .error error) :
    ¬Completable ((lexemes ++ [lexeme]).map Lexeme.token) := by
  intro h
  obtain ⟨state', hrun'⟩ := h.exists_run
  rw [List.foldlM_append, hrun] at hrun'
  have hstep' : [lexeme].foldlM ParseState.step state = .ok state' := hrun'
  rw [List.foldlM_cons, hstep] at hstep'
  cases hstep'

/-- **The parser blames the first token that cannot be right.** An error with a place names the
first token with which the input is not the beginning of a sentence any more. One without a place
says that the input has ended, and the input is a proper beginning of some sentence. -/
theorem Expr.ofLexemes_blames_first (h : ofLexemes lexemes = .error error) :
    (∀ span, error.span? = some span → ∃ front lexeme rest,
      lexemes = front ++ lexeme :: rest ∧ lexeme.span = span ∧ ParseState.Blames lexeme error ∧
      Completable (front.map Lexeme.token) ∧
      ¬Completable ((front ++ [lexeme]).map Lexeme.token)) ∧
    (error.span? = none → ParseState.BlamesEnd error ∧
      ∃ rest, rest ≠ [] ∧ Sentence (lexemes.map Lexeme.token ++ rest)) := by
  rcases bind_eq_error_iff.mp h with hfails | ⟨state, hrun, hfinish⟩
  · obtain ⟨front, lexeme, rest, state, rfl, hrun, hstep⟩ := foldlM_eq_error_iff.mp hfails
    have hblames := state.blames_step lexeme error hstep
    have hreached : Reached (front.map Lexeme.token) state := (Reached.operand .start).run hrun
    constructor
    · intro span hspan
      refine ⟨front, lexeme, rest, rfl, ?_, hblames, hreached.completable,
        ParseState.not_completable_of_step hrun hstep⟩
      exact Option.some.inj (hblames.span?_eq_some.symm.trans hspan)
    · intro hnone
      cases hblames.span?_eq_some.symm.trans hnone
  · have hblames := state.blamesEnd_finish error hfinish
    constructor
    · intro span hspan
      cases hblames.span?_eq_none.symm.trans hspan
    · intro _
      have hreached : Reached (lexemes.map Lexeme.token) state :=
        (Reached.operand .start).run hrun
      obtain ⟨rest, hrest⟩ := hreached.completable
      refine ⟨hblames, rest, ?_, hrest⟩
      rintro rfl
      obtain ⟨p, hp⟩ := hrest
      cases h.symm.trans (ofLexemes_of_derives (by simpa using hp))

/-- In `(a b` the second name is the first token that cannot be right. -/
theorem Expr.ofLexemes_blames_juxtaposed :
    let lexemes : List (Lexeme Double) :=
      [⟨.leftParen, ⟨0, 1⟩⟩, ⟨.name "a", ⟨1, 2⟩⟩, ⟨.name "b", ⟨3, 4⟩⟩]
    let error := Error.unexpectedToken ")" "b" (some ⟨3, 4⟩)
    ofLexemes lexemes = .error error ∧ ∃ front lexeme rest,
      lexemes = front ++ lexeme :: rest ∧ lexeme.span = ⟨3, 4⟩ ∧
      ParseState.Blames lexeme error ∧ Completable (front.map Lexeme.token) ∧
      ¬Completable ((front ++ [lexeme]).map Lexeme.token) := by
  intro lexemes error
  have herror : ofLexemes lexemes = .error error := rfl
  exact ⟨herror, (ofLexemes_blames_first herror).1 ⟨3, 4⟩ rfl⟩

end Run

end DensityKernel
