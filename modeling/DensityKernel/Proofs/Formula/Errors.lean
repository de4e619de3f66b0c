import DensityKernel.Formula.Parser
import DensityKernel.Proofs.Outcome

/-!
What can be wrong with a formula: its tokens, their order, or that it ends too
early. The parser names the token at hand and its place (`Blames`), or says that
the input has ended. None of that is the fault of a definition.
-/

namespace DensityKernel

variable {K : Type}

/-- None of the errors of a run is one of a request or a definition. -/
abbrev FaultsInFormula {α : Type} : Except Error α → Prop :=
  Raises (·.isConfiguration = false)

theorem Lexeme.isConfiguration_rejected (text : List Char) (span : Span) :
    (rejected text span).isConfiguration = false := by
  rw [rejected]
  split_ifs <;> rfl

theorem Lexeme.faults_scanFrom [Spelling K] (position : Nat) (cs : List Char) :
    FaultsInFormula (scanFrom (K := K) position cs) := by
  fun_induction scanFrom (K := K) position cs with
  | case1 => exact .ok []
  | case2 position c rest hskip ih => exact ih
  | case3 => exact .raise (isConfiguration_rejected _ _)
  | case4 position c rest hskip text stop token htoken ih => exact .bind ih fun _ => .ok _

namespace ParseState

/-- The error names a token, with its text and its place. -/
def Blames [Spelling K] (lexeme : Lexeme K) (error : Error) : Prop :=
  error = .invalidToken lexeme.token.text (some lexeme.span) ∨
    ∃ expected, error = .unexpectedToken expected lexeme.token.text (some lexeme.span)

/-- The error says that the input has ended, and has no place. -/
def BlamesEnd (error : Error) : Prop :=
  error = .unexpectedEnd ∨ ∃ expected, error = .unexpectedToken expected "end of input" none

variable {error : Error}

theorem BlamesEnd.span?_eq_none (h : BlamesEnd error) : error.span? = none := by
  obtain rfl | ⟨_, rfl⟩ := h <;> rfl

theorem BlamesEnd.isConfiguration (h : BlamesEnd error) : error.isConfiguration = false := by
  obtain rfl | ⟨_, rfl⟩ := h <;> rfl

variable (e : Expr K) (frames : List (Frame K)) (lexeme : Lexeme K) (state : ParseState K)

section Tokens

variable [Spelling K]

theorem Blames.span?_eq_some {lexeme : Lexeme K} (h : Blames lexeme error) :
    error.span? = some lexeme.span := by
  obtain rfl | ⟨_, rfl⟩ := h <;> rfl

theorem Blames.isConfiguration {lexeme : Lexeme K} (h : Blames lexeme error) :
    error.isConfiguration = false := by
  obtain rfl | ⟨_, rfl⟩ := h <;> rfl

theorem blames_takeOperand : Raises (Blames lexeme) (takeOperand frames lexeme) := by
  unfold takeOperand
  split <;> first | exact .ok _ | exact .raise (.inl rfl)

variable [Literal K]

theorem blames_takeOperator : Raises (Blames lexeme) (takeOperator e frames lexeme) := by
  unfold takeOperator
  split
  · exact .ok _
  · split <;> first | exact .ok _ | exact .raise (.inr ⟨_, rfl⟩)
  · split <;> first | exact .ok _ | exact .raise (.inr ⟨_, rfl⟩)
  · exact .raise (.inr ⟨_, rfl⟩)

/-- A token that cannot be taken is the one that is named. -/
theorem blames_step : Raises (Blames lexeme) (state.step lexeme) := by
  unfold step
  split
  · exact blames_takeOperand _ _
  · split
    · exact .ok _
    · exact blames_takeOperand _ _
  · split
    · exact .ok _
    · exact blames_takeOperator _ _ _
  · exact blames_takeOperator _ _ _

end Tokens

variable [Literal K]

theorem blamesEnd_finishOperand : Raises BlamesEnd (finishOperand e frames) := by
  unfold finishOperand
  split
  · exact .ok _
  · exact .raise (.inr ⟨_, rfl⟩)

theorem blamesEnd_finish : Raises BlamesEnd state.finish := by
  unfold finish
  split
  · exact .raise (.inl rfl)
  · exact .raise (.inl rfl)
  · exact blamesEnd_finishOperand _ _
  · exact blamesEnd_finishOperand _ _

end ParseState

/-- **The errors of a formula** are those of its text, never those of a request or a definition. -/
theorem Expr.faults_parse [Literal K] [Spelling K] (formula : String) :
    FaultsInFormula (parse (K := K) formula) := by
  unfold parse
  split_ifs
  · exact .raise rfl
  · refine .bind (Lexeme.faults_scanFrom 0 _) fun lexemes => ?_
    refine .bind (.foldlM (fun state lexeme => ?_) _ _) fun state => ?_
    · exact (state.blames_step lexeme).imp fun _ h => h.isConfiguration
    · exact state.blamesEnd_finish.imp fun _ h => h.isConfiguration

end DensityKernel
