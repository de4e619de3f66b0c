import DensityKernel.Formula.Parser
import DensityKernel.Proofs.Formula.Grammar
import DensityKernel.Proofs.Outcome

/-!
The parser and the grammar. A phrase of a level may begin inside of the frames
that its loosest operator does not close (`Rank.opening`), and once it is read
the operators up to `Rank.limit` find the frames closed as if its expression
had been one token. In this sense the parser reads every phrase (`ParseState.reads_of_derives`).

Conversely the frames of a run say what has been read: `Opened` takes them back
to the tokens. Closing frames joins the phrases between them (`Opened.close`),
so a run that ends without frames has read a sum.
-/

namespace DensityKernel

/-! ### Closing frames -/

namespace Frame

variable {K : Type}

/-- The loosest operator that the innermost frame lets extend an operand. -/
def outer : List (Frame K) → Nat
  | [] => 0
  | f :: _ => f.binding

theorem outer_le_four (frames : List (Frame K)) : outer frames ≤ 4 := by
  match frames with
  | [] => exact Nat.zero_le 4
  | .operand _ op :: _ =>
    cases op <;> simp [outer, binding, Operator.rightBinding, Operator.binding]
  | .sign _ :: _ | .group :: _ | .call .. :: _ => simp [outer, binding]

section Close

variable [Literal K] {b : Nat} {e : Expr K} {f : Frame K} {frames : List (Frame K)}

theorem close_of_outer_le (h : outer frames ≤ b) : close b e frames = (e, frames) := by
  cases frames with
  | nil => rfl
  | cons f frames => rw [close, if_neg (Nat.not_lt.mpr (show f.binding ≤ b from h))]

theorem close_cons (h : b < f.binding) : close b e (f :: frames) = close b (f.fill e) frames := by
  rw [close, if_pos h]

end Close

end Frame

/-- The tightest innermost frame in which a phrase of the level may begin. -/
def Rank.opening : Rank → Nat
  | .sum => 1
  | .product => 2
  | .unary | .power | .atom => 4

/-- The tightest operator that takes a whole phrase of the level as its left operand. -/
def Rank.limit : Rank → Nat
  | .sum => 1
  | .product | .unary | .power => 2
  | .atom => 4

/-- The level of the left operands of an operator. -/
def Operator.leftRank : Operator → Rank
  | .add | .sub => .sum
  | .mul | .div => .product
  | .pow => .atom

/-- The level of the right operands of an operator. -/
def Operator.rightRank : Operator → Rank
  | .add | .sub => .product
  | .mul | .div | .pow => .unary

/-- The level of the phrases that an operator makes. -/
def Operator.rank : Operator → Rank
  | .add | .sub => .sum
  | .mul | .div => .product
  | .pow => .power

theorem Phrase.expr_sign {K : Type} [Literal K] (negative : Bool) (p : Phrase K) :
    (Phrase.sign negative p).expr = (Frame.sign negative).fill p.expr := by
  cases negative with
  | false => rw [Phrase.expr, Frame.fill]
  | true => rw [Phrase.expr.eq_def, Frame.fill, Frame.negated.eq_def]; rfl

namespace ParseState

variable {K : Type} [Literal K] [Spelling K]
variable {state state' state'' : ParseState K} {ts us : List (Token K)} {t : Token K}
  {e : Expr K} {frames : List (Frame K)}

/-! ### Runs -/

/-- The tokens lead from one state to the other, wherever they stand. -/
def Runs (state : ParseState K) (ts : List (Token K)) (state' : ParseState K) : Prop :=
  ∀ lexemes : List (Lexeme K), lexemes.map Lexeme.token = ts →
    lexemes.foldlM step state = .ok state'

theorem Runs.nil : Runs state [] state := by
  intro lexemes h
  rw [List.map_eq_nil_iff.mp h]
  rfl

theorem Runs.append (h : Runs state ts state') (h' : Runs state' us state'') :
    Runs state (ts ++ us) state'' := by
  intro lexemes heq
  obtain ⟨front, rest, rfl, hfront, hrest⟩ := List.map_eq_append_iff.mp heq
  rw [List.foldlM_append]
  exact bind_eq_ok_iff.mpr ⟨state', h front hfront, h' rest hrest⟩

theorem Runs.cons (h : ∀ lexeme : Lexeme K, lexeme.token = t → state.step lexeme = .ok state')
    (h' : Runs state' us state'') : Runs state (t :: us) state'' := by
  intro lexemes heq
  obtain ⟨lexeme, rest, rfl, ht, hrest⟩ := List.map_eq_cons_iff.mp heq
  rw [List.foldlM_cons]
  exact bind_eq_ok_iff.mpr ⟨state', h lexeme ht, h' rest hrest⟩

theorem Runs.one (h : ∀ lexeme : Lexeme K, lexeme.token = t → state.step lexeme = .ok state') :
    Runs state [t] state' :=
  .cons h .nil

/-- An operand is complete. -/
inductive Holds : ParseState K → Expr K → List (Frame K) → Prop
  | operator (e : Expr K) (frames : List (Frame K)) : Holds ⟨.operator e, frames⟩ e frames
  | name (s : String) (frames : List (Frame K)) : Holds ⟨.afterName s, frames⟩ (.sym s) frames

omit [Spelling K] in
theorem Holds.finish (h : Holds state e frames) : state.finish = finishOperand e frames := by
  cases h <;> rfl

theorem Holds.step (h : Holds state e frames) {lexeme : Lexeme K}
    (hparen : lexeme.token ≠ .leftParen) : state.step lexeme = takeOperator e frames lexeme := by
  cases h with
  | operator => rfl
  | name => simp only [ParseState.step]

/-- An operator takes what the frames that it closes make of the operand. -/
theorem Holds.runs_operator {op : Operator} {e' : Expr K} {frames' : List (Frame K)}
    (h : Holds state e frames) (hclose : Frame.close op.binding e frames = (e', frames')) :
    Runs state [.operator op] ⟨.operand, .operand e' op :: frames'⟩ := by
  refine .one fun lexeme ht => ?_
  rw [h.step (by simp [ht]), takeOperator, ht]
  simp only [hclose]

theorem Holds.runs_rightParen_group {e' : Expr K} {frames' : List (Frame K)}
    (h : Holds state e frames) (hclose : Frame.close 0 e frames = (e', .group :: frames')) :
    Runs state [.rightParen] ⟨.operator e', frames'⟩ := by
  refine .one fun lexeme ht => ?_
  rw [h.step (by simp [ht]), takeOperator, ht]
  simp only [hclose]

theorem Holds.runs_rightParen_call {e' : Expr K} {s : String} {done : List (Expr K)}
    {frames' : List (Frame K)} (h : Holds state e frames)
    (hclose : Frame.close 0 e frames = (e', .call s done :: frames')) :
    Runs state [.rightParen] ⟨.operator (.call s (e' :: done).reverse), frames'⟩ := by
  refine .one fun lexeme ht => ?_
  rw [h.step (by simp [ht]), takeOperator, ht]
  simp only [hclose]

theorem Holds.runs_comma {e' : Expr K} {s : String} {done : List (Expr K)}
    {frames' : List (Frame K)} (h : Holds state e frames)
    (hclose : Frame.close 0 e frames = (e', .call s done :: frames')) :
    Runs state [.comma] ⟨.operand, .call s (e' :: done) :: frames'⟩ := by
  refine .one fun lexeme ht => ?_
  rw [h.step (by simp [ht]), takeOperator, ht]
  simp only [hclose]

/-- Where an argument begins it does not matter whether it is the first. -/
theorem Runs.firstArgument {s : String} (hparen : t ≠ .rightParen)
    (h : Runs ⟨.operand, .call s [] :: frames⟩ (t :: us) state) :
    Runs ⟨.argument s, frames⟩ (t :: us) state := by
  intro lexemes heq
  have hrun := h lexemes heq
  obtain ⟨lexeme, rest, rfl, ht, -⟩ := List.map_eq_cons_iff.mp heq
  rw [List.foldlM_cons] at hrun ⊢
  have hstep : step ⟨.argument s, frames⟩ lexeme = step ⟨.operand, .call s [] :: frames⟩ lexeme := by
    simp only [step]
    split
    · exact absurd (ht.symm.trans ‹_›) hparen
    · rfl
  rw [hstep, hrun]

/-! ### Every phrase is read -/

/-- Inside of any frames in which the level may begin, the tokens lead to a complete operand
that closes frames as the expression does. -/
def Reads (r : Rank) (ts : List (Token K)) (e : Expr K) : Prop :=
  ∀ frames : List (Frame K), Frame.outer frames ≤ r.opening → ∃ state e' frames',
    Runs ⟨.operand, frames⟩ ts state ∧ Holds state e' frames' ∧
      ∀ b ≤ r.limit, Frame.close b e' frames' = Frame.close b e frames

/-- Inside of the frame of a call, the tokens lead to its last argument. -/
def ReadsArguments (ts : List (Token K)) (es : List (Expr K)) : Prop :=
  ∀ (s : String) (done : List (Expr K)) (frames : List (Frame K)), ∃ state e frames' e' done',
    Runs ⟨.operand, .call s done :: frames⟩ ts state ∧ Holds state e frames' ∧
      Frame.close 0 e frames' = (e', .call s done' :: frames) ∧
      (e' :: done').reverse = done.reverse ++ es

theorem Reads.weaken {r r' : Rank} (h : Reads r ts e) (hopening : r'.opening ≤ r.opening)
    (hlimit : r'.limit ≤ r.limit) : Reads r' ts e := by
  intro frames hframes
  obtain ⟨state, e', frames', hrun, hholds, hclose⟩ := h frames (Nat.le_trans hframes hopening)
  exact ⟨state, e', frames', hrun, hholds, fun b hb => hclose b (Nat.le_trans hb hlimit)⟩

theorem Reads.binary {as bs : List (Token K)} {u v : Expr K} (op : Operator)
    (hu : Reads op.leftRank as u) (hv : Reads op.rightRank bs v) :
    Reads op.rank (as ++ .operator op :: bs) (.binary op u v) := by
  intro frames hframes
  obtain ⟨state, u', frames₁, hrun, hholds, hclose⟩ :=
    hu frames (Nat.le_trans hframes (by cases op <;> decide))
  have hop : Frame.close op.binding u' frames₁ = (u, frames) := by
    rw [hclose _ (by cases op <;> decide)]
    exact Frame.close_of_outer_le (Nat.le_trans hframes (by cases op <;> decide))
  obtain ⟨state', v', frames₂, hrun', hholds', hclose'⟩ :=
    hv (.operand u op :: frames) (by cases op <;> simp [Frame.outer, Frame.binding,
      Operator.rightBinding, Operator.binding, Operator.rightRank, Rank.opening])
  refine ⟨state', v', frames₂, ?_, hholds', fun b hb => ?_⟩
  · exact hrun.append ((hholds.runs_operator hop).append hrun')
  · have hlimit : b ≤ op.rightRank.limit := Nat.le_trans hb (by cases op <;> decide)
    have hbinding : b < op.rightBinding := Nat.lt_of_le_of_lt hb (by cases op <;> decide)
    rw [hclose' b hlimit, Frame.close_cons hbinding]
    rfl

theorem Reads.sign {op : Operator} {negative : Bool} (hop : op.IsSign negative)
    (h : Reads .unary ts e) :
    Reads .unary (.operator op :: ts) ((Frame.sign negative).fill e) := by
  intro frames hframes
  obtain ⟨state, e', frames', hrun, hholds, hclose⟩ := h (.sign negative :: frames) (by
    simp [Frame.outer, Frame.binding, Rank.opening])
  refine ⟨state, e', frames', .cons (fun lexeme ht => ?_) hrun, hholds, fun b hb => ?_⟩
  · rcases hop with ⟨rfl, rfl⟩ | ⟨rfl, rfl⟩ <;> simp only [step, takeOperand, ht]
  · rw [hclose b hb, Frame.close_cons (show b < 3 from Nat.lt_succ_of_le hb)]

theorem reads_number (x : K) : Reads .atom [.number x] (.num x) := by
  intro frames _
  refine ⟨⟨.operator (.num x), frames⟩, _, _, .one fun lexeme ht => ?_, .operator _ _,
    fun b _ => rfl⟩
  simp only [step, takeOperand, ht]

theorem runs_name (s : String) (frames : List (Frame K)) :
    Runs ⟨.operand, frames⟩ [.name s] ⟨.afterName s, frames⟩ := by
  refine .one fun lexeme ht => ?_
  simp only [step, takeOperand, ht]

theorem reads_name (s : String) : Reads (K := K) .atom [.name s] (.sym s) :=
  fun frames _ => ⟨_, _, _, runs_name s frames, .name s frames, fun _ _ => rfl⟩

theorem runs_call (s : String) (frames : List (Frame K)) :
    Runs ⟨.operand, frames⟩ [.name s, .leftParen] ⟨.argument s, frames⟩ := by
  refine (runs_name s frames).append (.one fun lexeme ht => ?_)
  simp only [step, ht]

theorem reads_call_none (s : String) :
    Reads (K := K) .atom [.name s, .leftParen, .rightParen] (.call s []) := by
  intro frames _
  refine ⟨⟨.operator (.call s []), frames⟩, _, _, (runs_call s frames).append
    (.one fun lexeme ht => ?_), .operator _ _, fun _ _ => rfl⟩
  simp only [step, ht]

theorem Reads.call {s : String} {es : List (Expr K)} (hparen : t ≠ .rightParen)
    (h : ReadsArguments (t :: us) es) :
    Reads .atom (.name s :: .leftParen :: (t :: us ++ [.rightParen])) (.call s es) := by
  intro frames _
  obtain ⟨state, e, frames', e', done, hrun, hholds, hclose, hargs⟩ := h s [] frames
  refine ⟨⟨.operator (.call s es), frames⟩, _, _, ?_, .operator _ _, fun _ _ => rfl⟩
  rw [List.reverse_nil, List.nil_append] at hargs
  exact (runs_call s frames).append
    ((Runs.firstArgument hparen hrun).append (hargs ▸ hholds.runs_rightParen_call hclose))

theorem Reads.group (h : Reads .sum ts e) :
    Reads .atom (.leftParen :: (ts ++ [.rightParen])) e := by
  intro frames _
  obtain ⟨state, e', frames', hrun, hholds, hclose⟩ := h (.group :: frames) (Nat.zero_le _)
  refine ⟨⟨.operator e, frames⟩, _, _, .cons (fun lexeme ht => ?_)
    (hrun.append (hholds.runs_rightParen_group ?_)), .operator _ _, fun _ _ => rfl⟩
  · simp only [step, takeOperand, ht]
  · rw [hclose 0 (Nat.zero_le _)]
    exact Frame.close_of_outer_le (Nat.le_refl _)

theorem Reads.lastArgument (h : Reads .sum ts e) : ReadsArguments ts [e] := by
  intro s done frames
  obtain ⟨state, e', frames', hrun, hholds, hclose⟩ := h (.call s done :: frames) (Nat.zero_le _)
  refine ⟨state, e', frames', e, done, hrun, hholds, ?_, by simp⟩
  rw [hclose 0 (Nat.zero_le _)]
  exact Frame.close_of_outer_le (Nat.le_refl _)

theorem Reads.comma {es : List (Expr K)} (h : Reads .sum ts e) (hrest : ReadsArguments us es) :
    ReadsArguments (ts ++ .comma :: us) (e :: es) := by
  intro s done frames
  obtain ⟨state, e₀, frames₀, done₀, done₁, hrun, hholds, hclose, hargs⟩ :=
    h.lastArgument s done frames
  obtain ⟨state', e', frames', e'', done', hrun', hholds', hclose', hargs'⟩ :=
    hrest s (done₀ :: done₁) frames
  refine ⟨state', e', frames', e'', done', ?_, hholds', hclose', ?_⟩
  · exact hrun.append ((hholds.runs_comma hclose).append hrun')
  · rw [hargs', hargs, List.append_assoc, List.singleton_append]

theorem reads_of_derives {r : Rank} {p : Phrase K} (h : Derives r ts p) :
    Reads r ts p.expr := by
  induction h using Derives.rec
    (motive_2 := fun (ts : List (Token K)) (ps : List (Phrase K)) _ =>
      ts = [] ∧ ps = [] ∨ ReadsArguments ts (Phrase.exprs ps)) with
  | product _ ih | unary _ ih | power _ ih | atom _ ih => exact ih.weaken (by decide) (by decide)
  | term hop _ _ ihp ihq =>
    rcases hop with rfl | rfl
    · exact Reads.binary .add ihp ihq
    · exact Reads.binary .sub ihp ihq
  | factor hop _ _ ihp ihq =>
    rcases hop with rfl | rfl
    · exact Reads.binary .mul ihp ihq
    · exact Reads.binary .div ihp ihq
  | raised _ _ ihp ihq => exact Reads.binary .pow ihp ihq
  | @plus ts p _ ih => exact Phrase.expr_sign false p ▸ ih.sign (.inl ⟨rfl, rfl⟩)
  | @minus ts p _ ih => exact Phrase.expr_sign true p ▸ ih.sign (.inr ⟨rfl, rfl⟩)
  | number x => exact reads_number x
  | name s => exact reads_name s
  | call s h ih =>
    cases h with
    | none => exact reads_call_none s
    | last hp =>
      obtain ⟨t, us, rfl, hparen, -⟩ := hp.exists_cons
      exact Reads.call hparen (ih.resolve_left (by simp))
    | comma hp _ =>
      obtain ⟨t, us, rfl, hparen, -⟩ := hp.exists_cons
      exact Reads.call hparen (ih.resolve_left (by simp))
  | group _ ih => exact ih.group
  | none => exact .inl ⟨rfl, rfl⟩
  | last _ ih => exact .inr ih.lastArgument
  | comma _ _ ih ihrest => exact .inr (ih.comma (ihrest.resolve_left (by simp)))

end ParseState

/-! ### What a run has read -/

section Operands

variable {K : Type} {us : List (Token K)} {r : Rank} {p : Phrase K}

theorem Derives.toUnary_of_opening (h : 3 ≤ r.opening) (hp : Derives r us p) :
    Derives .unary us p := by
  cases r with
  | sum | product => simp [Rank.opening] at h
  | unary | power | atom => exact hp.toUnary (by simp) (by simp)

/-- A phrase that may stand in the frame of an operator is a right operand. -/
theorem Derives.rightOperand {op : Operator} (h : op.rightBinding ≤ r.opening)
    (hp : Derives r us p) : Derives op.rightRank us p := by
  cases op with
  | add | sub =>
    exact hp.toProduct (by rintro rfl; simp [Operator.rightBinding, Operator.binding,
      Rank.opening] at h)
  | mul | div | pow => exact Derives.toUnary_of_opening (Nat.le_trans (by decide) h) hp

/-- A phrase before an operator is a left operand. -/
theorem Derives.leftOperand {op : Operator} (h : op.binding ≤ r.limit) (hp : Derives r us p) :
    Derives op.leftRank us p := by
  cases op with
  | add | sub => exact hp.toSum
  | mul | div => exact hp.toProduct (by rintro rfl; simp [Operator.binding, Rank.limit] at h)
  | pow => cases r <;> simp [Operator.binding, Rank.limit] at h; exact hp

theorem Derives.binary (op : Operator) {as bs : List (Token K)} {p q : Phrase K}
    (hp : Derives op.leftRank as p) (hq : Derives op.rightRank bs q) :
    Derives op.rank (as ++ .operator op :: bs) (.binary op p q) := by
  cases op with
  | add => exact .term (.inl rfl) hp hq
  | sub => exact .term (.inr rfl) hp hq
  | mul => exact .factor (.inl rfl) hp hq
  | div => exact .factor (.inr rfl) hp hq
  | pow => exact .raised hp hq

end Operands

section Sound

variable {K : Type} [Literal K] {ts us : List (Token K)} {frames : List (Frame K)}
  {done : List (Expr K)} {r : Rank} {p : Phrase K}

/-- The tokens of the arguments that are complete, each with its comma. -/
inductive Listed : List (Token K) → List (Expr K) → Prop
  | nil : Listed [] []
  | snoc {ts us : List (Token K)} {done : List (Expr K)} {p : Phrase K} : Listed ts done →
    Derives .sum us p → Listed (ts ++ (us ++ [.comma])) (p.expr :: done)

/-- The tokens before a place for an operand, and the frames begun there. -/
inductive Opened : List (Token K) → List (Frame K) → Prop
  | start : Opened [] []
  | operand {ts us : List (Token K)} {frames : List (Frame K)} {p : Phrase K} (op : Operator) :
    Opened ts frames → Derives op.leftRank us p → Frame.outer frames ≤ op.binding →
      Opened (ts ++ (us ++ [.operator op])) (.operand p.expr op :: frames)
  | sign {ts : List (Token K)} {frames : List (Frame K)} {op : Operator} {negative : Bool} :
    Opened ts frames → op.IsSign negative →
      Opened (ts ++ [.operator op]) (.sign negative :: frames)
  | group {ts : List (Token K)} {frames : List (Frame K)} : Opened ts frames →
    Opened (ts ++ [.leftParen]) (.group :: frames)
  | call {ts us : List (Token K)} {frames : List (Frame K)} {done : List (Expr K)} (s : String) :
    Opened ts frames → Listed us done →
      Opened (ts ++ (.name s :: .leftParen :: us)) (.call s done :: frames)

theorem Listed.append {ps : List (Phrase K)} (h : Listed ts done) (hne : ps ≠ [])
    (hps : DerivesArguments us ps) :
    ∃ qs, DerivesArguments (ts ++ us) qs ∧ Phrase.exprs qs = done.reverse ++ Phrase.exprs ps := by
  induction h generalizing us ps with
  | nil => exact ⟨ps, hps, rfl⟩
  | @snoc ts vs done p _ hp ih =>
    obtain ⟨q, ps, rfl⟩ := List.exists_cons_of_ne_nil hne
    obtain ⟨qs, hqs, hexprs⟩ := ih (List.cons_ne_nil p (q :: ps)) (.comma hp hps)
    refine ⟨qs, by simpa using hqs, ?_⟩
    rw [hexprs, Phrase.exprs, List.reverse_cons, List.append_assoc, List.singleton_append]

/-- The arguments of a call, when its last one is complete. -/
theorem Listed.arguments (h : Listed ts done) (hp : Derives .sum us p) :
    ∃ qs, DerivesArguments (ts ++ us) qs ∧ Phrase.exprs qs = (p.expr :: done).reverse := by
  obtain ⟨qs, hqs, hexprs⟩ := h.append (List.cons_ne_nil p []) (.last hp)
  exact ⟨qs, hqs, by rw [hexprs, List.reverse_cons]; rfl⟩

/-- The tokens end with a phrase, and an operator of the given binding takes the phrase as its
left operand. -/
inductive Completed (b : Nat) (ts : List (Token K)) : Expr K → List (Frame K) → Prop
  | intro {as bs : List (Token K)} {frames : List (Frame K)} {r : Rank} {p : Phrase K} :
    Opened as frames → Derives r bs p → Frame.outer frames ≤ r.opening → b ≤ r.limit →
      Frame.outer frames ≤ b → ts = as ++ bs → Completed b ts p.expr frames

theorem Operator.binding_le_opening (op : Operator) : op.binding ≤ op.rank.opening := by
  cases op <;> decide

/-- An operator that closes the frame of another may follow what the other makes. -/
theorem Operator.le_limit_of_lt {op : Operator} {b : Nat} (h : b < op.rightBinding) (hb : b ≠ 3) :
    b ≤ op.rank.limit := by
  cases op <;> simp only [rightBinding, binding, rank, Rank.limit] at h ⊢ <;> omega

/-- Closing frames joins the phrase with what was read before it. No operator binds as the
signs do, which stand between products and powers. -/
theorem Opened.close {b : Nat} (hopened : Opened ts frames) (hb : b ≠ 3) (hp : Derives r us p)
    (hopening : Frame.outer frames ≤ r.opening) (hlimit : b ≤ r.limit) :
    Completed b (ts ++ us) (Frame.close b p.expr frames).1 (Frame.close b p.expr frames).2 := by
  induction hopened generalizing r us p with
  | start => exact .intro .start hp hopening hlimit (Nat.zero_le b) rfl
  | @operand ts as frames q op hopened hq houter ih =>
    by_cases hstop : op.rightBinding ≤ b
    · rw [Frame.close_of_outer_le hstop]
      exact .intro (.operand op hopened hq houter) hp hopening hlimit hstop rfl
    · rw [Nat.not_le] at hstop
      have hjoined := ih (.binary op hq (hp.rightOperand hopening))
        (Nat.le_trans houter op.binding_le_opening) (Operator.le_limit_of_lt hstop hb)
      rw [Frame.close_cons hstop]
      simpa [Phrase.expr, Frame.fill] using hjoined
  | @sign ts frames op negative hopened hop ih =>
    by_cases hstop : 3 ≤ b
    · rw [Frame.close_of_outer_le hstop]
      exact .intro (.sign hopened hop) hp hopening hlimit hstop rfl
    · rw [Nat.not_le] at hstop
      have hjoined := ih (.sign hop (hp.toUnary_of_opening hopening)) (Frame.outer_le_four frames)
        (Nat.le_of_lt_succ hstop)
      rw [Frame.close_cons hstop]
      simpa [Phrase.expr_sign] using hjoined
  | group hopened => exact .intro (.group hopened) hp hopening hlimit (Nat.zero_le b) rfl
  | call s hopened hlisted =>
    exact .intro (.call s hopened hlisted) hp hopening hlimit (Nat.zero_le b) rfl

/-- When all frames down to the innermost parenthesis are closed, a sum ends the tokens. -/
theorem Opened.close_zero {e : Expr K} {frames' : List (Frame K)} (hopened : Opened ts frames)
    (hp : Derives .atom us p) (hclose : Frame.close 0 p.expr frames = (e, frames')) :
    ∃ as bs q, Opened as frames' ∧ Derives .sum bs q ∧ q.expr = e ∧ ts ++ us = as ++ bs := by
  have hcompleted := hopened.close (by decide) hp (Frame.outer_le_four frames) (Nat.zero_le _)
  rw [hclose] at hcompleted
  obtain ⟨hopened', hq, -, -, -, heq⟩ := hcompleted
  exact ⟨_, _, _, hopened', hq.toSum, rfl, heq⟩

/-- The tokens that lead to a state. -/
inductive Reached : List (Token K) → ParseState K → Prop
  | operand {ts : List (Token K)} {frames : List (Frame K)} : Opened ts frames →
    Reached ts ⟨.operand, frames⟩
  | argument {ts : List (Token K)} {frames : List (Frame K)} (s : String) : Opened ts frames →
    Reached (ts ++ [.name s, .leftParen]) ⟨.argument s, frames⟩
  | afterName {ts : List (Token K)} {frames : List (Frame K)} (s : String) : Opened ts frames →
    Reached (ts ++ [.name s]) ⟨.afterName s, frames⟩
  | operator {ts us : List (Token K)} {frames : List (Frame K)} {p : Phrase K} :
    Opened ts frames → Derives .atom us p → Reached (ts ++ us) ⟨.operator p.expr, frames⟩

theorem Opened.finishOperand {e : Expr K} (hopened : Opened ts frames) (hp : Derives .atom us p)
    (h : ParseState.finishOperand p.expr frames = .ok e) :
    ∃ q, Derives .sum (ts ++ us) q ∧ q.expr = e := by
  rw [ParseState.finishOperand] at h
  split at h
  · next hclose =>
    cases h
    obtain ⟨as, bs, q, hopened', hq, hexpr, heq⟩ := hopened.close_zero hp hclose
    cases hopened'
    exact ⟨q, heq ▸ hq, hexpr⟩
  · cases h

theorem Reached.finish {e : Expr K} {state : ParseState K} (h : Reached ts state)
    (hfinish : state.finish = .ok e) :
    ∃ p, Derives .sum ts p ∧ p.expr = e := by
  cases h with
  | operand | argument => cases hfinish
  | afterName s hopened => exact hopened.finishOperand (.name s) hfinish
  | operator hopened hp => exact hopened.finishOperand hp hfinish

variable [Spelling K] {lexeme : Lexeme K} {state state' : ParseState K}

theorem Opened.takeOperand (hopened : Opened ts frames)
    (h : ParseState.takeOperand frames lexeme = .ok state) :
    Reached (ts ++ [lexeme.token]) state := by
  rw [ParseState.takeOperand] at h
  split at h <;> cases h <;> rename_i htoken <;> rw [htoken]
  · exact .operator hopened (.number _)
  · exact .afterName _ hopened
  · exact .operand (.group hopened)
  · exact .operand (.sign hopened (.inl ⟨rfl, rfl⟩))
  · exact .operand (.sign hopened (.inr ⟨rfl, rfl⟩))

theorem Opened.takeOperator (hopened : Opened ts frames) (hp : Derives .atom us p)
    (h : ParseState.takeOperator p.expr frames lexeme = .ok state) :
    Reached (ts ++ us ++ [lexeme.token]) state := by
  rw [ParseState.takeOperator] at h
  split at h
  · next op htoken =>
    cases h
    have hcompleted := hopened.close (b := op.binding) (by cases op <;> decide) hp
      (Frame.outer_le_four frames) (by cases op <;> decide)
    generalize Frame.close op.binding p.expr frames = closed at hcompleted
    obtain ⟨e, frames'⟩ := closed
    obtain ⟨hopened', hq, -, hlimit, houter, heq⟩ := hcompleted
    rw [htoken, heq, List.append_assoc]
    exact .operand (.operand op hopened' (hq.leftOperand hlimit) houter)
  · next htoken =>
    rw [htoken]
    split at h
    · next e frames' hclose =>
      cases h
      obtain ⟨as, bs, q, hopened', hq, rfl, heq⟩ := hopened.close_zero hp hclose
      cases hopened' with
      | group hopened' => simpa [heq, Phrase.expr] using Reached.operator hopened' (.group hq)
    · next e s done frames' hclose =>
      cases h
      obtain ⟨as, bs, q, hopened', hq, rfl, heq⟩ := hopened.close_zero hp hclose
      cases hopened' with
      | call _ hopened' hlisted =>
        obtain ⟨qs, hqs, hexprs⟩ := hlisted.arguments hq
        have hreached := Reached.operator hopened' (.call s hqs)
        rw [Phrase.expr, hexprs] at hreached
        simpa [heq] using hreached
    · cases h
  · next htoken =>
    rw [htoken]
    split at h
    · next e s done frames' hclose =>
      cases h
      obtain ⟨as, bs, q, hopened', hq, rfl, heq⟩ := hopened.close_zero hp hclose
      cases hopened' with
      | call _ hopened' hlisted =>
        simpa [heq] using Reached.operand (.call s hopened' (.snoc hlisted hq))
    · cases h
  · cases h

/-- **Step.** -/
theorem Reached.step (h : Reached ts state) (hstep : state.step lexeme = .ok state') :
    Reached (ts ++ [lexeme.token]) state' := by
  cases h with
  | operand hopened => exact hopened.takeOperand hstep
  | @argument ts frames s hopened =>
    simp only [ParseState.step] at hstep
    split at hstep
    · next htoken =>
      cases hstep
      rw [htoken]
      simpa [Phrase.expr, Phrase.exprs] using Reached.operator hopened (.call s .none)
    · exact (Opened.call s hopened .nil).takeOperand hstep
  | @afterName ts frames s hopened =>
    simp only [ParseState.step] at hstep
    split at hstep
    · next htoken =>
      cases hstep
      simpa [htoken] using Reached.argument s hopened
    · exact hopened.takeOperator (.name s) hstep
  | operator hopened hp => exact hopened.takeOperator hp hstep

/-- **Run.** -/
theorem Reached.run {lexemes : List (Lexeme K)} (h : Reached ts state)
    (hrun : lexemes.foldlM ParseState.step state = .ok state') :
    Reached (ts ++ lexemes.map Lexeme.token) state' := by
  induction lexemes generalizing ts state with
  | nil =>
    cases hrun
    simpa using h
  | cons lexeme lexemes ih =>
    rw [List.foldlM_cons, bind_eq_ok_iff] at hrun
    obtain ⟨state₁, hstep, hrun⟩ := hrun
    simpa using ih (h.step hstep) hrun

end Sound

/-! ### The parser reads the grammar -/

namespace Expr

variable {K : Type} [Literal K] [Spelling K] {lexemes : List (Lexeme K)} {e : Expr K}

/-- **Soundness.** -/
theorem exists_derives_of_ofLexemes (h : ofLexemes lexemes = .ok e) :
    ∃ p, Derives .sum (lexemes.map Lexeme.token) p ∧ p.expr = e := by
  obtain ⟨state, hrun, hfinish⟩ := bind_eq_ok_iff.mp h
  exact ((Reached.operand .start).run hrun).finish hfinish

/-- **Completeness.** -/
theorem ofLexemes_of_derives {p : Phrase K} (h : Derives .sum (lexemes.map Lexeme.token) p) :
    ofLexemes lexemes = .ok p.expr := by
  obtain ⟨state, e, frames, hrun, hholds, hclose⟩ :=
    ParseState.reads_of_derives h [] (Nat.zero_le _)
  refine bind_eq_ok_iff.mpr ⟨state, hrun lexemes rfl, ?_⟩
  rw [hholds.finish, ParseState.finishOperand, hclose 0 (Nat.zero_le _)]
  rfl

/-- The parser accepts exactly the sums of the grammar, and what it returns is the
expression of the one phrase that has the tokens. -/
theorem ofLexemes_eq_ok_iff : ofLexemes lexemes = .ok e ↔
    ∃ p, (∀ q, Derives .sum (lexemes.map Lexeme.token) q ↔ q = p) ∧ p.expr = e := by
  constructor
  · intro h
    obtain ⟨p, hp, hexpr⟩ := exists_derives_of_ofLexemes h
    exact ⟨p, fun q => ⟨fun hq => hq.unique hp, fun hq => hq ▸ hp⟩, hexpr⟩
  · rintro ⟨p, hunique, rfl⟩
    exact ofLexemes_of_derives ((hunique p).mpr rfl)

end Expr

end DensityKernel
