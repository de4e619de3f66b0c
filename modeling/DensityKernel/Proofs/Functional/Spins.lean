import DensityKernel.Literal.Double
import DensityKernel.Proofs.Density.Resumption
import DensityKernel.Proofs.Expr.Substitution
import DensityKernel.Proofs.Functional.Foreign
import DensityKernel.Proofs.Functional.Slots

/-!
Functionals with a channel for each spin. The values of a spin's derivatives are
computed from its own expression, at its own density and gradient: they do not
depend on the other expression, on the rest of the point, or on whether the other
channel counts (`Functional.derivativesAt_of_spin`). The indices tell the spins
apart, since no derivative of one is by a variable of the other.
-/

namespace DensityKernel

open Literal

inductive Spin where
  | alpha | beta
deriving DecidableEq, Repr

namespace Spin

def all : List Spin :=
  [alpha, beta]

def density : Spin → Variable
  | alpha => .ra
  | beta => .rb

def gradient : Spin → Variable
  | alpha => .ga
  | beta => .gb

/-- The variables of the channel. -/
def vars : Spin → Bool → VariableList
  | alpha => .alpha
  | beta => .beta

/-- The derivative is by the variables of the spin and by no other. -/
def owns (spin : Spin) (index : MultiIndex) : Bool :=
  Variable.all.all fun v => index.count v == 0 || v == spin.density || v == spin.gradient

/-- The channel with an expression. -/
def channel {K : Type} (spin : Spin) (gradients : Bool) (e : Expr K) : Channel K :=
  ⟨e, spin.vars gradients, some spin.density⟩

variable {spin other : Spin} {gradients : Bool} {v : Variable} {index : MultiIndex}

theorem mem_vars (h : v ∈ (spin.vars gradients).toList) : v = spin.density ∨ v = spin.gradient := by
  revert h
  cases spin <;> cases gradients <;> cases v <;> decide

theorem owns_iff : spin.owns index = true ↔
    ∀ v, 0 < index.count v → v = spin.density ∨ v = spin.gradient := by
  have hall : ∀ v, v ∈ Variable.all := by
    intro v
    cases v <;> decide
  simp only [owns, List.all_eq_true, Bool.or_eq_true, beq_iff_eq, or_assoc, Nat.pos_iff_ne_zero]
  constructor
  · intro h v hv
    exact (h v (hall v)).resolve_left hv
  · intro h v _
    exact or_iff_not_imp_left.mpr (h v)

/-- The variables of one spin are not those of the other. -/
theorem eq_of_mem_vars (hv : v ∈ (spin.vars gradients).toList)
    (hother : v = other.density ∨ v = other.gradient) : spin = other := by
  revert hv hother
  cases spin <;> cases other <;> cases gradients <;> cases v <;> decide

/-- A derivative by variables of a spin is owned by that spin alone. -/
theorem owns_eq_decide (hwithin : index.Within (spin.vars gradients)) (horder : 0 < index.order)
    (other : Spin) : other.owns index = decide (spin = other) := by
  rw [Bool.eq_iff_iff, decide_eq_true_iff, owns_iff]
  constructor
  · intro howns
    obtain ⟨v, hv⟩ := MultiIndex.exists_count_pos horder
    exact eq_of_mem_vars (hwithin v hv) (howns v hv)
  · rintro rfl v hv
    exact mem_vars (hwithin v hv)

end Spin

namespace Functional

variable {K : Type}

/-- The expression of a spin, if it has a channel of its own. -/
def exprOf? (f : Functional K) (spin : Spin) : Option (Expr K) :=
  match f.channels, spin with
  | .coupled _, _ => none
  | .decoupled alpha _, .alpha => some alpha
  | .decoupled _ beta, .beta => some beta

/-- The functionals treat a spin alike. The other expressions need not have anything to do with
each other, nor do the names and texts. -/
structure ShareSpin (spin : Spin) (f g : Functional K) : Prop where
  expr : ∃ e, f.exprOf? spin = some e ∧ g.exprOf? spin = some e
  gradients : f.gradients = g.gradients
  threshold : f.threshold = g.threshold
  differentiator : f.differentiator = g.differentiator

/-- The points have the same density and gradient of a spin. -/
structure ShareValues (spin : Spin) (point point' : DensityPoint K) : Prop where
  density : point.value spin.density = point'.value spin.density
  gradient : point.value spin.gradient = point'.value spin.gradient

theorem isDecoupled_of_exprOf? {f : Functional K} {spin : Spin} {e : Expr K}
    (h : f.exprOf? spin = some e) : f.isDecoupled = true := by
  unfold isDecoupled
  split
  · next hchannels => simp [exprOf?, hchannels] at h
  · rfl

/-- Where the spins have channels of their own there is one for each, alpha first. -/
theorem exists_channelList {f : Functional K} (h : f.isDecoupled = true) :
    ∃ exprs : Spin → Expr K, (∀ s, f.exprOf? s = some (exprs s)) ∧
      f.channelList = .ok (Spin.all.map fun s => s.channel f.gradients (exprs s)) := by
  cases hchannels : f.channels with
  | coupled => simp [isDecoupled, hchannels] at h
  | decoupled alpha beta =>
    refine ⟨fun s => match s with | .alpha => alpha | .beta => beta, fun s => ?_, ?_⟩
    · cases s <;> simp [exprOf?, hchannels]
    · rw [channelList, hchannels]
      rfl

variable [Literal K] [Spelling K] [DecidableEq K] {f g : Functional K} {spin other : Spin}
  {e : Expr K} {order : DerivativeOrder} {point point' : DensityPoint K}
  {values values' : List (MultiIndex × K)}

/-! ### The derivatives of a spin -/

/-- The derivatives of a channel that have values at a point. -/
def channelEntries (f : Functional K) (order : DerivativeOrder) (point : DensityPoint K)
    (c : Channel K) : Layer K :=
  if f.isActive c point then (f.tableOf order c).upTo order else []

theorem entriesAt_map (channels : List (Channel K)) :
    f.entriesAt (channels.map fun c => (c, f.tableOf order c)) order point =
      channels.flatMap (f.channelEntries order point) := by
  induction channels with
  | nil => rfl
  | cons c channels ih =>
    rw [List.flatMap_cons, ← ih, entriesAt, entriesAt, List.map_cons, List.filter_cons,
      channelEntries]
    split_ifs
    · rw [List.flatMap_cons]
    · rw [List.nil_append]

theorem owns_of_mem_channelEntries {entry : MultiIndex × Expr K}
    (h : entry ∈ f.channelEntries order point (spin.channel f.gradients e)) (other : Spin) :
    other.owns entry.1 = decide (spin = other) := by
  rw [channelEntries] at h
  split_ifs at h
  · have hfresh : DerivativeTable.Complete e (spin.vars f.gradients) f.differentiator
        ⟨e, spin.vars f.gradients, f.differentiator, []⟩ := .fresh
    have hcomplete := (hfresh.extendTo (Nat.zero_le order.toNat)).1
    obtain ⟨horder, hwithin⟩ :=
      hcomplete.indices.2 entry (DerivativeTable.mem_entries_of_mem_upTo h)
    exact Spin.owns_eq_decide hwithin horder other
  · cases h

/-- Of the derivatives of a channel, those that a spin owns are all or none. -/
theorem filter_channelEntries (other : Spin) :
    (f.channelEntries order point (spin.channel f.gradients e)).filter (other.owns ·.1) =
      if spin = other then f.channelEntries order point (spin.channel f.gradients e) else [] := by
  split_ifs with heq
  · exact List.filter_eq_self.mpr fun entry hentry =>
      (owns_of_mem_channelEntries hentry other).trans (decide_eq_true heq)
  · exact List.filter_eq_nil_iff.mpr fun entry hentry howns =>
      heq (of_decide_eq_true ((owns_of_mem_channelEntries hentry other).symm.trans howns))

omit [Spelling K] [DecidableEq K] in
theorem valued_unique : Relator.RightUnique (Valued (K := K) point) := by
  intro entry value value' h h'
  exact Prod.ext (h.1.trans h'.1.symm) (Except.ok.inj (h.2.symm.trans h'.2))

omit [Spelling K] [DecidableEq K] in
theorem filter_owns_of_valued {entries : Layer K} (h : List.Forall₂ (Valued point) entries values)
    (spin : Spin) : List.Forall₂ (Valued point) (entries.filter (spin.owns ·.1))
      (values.filter (spin.owns ·.1)) := by
  refine List.rel_filter (fun entry value hvalue => ?_) h
  dsimp only
  rw [hvalue.1]

/-- The values are those of the derivatives of both channels. -/
theorem valued_channels (hdecoupled : f.isDecoupled = true)
    (h : f.derivativesAt order point = .ok values) :
    ∃ exprs : Spin → Expr K, (∀ s, f.exprOf? s = some (exprs s)) ∧
      List.Forall₂ (Valued point) (Spin.all.flatMap fun s =>
        f.channelEntries order point (s.channel f.gradients (exprs s))) values := by
  obtain ⟨-, tables, htables, hvalued⟩ := derivativesAt_eq_ok h
  obtain ⟨-, channels, hchannels, rfl⟩ := exists_tables_eq_map htables
  obtain ⟨exprs, hexprs, hlist⟩ := exists_channelList hdecoupled
  obtain rfl : channels = _ := Except.ok.inj (hchannels.symm.trans hlist)
  rw [entriesAt_map, List.flatMap_map] at hvalued
  exact ⟨exprs, hexprs, hvalued⟩

/-- **The values that a spin owns** are those of the derivatives of its channel, in order. -/
theorem valued_filter_owns (he : f.exprOf? spin = some e)
    (h : f.derivativesAt order point = .ok values) :
    List.Forall₂ (Valued point) (f.channelEntries order point (spin.channel f.gradients e))
      (values.filter (spin.owns ·.1)) := by
  obtain ⟨exprs, hexprs, hvalued⟩ := valued_channels (isDecoupled_of_exprOf? he) h
  obtain rfl : exprs spin = e := Option.some.inj ((hexprs spin).symm.trans he)
  have hfiltered := filter_owns_of_valued hvalued spin
  rw [List.filter_flatMap] at hfiltered
  simp only [filter_channelEntries] at hfiltered
  cases spin <;> simpa [Spin.all] using hfiltered

/-- **Every value belongs to one spin.** The values are those that alpha owns, then those that
beta owns. -/
theorem derivativesAt_eq_append (hdecoupled : f.isDecoupled = true)
    (h : f.derivativesAt order point = .ok values) :
    values = values.filter (Spin.alpha.owns ·.1) ++ values.filter (Spin.beta.owns ·.1) := by
  obtain ⟨exprs, hexprs, hvalued⟩ := valued_channels hdecoupled h
  have hjoined := List.rel_append (valued_filter_owns (hexprs .alpha) h)
    (valued_filter_owns (hexprs .beta) h)
  rw [Spin.all, List.flatMap_cons, List.flatMap_singleton] at hvalued
  exact valued_unique.forall₂ hvalued hjoined

/-! ### Values at two points -/

/-- The name is not that of a density variable outside the list. -/
def Admits (vars : VariableList) (name : String) : Prop :=
  ∀ v, Variable.ofName? name = some v → v ∈ vars.toList

omit [DecidableEq K] in
theorem over_admits_of_validate (hvalid : f.validate = .ok ()) (he : f.exprOf? spin = some e) :
    e.Over (Admits (spin.vars f.gradients)) := by
  obtain ⟨exprs, hexprs, hlist⟩ := exists_channelList (isDecoupled_of_exprOf? he)
  obtain rfl : exprs spin = e := Option.some.inj ((hexprs spin).symm.trans he)
  have hmem : spin.channel f.gradients (exprs spin) ∈
      Spin.all.map fun s => s.channel f.gradients (exprs s) :=
    List.mem_map_of_mem (by cases spin <;> decide)
  intro s hs v hv
  by_contra hforeign
  have hname : v.name = s := by simpa using List.find?_some hv
  have hmentions : (exprs spin).mentions v.name = false :=
    mentions_of_validate hvalid hlist hmem hforeign
  rw [hname, ← Bool.not_eq_true, Expr.mentions_iff] at hmentions
  exact hmentions hs

/-- Differentiation brings in no variable of the other spin. -/
theorem over_admits_channelEntries (hvalid : f.validate = .ok ()) (he : f.exprOf? spin = some e) :
    ∀ entry ∈ f.channelEntries order point (spin.channel f.gradients e),
      entry.2.Over (Admits (spin.vars f.gradients)) := by
  intro entry hentry
  rw [channelEntries] at hentry
  split_ifs at hentry
  · have hfresh : (⟨e, spin.vars f.gradients, f.differentiator, []⟩ :
        DerivativeTable K).Everywhere (Expr.Over (Admits (spin.vars f.gradients))) :=
      ⟨over_admits_of_validate hvalid he, List.forall_mem_nil _⟩
    exact (Expr.hereditary_over.extend _ hfresh).upTo order entry hentry
  · cases hentry

omit [Spelling K] [DecidableEq K] in
/-- Such expressions have the same value at points that agree on the spin. -/
theorem eval_of_shareValues {d : Expr K} {gradients : Bool}
    (hover : d.Over (Admits (spin.vars gradients))) (hpoints : ShareValues spin point point') :
    d.eval point.assignment = d.eval point'.assignment := by
  refine Expr.eval_congr fun s hs => ?_
  rw [DensityPoint.assignment, DensityPoint.assignment]
  cases hname : Variable.ofName? s with
  | none => rfl
  | some v =>
    have hv : v ∈ (spin.vars gradients).toList := hover s (Expr.mentions_iff.mp hs) v hname
    rcases Spin.mem_vars hv with rfl | rfl
    · exact congrArg some hpoints.density
    · exact congrArg some hpoints.gradient

omit [Spelling K] [DecidableEq K] in
theorem Valued.of_shareValues {gradients : Bool} {entry : MultiIndex × Expr K}
    {value : MultiIndex × K} (h : Valued point' entry value)
    (hover : entry.2.Over (Admits (spin.vars gradients)))
    (hpoints : ShareValues spin point point') : Valued point entry value :=
  ⟨h.1, (eval_of_shareValues hover hpoints).trans h.2⟩

/-- The same derivatives are there for functionals and points that agree on the spin. -/
theorem channelEntries_of_shareSpin (hshared : ShareSpin spin f g)
    (hpoints : ShareValues spin point point') (e : Expr K) :
    f.channelEntries order point (spin.channel f.gradients e) =
      g.channelEntries order point' (spin.channel g.gradients e) := by
  have hactive : f.isActive (spin.channel f.gradients e) point =
      g.isActive (spin.channel g.gradients e) point' := by
    rw [isActive, isActive, ← hshared.threshold]
    cases f.threshold with
    | none => rfl
    | some t => exact congrArg (lt t) hpoints.density
  rw [channelEntries, channelEntries, hactive, tableOf, tableOf, ← hshared.gradients,
    ← hshared.differentiator]

/-- **The spins do not interfere.** Two functionals that treat a spin alike have the same values
of its derivatives, in the same order, at points with the same density and gradient of that spin.
Where the density is not above the threshold there are none. -/
theorem derivativesAt_of_spin (hshared : ShareSpin spin f g)
    (hpoints : ShareValues spin point point') (hf : f.derivativesAt order point = .ok values)
    (hg : g.derivativesAt order point' = .ok values') :
    values.filter (spin.owns ·.1) = values'.filter (spin.owns ·.1) ∧
    ((∃ t, f.threshold = some t ∧ lt t (point.value spin.density) = false) →
      values.filter (spin.owns ·.1) = []) := by
  obtain ⟨e, hfe, hge⟩ := hshared.expr
  have hvalued := valued_filter_owns hfe hf
  constructor
  · have hvalued' := valued_filter_owns hge hg
    rw [← channelEntries_of_shareSpin hshared hpoints e] at hvalued'
    obtain ⟨-, tables, htables, -⟩ := derivativesAt_eq_ok hf
    have hover : ∀ entry ∈ f.channelEntries order point (spin.channel f.gradients e),
        entry.2.Over (Admits (spin.vars f.gradients)) :=
      over_admits_channelEntries (exists_tables_eq_map htables).1 hfe
    -- Both are values of the same derivatives, at points that these do not tell apart.
    have hmoved := ((List.forall₂_and_left _ _).mpr ⟨hover, hvalued'⟩).imp
      fun entry value hboth => hboth.2.of_shareValues hboth.1 hpoints
    exact valued_unique.forall₂ hvalued hmoved
  · rintro ⟨t, ht, hlt⟩
    have hinactive : f.isActive (spin.channel f.gradients e) point = false := by
      rw [isActive, ht]
      exact hlt
    rwa [channelEntries, hinactive, if_neg Bool.false_ne_true, List.forall₂_nil_left_iff] at hvalued

/-- Beta has the same value beside an alpha channel that does not count and beside another one
that does. -/
theorem derivativesAt_of_beta :
    let f : Functional Double :=
      { title := "Spins", channels := .decoupled (.sym "ra") (.sym "rb"), threshold := some one }
    let g : Functional Double :=
      { title := "Others", channels := .decoupled (.mul (.sym "ra") (.sym "ra")) (.sym "rb"),
        threshold := some one }
    let point : DensityPoint Double := ⟨zero, two, zero, zero, zero⟩
    let point' : DensityPoint Double := ⟨two, two, one, zero, one⟩
    ∃ values values', ShareSpin .beta f g ∧ ShareValues .beta point point' ∧
      f.derivativesAt .first point = .ok values ∧ g.derivativesAt .first point' = .ok values' ∧
      values.length = 1 ∧ values'.length = 2 ∧
      values.filter (Spin.beta.owns ·.1) = values'.filter (Spin.beta.owns ·.1) := by
  intro f g point point'
  have hshared : ShareSpin .beta f g := ⟨⟨.sym "rb", rfl, rfl⟩, rfl, rfl, rfl⟩
  have hpoints : ShareValues .beta point point' := ⟨rfl, rfl⟩
  have hf : f.derivativesAt .first point = .ok [(⟨0, 1, 0, 0, 0⟩, one)] := by decide +kernel
  have hg : g.derivativesAt .first point' =
      .ok [(⟨1, 0, 0, 0, 0⟩, two + two), (⟨0, 1, 0, 0, 0⟩, one)] := by decide +kernel
  exact ⟨_, _, hshared, hpoints, hf, hg, rfl, rfl, (derivativesAt_of_spin hshared hpoints hf hg).1⟩

end Functional

end DensityKernel
