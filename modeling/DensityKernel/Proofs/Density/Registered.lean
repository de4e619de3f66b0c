import DensityKernel.C.Statement
import DensityKernel.Literal.Double
import DensityKernel.Proofs.C.Unrenderable
import DensityKernel.Proofs.Density.DerivativeTable
import DensityKernel.Proofs.Density.Extension
import DensityKernel.Proofs.Density.Hereditary
import DensityKernel.Proofs.Expr.Symbols

/-!
Tables of registered expressions. Without limits on the size of trees they reach
the highest order, their derivatives are registered expressions over the same
symbols, and C code for them fails only at a literal that is not finite
(`extendTo_registered`).
-/

namespace DensityKernel

open DensityKernel.Expr

variable {K : Type} [Literal K] [DecidableEq K] [Spelling K]

namespace Differentiator

/-- Trees of any size are differentiated. -/
def Unlimited (d : Differentiator) : Prop :=
  d.maxDepth = none ∧ d.maxNodes = none

variable {d : Differentiator}

theorem Unlimited.admitsLeaves (hd : d.Unlimited) : d.AdmitsLeaves := by
  obtain ⟨hdepth, hnodes⟩ := hd
  constructor
  · rw [hdepth]
    exact nofun
  · rw [hnodes]
    exact nofun

omit [Literal K] [DecidableEq K] [Spelling K] in
theorem Unlimited.checkLimits (hd : d.Unlimited) (e : Expr K) : d.checkLimits e = .ok () := by
  rw [Differentiator.checkLimits, hd.1, hd.2]
  rfl

/-- Without limits only the derivative itself can fail, and it is simplified if that is asked
for. -/
theorem Unlimited.differentiate_eq_ok_iff (hd : d.Unlimited) {e e' : Expr K} {name : String} :
    d.differentiate e name = .ok e' ↔ ∃ raw, e.derive name = .ok raw ∧ e' = d.finish raw := by
  simp only [Differentiator.differentiate, hd.checkLimits, bind_eq_ok_iff]
  constructor
  · rintro ⟨⟨⟩, -, raw, hraw, ⟨⟩, -, h⟩
    exact ⟨raw, hraw, (Except.ok.inj h).symm⟩
  · rintro ⟨raw, hraw, rfl⟩
    exact ⟨(), trivial, raw, hraw, (), trivial, rfl⟩

/-- **A registered expression is differentiated.** -/
theorem Unlimited.differentiate (hd : d.Unlimited) {e : Expr K} (he : e.Registered)
    (name : String) : ∃ e', d.differentiate e name = .ok e' := by
  obtain ⟨raw, hraw⟩ := he.derive name
  exact ⟨d.finish raw, hd.differentiate_eq_ok_iff.mpr ⟨raw, hraw, rfl⟩⟩

end Differentiator

namespace DerivativeTable

variable {base : Expr K} {vars : VariableList} {d : Differentiator} {t : DerivativeTable K}

/-! ### Extensions -/

theorem exists_child (hd : t.differentiator.Unlimited) {parent : MultiIndex × Expr K}
    (horder : parent.1.order < maxOrder) (hparent : parent.2.Registered) (v : Variable) :
    ∃ entry, t.child parent v = .ok entry := by
  have hindex : parent.1.increment v = .ok (parent.1.bump v) :=
    MultiIndex.increment_eq_ok_iff.mpr ⟨horder, rfl⟩
  obtain ⟨e, he⟩ := hd.differentiate hparent v.name
  by_cases hzero : parent.2.isZero = true
  · refine ⟨(parent.1.bump v, zero), bind_eq_ok_iff.mpr ⟨_, hindex, ?_⟩⟩
    rw [if_pos hzero]
    rfl
  · refine ⟨(parent.1.bump v, e), bind_eq_ok_iff.mpr ⟨_, hindex, ?_⟩⟩
    rw [if_neg hzero, he]
    rfl

/-- A step below the highest order succeeds. -/
theorem exists_nextLayer (hd : d.Unlimited) (h : BuiltFor base vars d t)
    (ht : t.Everywhere Registered) (horder : t.order < maxOrder) :
    ∃ layer, t.nextLayer = .ok layer := by
  refine exists_mapM_eq_ok fun ⟨parent, v⟩ htask => ?_
  obtain ⟨parent', hparent, hmem⟩ := List.mem_flatMap.mp htask
  obtain ⟨v', -, heq⟩ := List.mem_map.mp hmem
  cases heq
  have hindex : parent.1.order = t.order := (h.isLayer_parents.within hparent).1
  exact exists_child (h.differentiator_eq ▸ hd) (hindex ▸ horder) (ht.parents parent hparent) v

/-- **Every extension up to the highest order succeeds.** -/
theorem extend_of_registered (hd : d.Unlimited) {count : Nat} (h : BuiltFor base vars d t)
    (ht : t.Everywhere Registered) (hcount : t.order + count ≤ maxOrder) :
    (extend count t).2 = .ok () := by
  induction count generalizing t with
  | zero => rfl
  | succ count ih =>
    obtain ⟨layer, hlayer⟩ := exists_nextLayer hd h ht (by omega)
    rw [extend, hlayer]
    refine ih (h.step hd.admitsLeaves (by omega) hlayer)
      (ht.append (hereditary_registered.nextLayer ht hlayer)) ?_
    rw [order, List.length_append, List.length_singleton]
    rw [order] at hcount
    omega

/-! ### Code -/

omit [DecidableEq K] in
/-- The code of derivatives fails at one of them. -/
theorem exists_render_eq_error {format : C.StatementFormat} {order : DerivativeOrder}
    {error : Error} (h : format.block t order = .error error) :
    ∃ entry ∈ t.entries, C.render format.symbols entry.2 = .error error := by
  rcases bind_eq_error_iff.mp h with h | ⟨statements, -, h⟩
  · obtain ⟨entry, hentry, h⟩ := exists_mem_of_mapM_error h
    refine ⟨entry, mem_entries_of_mem_upTo hentry, ?_⟩
    rcases bind_eq_error_iff.mp h with h | ⟨text, -, h⟩
    · exact h
    · cases h
  · cases h

/-- **A registered expression has all derivatives up to the highest order.** They are registered
expressions over its symbols, and C code for them fails only where one of them has a literal that
is not finite. -/
theorem extendTo_registered {base : Expr K} {d : Differentiator} (hbase : base.Registered)
    (hd : d.Unlimited) (vars : VariableList) :
    ∃ t, extendTo (fresh base vars d) .fourth = (t, .ok ()) ∧ t.order = maxOrder ∧
      (∀ entry ∈ t.entries, entry.2.Registered ∧ ∀ s ∈ entry.2.symbols, s ∈ base.symbols) ∧
      ∀ (format : C.StatementFormat) (order : DerivativeOrder) (error : Error),
        format.block t order = .error error →
          ∃ entry ∈ t.entries, ∃ x ∈ entry.2.literals, Literal.isFinite x = false ∧
            error = .unrenderable (.nonFinite (Spelling.plain x)) := by
  have hfresh : ∀ {Q : Expr K → Prop}, Q base → (fresh base vars d).Everywhere Q :=
    fun hQ => ⟨hQ, List.forall_mem_nil _⟩
  have hok : (extendTo (fresh base vars d) .fourth).2 = .ok () :=
    extend_of_registered hd builtFor_fresh (hfresh hbase) le_rfl
  have hregistered := (hereditary_registered.extend maxOrder (hfresh hbase)).entries
  have hover := (hereditary_over.extend maxOrder
    (hfresh (Q := Over (· ∈ base.symbols)) fun s hs => hs)).entries
  refine ⟨(extendTo (fresh base vars d) .fourth).1, Prod.ext rfl hok, ?_, ?_, ?_⟩
  · exact (order_extend hok).trans (Nat.zero_add _)
  · exact fun entry hentry => ⟨hregistered entry hentry, hover entry hentry⟩
  · intro format order error herror
    obtain ⟨entry, hentry, herror⟩ := exists_render_eq_error herror
    refine ⟨entry, hentry, ?_⟩
    rcases C.render_eq_error herror with hliteral | ⟨c, hc, hlookup, -⟩
    · exact hliteral
    · have hsome := registered_iff.mp (hregistered entry hentry) c hc
      rw [hlookup] at hsome
      exact absurd hsome Bool.false_ne_true

/-- The error function of a cube root over doubles, with the gradient listed first and without
simplification. -/
theorem extendTo_errorFunction :
    let base : Expr Double := .call "erf" [.call "cbrt" [.mul (.sym "ra") (.sym "ga")]]
    let d : Differentiator := { simplify := false }
    let vars : VariableList := ⟨[.ga, .ra], by decide, by decide⟩
    base.Registered ∧ d.Unlimited ∧
      ∃ t, extendTo (fresh base vars d) .fourth = (t, .ok ()) ∧ t.order = maxOrder ∧
        (∀ entry ∈ t.entries, entry.2.Registered ∧ ∀ s ∈ entry.2.symbols, s ∈ base.symbols) ∧
        ∀ (format : C.StatementFormat) (order : DerivativeOrder) (error : Error),
          format.block t order = .error error →
            ∃ entry ∈ t.entries, ∃ x ∈ entry.2.literals, Literal.isFinite x = false ∧
              error = .unrenderable (.nonFinite (Spelling.plain x)) := by
  intro base d vars
  have hbase : base.Registered := registered_iff.mpr (by decide)
  have hd : d.Unlimited := ⟨rfl, rfl⟩
  exact ⟨hbase, hd, extendTo_registered hbase hd vars⟩

end DerivativeTable

end DensityKernel
