import DensityKernel.Functional.Code
import DensityKernel.Proofs.Density.Extension

/-!
The file of a functional and its parts. The routines in the file are all written
from tables of the highest order, a routine on its own from tables of its own
order. The texts are the same, and the file is there exactly when all of its
parts are (`sourceFile_eq_ok_iff`).
-/

namespace DensityKernel.Functional

open C

variable {K : Type}

/-- A channel with its table cut off at an order. -/
def cutAt (order : DerivativeOrder) (pair : Channel K × DerivativeTable K) :
    Channel K × DerivativeTable K :=
  (pair.1, pair.2.cut order.toNat)

theorem exprs_of_channelList {f : Functional K} {channels : List (Channel K)}
    (h : f.channelList = .ok channels) : channels.map (·.expr) = f.exprs := by
  unfold channelList at h
  split at h
  · next e he =>
    obtain ⟨vars, -, h⟩ := bind_eq_ok_iff.mp h
    cases h
    rw [exprs, he]
    rfl
  · next alpha beta he =>
    cases h
    rw [exprs, he]
    rfl

variable [Literal K] [Spelling K]

/-! ### Routines -/

theorem statements_cut (format : StatementFormat) (table : DerivativeTable K)
    (order : DerivativeOrder) :
    format.statements (table.cut order.toNat) order = format.statements table order := by
  rw [StatementFormat.statements, StatementFormat.statements, DerivativeTable.upTo_cut]

variable {f : Functional K} {order : DerivativeOrder}
  {tables : List (Channel K × DerivativeTable K)}

/-- The text of a routine depends on the derivatives up to its order. -/
theorem derivativeText_cut (f : Functional K) (order : DerivativeOrder)
    (tables : List (Channel K × DerivativeTable K)) :
    f.derivativeText (tables.map (cutAt order)) order = f.derivativeText tables order := by
  have hguarded : ∀ pair : Channel K × DerivativeTable K,
      f.guardedBlock order (cutAt order pair) = f.guardedBlock order pair := by
    intro pair
    rw [guardedBlock, guardedBlock, cutAt, statements_cut]
  have hblock : ∀ pair : Channel K × DerivativeTable K,
      f.format.block (cutAt order pair).2 order = f.format.block pair.2 order := by
    intro pair
    rw [StatementFormat.block, StatementFormat.block, cutAt, statements_cut]
  rw [derivativeText, derivativeText, List.mapM_map, List.mapM_map]
  simp only [Function.comp_def, hguarded, hblock]

variable [DecidableEq K]

/-- Tables of a lower order are tables of the highest order cut off. -/
theorem tables_cut (h : f.tables .fourth = .ok tables) (order : DerivativeOrder) :
    f.tables order = .ok (tables.map (cutAt order)) := by
  obtain ⟨⟨⟩, hvalid, h⟩ := bind_eq_ok_iff.mp h
  obtain ⟨channels, hchannels, h⟩ := bind_eq_ok_iff.mp h
  refine bind_eq_ok_iff.mpr ⟨(), hvalid, bind_eq_ok_iff.mpr ⟨channels, hchannels, ?_⟩⟩
  refine mapM_eq_ok_iff.mpr (List.forall₂_map_right_iff.mpr ((mapM_eq_ok_iff.mp h).imp ?_))
  intro c pair hpair
  obtain ⟨⟨⟩, hfourth, hpair⟩ := bind_eq_ok_iff.mp hpair
  cases hpair
  dsimp only at hfourth ⊢
  rw [DerivativeTable.extendTo_of_le order.le_max rfl hfourth]
  rfl

/-- The expressions of the tables are those of the functional, which is valid. -/
theorem exprs_of_tables (h : f.tables order = .ok tables) :
    f.validate = .ok () ∧ tables.map (·.1.expr) = f.exprs := by
  obtain ⟨⟨⟩, hvalid, h⟩ := bind_eq_ok_iff.mp h
  obtain ⟨channels, hchannels, h⟩ := bind_eq_ok_iff.mp h
  refine ⟨hvalid, (map_eq_of_mapM h ?_).trans (exprs_of_channelList hchannels)⟩
  intro c _ pair hpair
  obtain ⟨-, -, hpair⟩ := bind_eq_ok_iff.mp hpair
  cases hpair
  rfl

/-- **One table serves all orders.** The routine of an order is the same from tables of the
highest order. -/
theorem derivativeRoutine_of_tables (h : f.tables .fourth = .ok tables) (order : DerivativeOrder) :
    f.derivativeRoutine order = f.derivativeText tables order := by
  rw [derivativeRoutine, tables_cut h order]
  exact derivativeText_cut f order tables

theorem energyRoutine_of_tables (h : f.tables order = .ok tables) :
    f.energyRoutine = f.energyText (tables.map (·.1.expr)) := by
  obtain ⟨hvalid, hexprs⟩ := exprs_of_tables h
  rw [energyRoutine, hvalid, hexprs]
  rfl

/-! ### The file -/

/-- The routines of the file are those of all orders. -/
theorem mem_upTo_fourth (order : DerivativeOrder) : order ∈ DerivativeOrder.fourth.upTo := by
  obtain ⟨n, hone, hle⟩ := order
  have hcases : n = 1 ∨ n = 2 ∨ n = 3 ∨ n = 4 := by
    rw [maxOrder] at hle
    omega
  rcases hcases with rfl | rfl | rfl | rfl
  · exact List.mem_cons_self
  · exact List.mem_cons_of_mem _ List.mem_cons_self
  · exact List.mem_cons_of_mem _ (List.mem_cons_of_mem _ List.mem_cons_self)
  · exact List.mem_cons_of_mem _ (List.mem_cons_of_mem _ (List.mem_cons_of_mem _ List.mem_cons_self))

/-- The routines of all orders, put one after the other. -/
theorem join_upTo_fourth (routine : DerivativeOrder → String) :
    String.join (DerivativeOrder.fourth.upTo.map routine) =
      routine .first ++ routine .second ++ routine .third ++ routine .fourth := by
  have hjoin : String.join (DerivativeOrder.fourth.upTo.map routine) =
      "" ++ routine .first ++ routine .second ++ routine .third ++ routine .fourth := rfl
  rw [hjoin, String.empty_append]

/-- **The file of a functional is its parts one after the other.** It is there exactly when the
energy routine and the routines of all orders are, each generated on its own. -/
theorem sourceFile_eq_ok_iff {text : String} : f.sourceFile = .ok text ↔
    ∃ (threshold : Option String) (energy : String) (routine : DerivativeOrder → String),
      f.thresholdText = .ok threshold ∧ f.energyRoutine = .ok energy ∧
      (∀ order, f.derivativeRoutine order = .ok (routine order)) ∧
      text = banner f.name f.title f.info ++ interface f.name f.title f.gradients
        ++ readHook f.name threshold ++ energy ++ routine .first ++ routine .second
        ++ routine .third ++ routine .fourth := by
  constructor
  · intro h
    obtain ⟨tables, htables, h⟩ := bind_eq_ok_iff.mp h
    obtain ⟨threshold, hthreshold, h⟩ := bind_eq_ok_iff.mp h
    obtain ⟨energy, henergy, h⟩ := bind_eq_ok_iff.mp h
    obtain ⟨routines, hroutines, h⟩ := bind_eq_ok_iff.mp h
    have hall : ∀ order, ∃ routine, f.derivativeRoutine order = .ok routine := by
      intro order
      obtain ⟨routine, hroutine⟩ := exists_of_mapM hroutines (mem_upTo_fourth order)
      exact ⟨routine, (derivativeRoutine_of_tables htables order).trans hroutine⟩
    choose routine hroutine using hall
    have hmap : routines = DerivativeOrder.fourth.upTo.map routine := by
      refine Except.ok.inj (hroutines.symm.trans (mapM_eq_map fun order _ => ?_))
      rw [← derivativeRoutine_of_tables htables, hroutine]
    refine ⟨threshold, energy, routine, hthreshold, ?_, hroutine, ?_⟩
    · rw [energyRoutine_of_tables htables, henergy]
    · rw [← Except.ok.inj h, hmap, join_upTo_fourth]
      simp only [String.append_assoc]
  · rintro ⟨threshold, energy, routine, hthreshold, henergy, hroutine, rfl⟩
    obtain ⟨tables, htables, -⟩ := bind_eq_ok_iff.mp (hroutine .fourth)
    have hroutines : DerivativeOrder.fourth.upTo.mapM (f.derivativeText tables) =
        .ok (DerivativeOrder.fourth.upTo.map routine) := by
      refine mapM_eq_map fun order _ => ?_
      rw [← derivativeRoutine_of_tables htables, hroutine]
    rw [energyRoutine_of_tables htables] at henergy
    refine bind_eq_ok_iff.mpr ⟨tables, htables, bind_eq_ok_iff.mpr ⟨threshold, hthreshold,
      bind_eq_ok_iff.mpr ⟨energy, henergy, bind_eq_ok_iff.mpr ⟨_, hroutines, ?_⟩⟩⟩⟩
    rw [join_upTo_fourth]
    simp only [String.append_assoc]

end DensityKernel.Functional
