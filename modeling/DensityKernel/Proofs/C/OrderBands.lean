import DensityKernel.Literal.Double
import DensityKernel.Proofs.C.ZeroStatements
import DensityKernel.Proofs.Density.Orders

/-!
Blocks of successive orders. The block of an order begins with that of the order below
and goes on with the statements of its own layer, after an empty line if orders are
separated (`block_next_eq_ok_iff`). This holds for every format: what is written around
the values may hold line feeds and comment marks, since each statement ends its line and
statements that add zero are found line by line.
-/

namespace DensityKernel.C

open DerivativeTable

variable {format : StatementFormat} {front back : List Statement}

/-! ### Lines -/

/-- Statements that follow others see only the order of the last one. -/
theorem Statement.linesAfter_append {last : Statement} (hlast : front.getLast? = some last)
    (previous : Option Nat) (back : List Statement) :
    linesAfter format previous (front ++ back) =
      linesAfter format previous front ++ linesAfter format (some last.order) back := by
  induction front generalizing previous with
  | nil => cases hlast
  | cons s front ih =>
    rw [List.cons_append, linesAfter, linesAfter]
    cases front with
    | nil =>
      obtain rfl : s = last := Option.some.inj hlast
      rw [List.nil_append, linesAfter, String.append_empty]
    | cons s' front =>
      rw [List.getLast?_cons_cons] at hlast
      rw [ih hlast]
      simp only [String.append_assoc]

/-- Every statement ends its line. -/
theorem Statement.exists_linesAfter_eq (format : StatementFormat) (previous : Option Nat)
    (hne : front ≠ []) : ∃ text, linesAfter format previous front = text ++ "\n" := by
  induction front generalizing previous with
  | nil => exact absurd rfl hne
  | cons s front ih =>
    rw [linesAfter]
    by_cases hfront : front = []
    · rw [hfront, linesAfter, String.append_empty]
      exact ⟨_, rfl⟩
    · obtain ⟨text, htext⟩ := ih (some s.order) hfront
      rw [htext, ← String.append_assoc]
      exact ⟨_, rfl⟩

/-- What stands between the statements of different orders. -/
def StatementFormat.gap (format : StatementFormat) : String :=
  if format.separateOrders then "\n" else ""

/-- The statements of another order are separated, and otherwise written like the first ones. -/
theorem Statement.linesAfter_of_ne {previous : Nat} (hne : back ≠ [])
    (horder : ∀ s ∈ back, s.order ≠ previous) :
    linesAfter format (some previous) back = format.gap ++ linesAfter format none back := by
  cases back with
  | nil => exact absurd rfl hne
  | cons s back =>
    have hfirst : (some previous).any (· != s.order) = true :=
      bne_iff_ne.mpr (horder s List.mem_cons_self).symm
    rw [linesAfter, linesAfter, hfirst, Bool.and_true, StatementFormat.gap]
    simp [String.append_assoc]

/-! ### Layouts -/

namespace StatementFormat

/-- An empty line is not commented out. -/
theorem commentLines_gap (format : StatementFormat) (text : String) :
    commentLines format.zeroTail (format.gap ++ text) =
      format.gap ++ commentLines format.zeroTail text := by
  unfold gap
  split
  · have hline := commentLines_newline format.zeroTail "" text
    rwa [commentLines_empty format.zeroTail_ne_nil, String.empty_append] at hline
  · rw [String.empty_append, String.empty_append]

/-- **A layout is that of its orders, one after the other.** -/
theorem layout_append (hfront : front ≠ []) (hback : back ≠ [])
    (horder : ∀ s ∈ front, ∀ s' ∈ back, s'.order ≠ s.order) :
    format.layout (front ++ back) = format.layout front ++ format.gap ++ format.layout back := by
  obtain ⟨text, htext⟩ := Statement.exists_linesAfter_eq format none hfront
  have hlast := List.getLast?_eq_some_getLast hfront
  have hnext : Statement.linesAfter format (some (front.getLast hfront).order) back =
      format.gap ++ Statement.linesAfter format none back :=
    Statement.linesAfter_of_ne hback (horder _ (List.getLast_mem hfront))
  rw [layout, Statement.linesAfter_append hlast, hnext, htext,
    commentLines_append format.zeroTail_ne_nil, ← htext, commentLines_gap, ← String.append_assoc]
  rfl

/-! ### Blocks -/

variable {K : Type} [Literal K] [Spelling K]

/-- The statements of some derivatives. -/
def ofLayer (format : StatementFormat) (layer : Layer K) : Except Error (List Statement) :=
  layer.mapM fun (index, e) => do
    let value ← render format.symbols e
    .ok ⟨index, value⟩

theorem statements_eq (format : StatementFormat) (table : DerivativeTable K)
    (order : DerivativeOrder) : format.statements table order = format.ofLayer (table.upTo order) :=
  rfl

theorem ofLayer_append_eq_ok_iff {layer layer' : Layer K} {statements : List Statement} :
    format.ofLayer (layer ++ layer') = .ok statements ↔
      ∃ front back, format.ofLayer layer = .ok front ∧ format.ofLayer layer' = .ok back ∧
        statements = front ++ back := by
  simp only [ofLayer, List.mapM_append, bind_eq_ok_iff]
  constructor
  · rintro ⟨front, hfront, back, hback, h⟩
    exact ⟨front, back, hfront, hback, (Except.ok.inj h).symm⟩
  · rintro ⟨front, back, hfront, hback, rfl⟩
    exact ⟨front, hfront, back, hback, rfl⟩

/-- The statements have the indices of the derivatives. -/
theorem map_index_ofLayer {layer : Layer K} {statements : List Statement}
    (h : format.ofLayer layer = .ok statements) :
    statements.map (·.index) = layer.map (·.1) := by
  refine map_eq_of_mapM h fun entry _ s hs => ?_
  obtain ⟨value, -, hs⟩ := bind_eq_ok_iff.mp hs
  cases hs
  rfl

/-- Layers of different orders are laid out one after the other. -/
theorem layout_of_layers {layer layer' : Layer K} (hne : layer ≠ []) (hne' : layer' ≠ [])
    (horder : ∀ entry ∈ layer, ∀ entry' ∈ layer', entry'.1.order ≠ entry.1.order)
    (hfront : format.ofLayer layer = .ok front) (hback : format.ofLayer layer' = .ok back) :
    format.layout (front ++ back) = format.layout front ++ format.gap ++ format.layout back := by
  have hkeys := map_index_ofLayer hfront
  have hkeys' := map_index_ofLayer hback
  have hnil : ∀ {layer : Layer K} {statements : List Statement}, layer ≠ [] →
      statements.map (·.index) = layer.map (·.1) → statements ≠ [] := by
    rintro layer statements hlayer hmap rfl
    exact hlayer (List.map_eq_nil_iff.mp hmap.symm)
  refine layout_append (hnil hne hkeys) (hnil hne' hkeys') fun s hs s' hs' => ?_
  obtain ⟨entry, hentry, hindex⟩ := List.mem_map.mp (hkeys ▸ List.mem_map_of_mem hs)
  obtain ⟨entry', hentry', hindex'⟩ := List.mem_map.mp (hkeys' ▸ List.mem_map_of_mem hs')
  rw [Statement.order, Statement.order, ← hindex, ← hindex']
  exact horder entry hentry entry' hentry'

variable [DecidableEq K]

/-- **The block of an order begins with that of the order below.** Both are there if the lower one
and the statements of the next layer are; what follows the lower block is an empty line, if orders
are separated, and the layout of these statements by themselves. The table is one that any run of
extensions leaves, and the format is any. -/
theorem block_next_eq_ok_iff (format : StatementFormat) (base : Expr K) (vars : VariableList)
    (d : Differentiator) (orders : List DerivativeOrder) {order next : DerivativeOrder}
    (hnext : next.toNat = order.toNat + 1)
    (hbuilt : next.toNat ≤ (extendAll (fresh base vars d) orders).order) (text : String) :
    format.block (extendAll (fresh base vars d) orders) next = .ok text ↔
      ∃ lower added,
        format.block (extendAll (fresh base vars d) orders) order = .ok lower ∧
        format.ofLayer ((extendAll (fresh base vars d) orders).layer next) = .ok added ∧
        text = lower ++ (if format.separateOrders then "\n" else "") ++ format.layout added := by
  have hgraded := graded_extendAll base vars d orders
  generalize extendAll (fresh base vars d) orders = t at hbuilt hgraded ⊢
  have hlayer := hgraded.ofOrder_layer hbuilt
  have hlower : t.upTo order ≠ [] := hgraded.upTo_ne_nil (by omega)
  have horder : ∀ entry ∈ t.upTo order, ∀ entry' ∈ t.layer next,
      entry'.1.order ≠ entry.1.order := by
    intro entry hentry entry' hentry'
    have hle := hgraded.order_le_of_mem_upTo hentry
    have heq := (hlayer.within entry' hentry').1
    omega
  simp only [block, statements_eq, bind_eq_ok_iff, upTo_next t hnext, ofLayer_append_eq_ok_iff]
  constructor
  · rintro ⟨statements, ⟨front, back, hfront, hback, rfl⟩, htext⟩
    obtain rfl := Except.ok.inj htext
    exact ⟨_, back, ⟨front, hfront, rfl⟩, hback,
      layout_of_layers hlower hlayer.ne_nil horder hfront hback⟩
  · rintro ⟨lower, back, ⟨front, hfront, hlower'⟩, hback, rfl⟩
    obtain rfl := Except.ok.inj hlower'
    refine ⟨front ++ back, ⟨front, back, hfront, hback, rfl⟩, congrArg _ ?_⟩
    exact layout_of_layers hlower hlayer.ne_nil horder hfront hback

/-- Statements on two lines each, the first of them a comment, and a second order that is zero. -/
theorem block_next_eq_ok_of_comments :
    let format : StatementFormat := { accumulator := "// slot\n  ds->" }
    let vars : VariableList := ⟨[.ra], by decide, by decide⟩
    let t : DerivativeTable Double := extendAll (fresh (.sym "ra") vars {}) [.third]
    DerivativeOrder.second.toNat = DerivativeOrder.first.toNat + 1 ∧
      DerivativeOrder.second.toNat ≤ t.order ∧
      ∃ lower added, format.block t .first = .ok lower ∧
        format.ofLayer (t.layer .second) = .ok added ∧
        "  // slot\n  ds->df1000 += (1)*factor;\n\n  // slot\n  // ds->df2000 += (0)*factor;\n" =
          lower ++ "\n" ++ format.layout added := by
  intro format vars t
  have hbuilt : DerivativeOrder.second.toNat ≤ t.order := by decide +kernel
  have hblock : format.block t .second = .ok
      "  // slot\n  ds->df1000 += (1)*factor;\n\n  // slot\n  // ds->df2000 += (0)*factor;\n" := by
    decide +kernel
  exact ⟨rfl, hbuilt, (block_next_eq_ok_iff format _ vars {} [.third] rfl hbuilt _).mp hblock⟩

end StatementFormat

end DensityKernel.C
