import DensityKernel.Literal.Double
import DensityKernel.Proofs.Density.DerivativeTable
import DensityKernel.Proofs.Density.Extension

/-!
Extending a table again, after extensions that succeeded or failed. A layer is
computed from the one below and from nothing else, and it is added only when all
its tasks have succeeded, so a table holds the complete layers up to some order
(`Complete`) and stops below the first layer with a task that fails. Earlier
extensions leave no other trace, and nothing they have computed is lost
(`resumes_extendAll`).
-/

namespace DensityKernel.DerivativeTable

variable {K : Type} [Literal K] [DecidableEq K] [Spelling K]

/-! ### Tasks -/

/-- A derivative of the next layer: its parent, and the variable. -/
abbrev Task (K : Type) := (MultiIndex × Expr K) × Variable

/-- The result of a task. A literal zero is not differentiated again. -/
def Gives (d : Differentiator) (task : Task K) (entry : MultiIndex × Expr K) : Prop :=
  entry.1 = task.1.1.bump task.2 ∧
    if task.1.2.isZero = true then entry.2 = .zero
    else d.differentiate task.1.2 task.2.name = .ok entry.2

/-- A task fails with the error of its differentiation. -/
def Fails (d : Differentiator) (task : Task K) (error : Error) : Prop :=
  task.1.2.isZero = false ∧ d.differentiate task.1.2 task.2.name = .error error

variable {base : Expr K} {vars : VariableList} {d : Differentiator} {t t' : DerivativeTable K}
  {task : Task K} {entry entry' : MultiIndex × Expr K} {error error' : Error} {layer : Layer K}

theorem Gives.unique (h : Gives d task entry) (h' : Gives d task entry') : entry = entry' := by
  obtain ⟨hindex, hexpr⟩ := h
  obtain ⟨hindex', hexpr'⟩ := h'
  refine Prod.ext (hindex.trans hindex'.symm) ?_
  split_ifs at hexpr hexpr'
  · rw [hexpr, hexpr']
  · exact Except.ok.inj (hexpr.symm.trans hexpr')

theorem Gives.not_fails (h : Gives d task entry) : ¬Fails d task error := by
  rintro ⟨hzero, herror⟩
  have hok := h.2
  rw [hzero, if_neg Bool.false_ne_true, herror] at hok
  cases hok

section Child

variable (horder : task.1.1.order < maxOrder)

include horder

/-- Below the highest order a step of the table does what its task says. -/
theorem child_eq_ok_iff :
    t.child task.1 task.2 = .ok entry ↔ Gives t.differentiator task entry := by
  have hindex : task.1.1.increment task.2 = .ok (task.1.1.bump task.2) :=
    MultiIndex.increment_eq_ok_iff.mpr ⟨horder, rfl⟩
  obtain ⟨index, e⟩ := entry
  rw [child, hindex, Gives]
  cases task.1.2.isZero with
  | true => simp [bind, Except.bind, eq_comm]
  | false =>
    cases t.differentiator.differentiate task.1.2 task.2.name <;>
      simp [bind, Except.bind, eq_comm]

theorem child_eq_error_iff :
    t.child task.1 task.2 = .error error ↔ Fails t.differentiator task error := by
  have hindex : task.1.1.increment task.2 = .ok (task.1.1.bump task.2) :=
    MultiIndex.increment_eq_ok_iff.mpr ⟨horder, rfl⟩
  rw [child, hindex, Fails]
  cases task.1.2.isZero with
  | true => simp [bind, Except.bind]
  | false =>
    cases t.differentiator.differentiate task.1.2 task.2.name <;> simp [bind, Except.bind]

end Child

/-! ### Complete layers -/

/-- The tasks of the next layer, in the order in which they are enumerated. -/
def nextTasks (t : DerivativeTable K) : List (Task K) :=
  t.tasks t.parents

/-- A table with complete layers only: each has the results of all tasks that the layers below
it leave. -/
inductive Complete (base : Expr K) (vars : VariableList) (d : Differentiator) :
    DerivativeTable K → Prop
  | fresh : Complete base vars d (fresh base vars d)
  | next {t : DerivativeTable K} {layer : Layer K} : Complete base vars d t →
    List.Forall₂ (Gives d) t.nextTasks layer →
      Complete base vars d { t with layers := t.layers ++ [layer] }

/-- In the next layer some task fails, and the first one that does fails with the error. -/
def StopsWith (d : Differentiator) (t : DerivativeTable K) (error : Error) : Prop :=
  ∃ front task back, t.nextTasks = front ++ task :: back ∧
    (∀ earlier ∈ front, ∃ entry, Gives d earlier entry) ∧ Fails d task error

theorem nextLayer_eq_mapM (t : DerivativeTable K) :
    t.nextLayer = t.nextTasks.mapM fun task => t.child task.1 task.2 := rfl

omit [Literal K] [DecidableEq K] [Spelling K] in
theorem mem_nextTasks (h : task ∈ t.nextTasks) : task.1 ∈ t.parents ∧ task.2 ∈ t.vars.toList := by
  obtain ⟨parent, hparent, hmem⟩ := List.mem_flatMap.mp h
  obtain ⟨v, hv, rfl⟩ := List.mem_map.mp hmem
  exact ⟨hparent, List.mem_of_mem_drop hv⟩

namespace Complete

theorem fields (h : Complete base vars d t) :
    t.base = base ∧ t.vars = vars ∧ t.differentiator = d := by
  induction h with
  | fresh => exact ⟨rfl, rfl, rfl⟩
  | next _ _ ih => exact ih

/-- The derivatives are by variables of the list. The parents of the next layer have the order of
the highest one, and no entry is that of the zero index. -/
theorem indices (h : Complete base vars d t) :
    (∀ parent ∈ t.parents, parent.1.order = t.order ∧ parent.1.Within vars) ∧
      ∀ entry ∈ t.entries, 0 < entry.1.order ∧ entry.1.Within vars := by
  induction h with
  | fresh =>
    refine ⟨List.forall_mem_singleton.mpr ⟨rfl, fun v hv => ?_⟩, List.forall_mem_nil _⟩
    rw [MultiIndex.count_zero] at hv
    cases hv
  | @next t layer h hlayer ih =>
    obtain ⟨hparents, hentries⟩ := ih
    have hnew : ∀ entry ∈ layer, entry.1.order = t.order + 1 ∧ entry.1.Within vars := by
      intro entry hentry
      obtain ⟨task, htask, hgives⟩ := exists_left_of_forall₂ hlayer hentry
      obtain ⟨hparent, hv⟩ := mem_nextTasks htask
      obtain ⟨horder, hwithin⟩ := hparents _ hparent
      rw [hgives.1, MultiIndex.order_bump, horder]
      exact ⟨rfl, MultiIndex.within_bump hwithin (h.fields.2.1 ▸ hv)⟩
    constructor
    · rw [DerivativeTable.parents, List.getLast?_append, List.getLast?_singleton, order_append]
      exact hnew
    · rw [DerivativeTable.entries, List.flatten_append, List.flatten_singleton]
      refine List.forall_mem_append.mpr ⟨hentries, fun entry hentry => ?_⟩
      obtain ⟨horder, hwithin⟩ := hnew entry hentry
      exact ⟨horder ▸ Nat.succ_pos t.order, hwithin⟩

/-- A complete table has one derivative for each task, which never changes. -/
theorem unique (h : Complete base vars d t) (h' : Complete base vars d t')
    (horder : t.order = t'.order) : t = t' := by
  induction h generalizing t' with
  | fresh =>
    cases h' with
    | fresh => rfl
    | next => cases horder.trans (order_append _ _)
  | @next t layer _ hlayer ih =>
    cases h' with
    | fresh => cases (order_append _ _).symm.trans horder
    | @next t' layer' h' hlayer' =>
      rw [order_append, order_append, Nat.succ.injEq] at horder
      obtain rfl := ih h' horder
      have hunique : Relator.RightUnique (Gives (K := K) d) := fun _ _ _ hb hc => hb.unique hc
      rw [hunique.forall₂ hlayer hlayer']

/-- Below the order of a complete table every task has its result. -/
theorem exists_below (h : Complete base vars d t) {n : Nat} (hn : n < t.order) :
    ∃ below layer, Complete base vars d below ∧ below.order = n ∧
      List.Forall₂ (Gives d) below.nextTasks layer := by
  induction h with
  | fresh => cases hn
  | @next t layer h hlayer ih =>
    rw [order_append] at hn
    rcases Nat.lt_succ_iff_lt_or_eq.mp hn with hlt | rfl
    · exact ih hlt
    · exact ⟨t, layer, h, rfl, hlayer⟩

/-! ### One layer -/

section Step

variable (h : Complete base vars d t) (horder : t.order < maxOrder)

include h horder

/-- The steps of the table run its tasks. -/
theorem child_iff (htask : task ∈ t.nextTasks) :
    (∀ entry, t.child task.1 task.2 = .ok entry ↔ Gives d task entry) ∧
      ∀ error, t.child task.1 task.2 = .error error ↔ Fails d task error := by
  have hparent : task.1.1.order < maxOrder := by
    rw [(h.indices.1 _ (mem_nextTasks htask).1).1]
    exact horder
  obtain ⟨-, -, rfl⟩ := h.fields
  exact ⟨fun entry => child_eq_ok_iff hparent, fun error => child_eq_error_iff hparent⟩

/-- **Step.** The next layer has the results of all its tasks, -/
theorem nextLayer_eq_ok_iff :
    t.nextLayer = .ok layer ↔ List.Forall₂ (Gives d) t.nextTasks layer := by
  have hstep : ∀ task ∈ t.nextTasks, ∀ entry,
      t.child task.1 task.2 = .ok entry ↔ Gives d task entry :=
    fun task htask => (h.child_iff horder htask).1
  rw [nextLayer_eq_mapM, mapM_eq_ok_iff]
  constructor
  · intro hall
    refine ((List.forall₂_and_left _ _).mpr ⟨hstep, hall⟩).imp ?_
    exact fun task entry hboth => (hboth.1 entry).mp hboth.2
  · intro hall
    refine ((List.forall₂_and_left _ _).mpr ⟨hstep, hall⟩).imp ?_
    exact fun task entry hboth => (hboth.1 entry).mpr hboth.2

/-- or there is none, with the error of the first task that fails. -/
theorem nextLayer_eq_error_iff : t.nextLayer = .error error ↔ StopsWith d t error := by
  rw [nextLayer_eq_mapM, mapM_eq_error_iff]
  refine exists_congr fun front => exists_congr fun task => exists_congr fun back => ?_
  refine and_congr_right fun htasks => ?_
  have hmem : ∀ {other}, other ∈ front ++ task :: back → other ∈ t.nextTasks :=
    fun hother => htasks.symm ▸ hother
  have hfront : ∀ earlier ∈ front, ∀ entry,
      t.child earlier.1 earlier.2 = .ok entry ↔ Gives d earlier entry :=
    fun earlier hearlier => (h.child_iff horder (hmem (List.mem_append_left _ hearlier))).1
  refine and_congr (forall₂_congr fun earlier hearlier => ?_) ?_
  · exact exists_congr (hfront earlier hearlier)
  · exact (h.child_iff horder (hmem List.mem_append_cons_self)).2 error

end Step

/-- Where a task of the next layer fails, one of them is the first. -/
theorem exists_stopsWith (h : Complete base vars d t) (horder : t.order < maxOrder)
    (htask : task ∈ t.nextTasks) (hfails : Fails d task error) :
    ∃ error, StopsWith d t error := by
  cases hnext : t.nextLayer with
  | error error => exact ⟨error, (h.nextLayer_eq_error_iff horder).mp hnext⟩
  | ok layer =>
    obtain ⟨entry, -, hgives⟩ :=
      exists_right_of_forall₂ ((h.nextLayer_eq_ok_iff horder).mp hnext) htask
    exact absurd hfails hgives.not_fails

end Complete

theorem StopsWith.exists_fails (h : StopsWith d t error) :
    ∃ task ∈ t.nextTasks, Fails d task error := by
  obtain ⟨front, task, back, htasks, -, hfails⟩ := h
  exact ⟨task, htasks ▸ List.mem_append_cons_self, hfails⟩

/-! ### Runs -/

/-- A layer with a task that fails is never added. -/
theorem Complete.order_le_of_stops (h : Complete base vars d t) (hstops : StopsWith d t error)
    (h' : Complete base vars d t') : t'.order ≤ t.order := by
  by_contra hlt
  obtain ⟨below, layer, hbelow, horder, hlayer⟩ := h'.exists_below (Nat.lt_of_not_le hlt)
  obtain rfl := hbelow.unique h horder
  obtain ⟨task, htask, hfails⟩ := hstops.exists_fails
  obtain ⟨entry, -, hgives⟩ := exists_right_of_forall₂ hlayer htask
  exact hgives.not_fails hfails

/-- How an extension of a table ends: with the layers that it was asked for, or below a layer
with a task that fails. -/
inductive Ends (d : Differentiator) (n : Nat) : DerivativeTable K × Except Error Unit → Prop
  | reached {t : DerivativeTable K} : t.order = n → Ends d n (t, .ok ())
  | stopped {t : DerivativeTable K} {error : Error} : t.order < n → StopsWith d t error →
    Ends d n (t, .error error)

/-- **Run.** An extension adds complete layers and ends in one of the two ways. -/
theorem Complete.extend {count : Nat} (h : Complete base vars d t)
    (hcount : t.order + count ≤ maxOrder) :
    Complete base vars d (extend count t).1 ∧ Ends d (t.order + count) (extend count t) := by
  induction count generalizing t with
  | zero => exact ⟨h, .reached rfl⟩
  | succ count ih =>
    have horder : t.order < maxOrder := by omega
    rw [DerivativeTable.extend]
    cases hnext : t.nextLayer with
    | error error =>
      exact ⟨h, .stopped (Nat.lt_add_of_pos_right (Nat.succ_pos count))
        ((h.nextLayer_eq_error_iff horder).mp hnext)⟩
    | ok layer =>
      have hlayer := h.next ((h.nextLayer_eq_ok_iff horder).mp hnext)
      have heq : t.order + (count + 1) = t.order + 1 + count := by omega
      rw [← order_append t layer] at heq
      rw [heq]
      exact ih hlayer (by omega)

section Order

variable {order : DerivativeOrder}

theorem extendTo_of_le_order (hle : order.toNat ≤ t.order) : t.extendTo order = (t, .ok ()) := by
  rw [extendTo, Nat.sub_eq_zero_of_le hle, DerivativeTable.extend]

theorem Complete.extendTo (h : Complete base vars d t) (hle : t.order ≤ order.toNat) :
    Complete base vars d (t.extendTo order).1 ∧ Ends d order.toNat (t.extendTo order) := by
  have hcount : t.order + (order.toNat - t.order) = order.toNat := Nat.add_sub_of_le hle
  have hextend := h.extend (hcount.trans_le order.le_max)
  rwa [hcount] at hextend

/-- A table that stops is extended in vain. -/
theorem Complete.extendTo_of_stops (h : Complete base vars d t) (hlt : t.order < order.toNat)
    (hstops : StopsWith d t error) : t.extendTo order = (t, .error error) := by
  have hsub : order.toNat - t.order = order.toNat - t.order - 1 + 1 := by omega
  rw [DerivativeTable.extendTo, hsub, DerivativeTable.extend,
    (h.nextLayer_eq_error_iff (hlt.trans_le order.le_max)).mpr hstops]

end Order

/-! ### Histories -/

/-- The table that extensions up to some order arrive at. -/
structure Settled (base : Expr K) (vars : VariableList) (d : Differentiator) (n : Nat)
    (t : DerivativeTable K) : Prop where
  complete : Complete base vars d t
  order_le : t.order ≤ n
  stops : t.order < n → ∃ error, StopsWith d t error

theorem settled_fresh : Settled base vars d 0 (fresh base vars d) :=
  ⟨.fresh, le_rfl, fun h => absurd h (Nat.not_lt_zero _)⟩

namespace Settled

variable {n : Nat} {order : DerivativeOrder}

theorem order_le_of_settled (h : Settled base vars d n t) (h' : Settled base vars d n t') :
    t'.order ≤ t.order := by
  rcases Nat.lt_or_eq_of_le h.order_le with hlt | heq
  · obtain ⟨error, hstops⟩ := h.stops hlt
    exact h.complete.order_le_of_stops hstops h'.complete
  · exact heq ▸ h'.order_le

/-- There is only one such table. -/
theorem unique (h : Settled base vars d n t) (h' : Settled base vars d n t') : t = t' :=
  h.complete.unique h'.complete
    (Nat.le_antisymm (h'.order_le_of_settled h) (h.order_le_of_settled h'))

/-- **Step.** An extension leads from one such table to another. -/
theorem extendTo (h : Settled base vars d n t) :
    Settled base vars d (max n order.toNat) (t.extendTo order).1 := by
  rcases Nat.lt_or_ge t.order order.toNat with hlt | hge
  · rcases Nat.lt_or_eq_of_le h.order_le with hshort | rfl
    · obtain ⟨error, hstops⟩ := h.stops hshort
      rw [h.complete.extendTo_of_stops hlt hstops]
      exact ⟨h.complete, h.order_le.trans (Nat.le_max_left _ _), fun _ => ⟨error, hstops⟩⟩
    · obtain ⟨hcomplete, hends⟩ := h.complete.extendTo hlt.le
      rw [Nat.max_eq_right hlt.le]
      generalize t.extendTo order = out at hcomplete hends
      cases hends with
      | reached horder => exact ⟨hcomplete, horder.le, fun h => absurd horder h.ne⟩
      | stopped horder hstops => exact ⟨hcomplete, horder.le, fun _ => ⟨_, hstops⟩⟩
  · rw [extendTo_of_le_order hge, Nat.max_eq_left (hge.trans h.order_le)]
    exact h

/-- **Run.** After any extensions the table is that of the largest order asked for. -/
theorem extendAll (h : Settled base vars d n t) (orders : List DerivativeOrder) :
    Settled base vars d ((orders.map DerivativeOrder.toNat).foldl max n) (t.extendAll orders) := by
  induction orders generalizing n t with
  | nil => exact h
  | cons order orders ih => exact ih h.extendTo

end Settled

/-! ### Failures -/

/-- How a table is extended to an order, whatever extensions it has behind it. -/
structure Resumes (base : Expr K) (vars : VariableList) (d : Differentiator)
    (t : DerivativeTable K) (order : DerivativeOrder) : Prop where
  /-- The extension fails if one of the tasks up to the order fails. -/
  fails_iff : (∃ error, (t.extendTo order).2 = .error error) ↔
    ∃ below task error, Complete base vars d below ∧ below.order < order.toNat ∧
      task ∈ below.nextTasks ∧ Fails d task error
  /-- Its error is that of the first such task, and the table is left with the complete layers
  below that task. -/
  stops : ∀ error, (t.extendTo order).2 = .error error →
    Complete base vars d (t.extendTo order).1 ∧ (t.extendTo order).1.order < order.toNat ∧
      StopsWith d (t.extendTo order).1 error
  /-- Otherwise all layers up to the order are complete. -/
  reaches : (t.extendTo order).2 = .ok () →
    Complete base vars d (t.extendTo order).1 ∧ order.toNat ≤ (t.extendTo order).1.order
  /-- What was there is left as it was. -/
  keeps_layers : t.layers <+: (t.extendTo order).1.layers
  keeps : ∀ index e, t.get? index = some e → (t.extendTo order).1.get? index = some e
  /-- To extend the table once more changes nothing, and fails with the same error. -/
  repeats : (t.extendTo order).1.extendTo order = t.extendTo order

/-- The layers of a table stay in front of new ones, and with them its entries. -/
theorem keeps_extend (t : DerivativeTable K) (count : Nat) :
    t.layers <+: (extend count t).1.layers ∧
      ∀ index e, t.get? index = some e → (extend count t).1.get? index = some e := by
  obtain ⟨added, htable, -⟩ := extend_front count t
  rw [htable]
  refine ⟨List.prefix_append _ _, fun index e hget => ?_⟩
  unfold get? entries at hget ⊢
  split_ifs at hget ⊢ with hzero
  · exact hget
  · rw [List.flatten_append, List.lookup_append, hget]
    rfl

theorem Complete.resumes (h : Complete base vars d t) (order : DerivativeOrder) :
    Resumes base vars d t order := by
  obtain ⟨hlayers, hentries⟩ := keeps_extend t (order.toNat - t.order)
  have hends : Complete base vars d (t.extendTo order).1 ∧
      ((t.extendTo order).2 = .ok () ∧ order.toNat ≤ (t.extendTo order).1.order ∨
        ∃ error, (t.extendTo order).2 = .error error ∧
          (t.extendTo order).1.order < order.toNat ∧ StopsWith d (t.extendTo order).1 error) := by
    rcases Nat.le_total t.order order.toNat with hle | hge
    · obtain ⟨hcomplete, hends⟩ := h.extendTo hle
      generalize t.extendTo order = out at hcomplete hends
      cases hends with
      | reached horder => exact ⟨hcomplete, .inl ⟨rfl, horder.ge⟩⟩
      | stopped horder hstops => exact ⟨hcomplete, .inr ⟨_, rfl, horder, hstops⟩⟩
    · rw [extendTo_of_le_order hge]
      exact ⟨h, .inl ⟨rfl, hge⟩⟩
  obtain ⟨hcomplete, ⟨hok, hreached⟩ | ⟨error, herror, hlt, hstops⟩⟩ := hends
  · refine ⟨?_, ?_, fun _ => ⟨hcomplete, hreached⟩, hlayers, hentries, ?_⟩
    · refine iff_of_false ?_ ?_
      · rintro ⟨error, herror⟩
        cases hok.symm.trans herror
      · rintro ⟨below, task, error, hbelow, hlt, htask, hfails⟩
        obtain ⟨error', hstops⟩ :=
          hbelow.exists_stopsWith (hlt.trans_le order.le_max) htask hfails
        have hle := hbelow.order_le_of_stops hstops hcomplete
        omega
    · intro error herror
      cases hok.symm.trans herror
    · rw [extendTo_of_le_order hreached, ← hok]
  · refine ⟨?_, ?_, ?_, hlayers, hentries, ?_⟩
    · obtain ⟨task, htask, hfails⟩ := hstops.exists_fails
      exact iff_of_true ⟨error, herror⟩ ⟨_, task, error, hcomplete, hlt, htask, hfails⟩
    · intro error' herror'
      cases herror.symm.trans herror'
      exact ⟨hcomplete, hlt, hstops⟩
    · intro hok
      cases herror.symm.trans hok
    · rw [hcomplete.extendTo_of_stops hlt hstops, ← herror]

/-- **Failing extensions lose nothing and leave no trace.** After any extensions the table is the
one that the largest order alone would have left, and every further extension computes what is
missing, fails if and as one of the missing tasks fails, and keeps what was complete. -/
theorem resumes_extendAll (base : Expr K) (vars : VariableList) (d : Differentiator)
    (orders : List DerivativeOrder) :
    (∀ largest ∈ orders, (∀ order ∈ orders, order.toNat ≤ largest.toNat) →
      extendAll (fresh base vars d) orders = ((fresh base vars d).extendTo largest).1) ∧
    ∀ order, Resumes base vars d (extendAll (fresh base vars d) orders) order := by
  have hfresh : Settled base vars d 0 (fresh base vars d) := settled_fresh
  have hsettled := hfresh.extendAll orders
  refine ⟨fun largest hlargest hall => ?_, hsettled.complete.resumes⟩
  have hmax : (0 :: orders.map DerivativeOrder.toNat).max? = some largest.toNat := by
    refine List.max?_eq_some_iff.mpr ⟨List.mem_cons_of_mem _ (List.mem_map_of_mem hlargest), ?_⟩
    exact List.forall_mem_cons.mpr ⟨Nat.zero_le _, List.forall_mem_map.mpr hall⟩
  have hfold : (orders.map DerivativeOrder.toNat).foldl max 0 = max 0 largest.toNat :=
    (Option.some.inj hmax).trans (Nat.zero_max _).symm
  rw [hfold] at hsettled
  exact hsettled.unique hfresh.extendTo

/-- A cube over doubles, with a limit that its second derivative exceeds. -/
theorem resumes_cube :
    let base : Expr Double := .pow (.sym "ra") (.num (Literal.ofInt 3))
    let vars : VariableList := ⟨[.rb, .ra], by decide, by decide⟩
    let d : Differentiator := { simplify := false, maxNodes := some 5 }
    let orders : List DerivativeOrder := [.third, .first]
    let t := extendAll (fresh base vars d) orders
    (DerivativeOrder.third ∈ orders ∧
        ∀ order ∈ orders, order.toNat ≤ DerivativeOrder.third.toNat) ∧
      (t.order = 1 ∧ (t.extendTo .second).2 = .error .nodeLimit) ∧
      t = ((fresh base vars d).extendTo .third).1 ∧
      ∀ order, Resumes base vars d t order := by
  intro base vars d orders t
  have hlargest : DerivativeOrder.third ∈ orders := List.mem_cons_self
  have hall : ∀ order ∈ orders, order.toNat ≤ DerivativeOrder.third.toNat := by
    simp [orders, DerivativeOrder.third, DerivativeOrder.first]
  obtain ⟨hhistory, hresumes⟩ := resumes_extendAll base vars d orders
  exact ⟨⟨hlargest, hall⟩, ⟨by decide +kernel, by decide +kernel⟩,
    hhistory .third hlargest hall, hresumes⟩

end DensityKernel.DerivativeTable
