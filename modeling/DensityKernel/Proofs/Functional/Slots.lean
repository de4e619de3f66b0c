import DensityKernel.Functional.Code
import DensityKernel.Functional.Values
import DensityKernel.Proofs.C.Routine
import DensityKernel.Proofs.Density.Hereditary
import DensityKernel.Proofs.Formula.Names
import DensityKernel.Proofs.Number.Numeral

/-!
The generated code and the values at a density point take the same derivatives.
A routine is a text, with guards that are braced or not and statements that are
commented out line by line; the values are computed from the tables. Read as C
at a density point, the routine adds to the slots of just those derivatives that
have values there, but for those whose text is that of zero.
-/

namespace DensityKernel

open C Literal

namespace Functional

/-! ### Names -/

theorem isWordChar_toLower {c : Char} (h : isWordChar c = true) : isWordChar c.toLower = true := by
  cases halpha : c.isAlpha with
  | true => simp [isWordChar, Char.isAlphanum, halpha]
  | false =>
    have hupper : ¬c.isUpper := fun hupper => by simp [Char.isAlpha, hupper] at halpha
    rwa [Char.toLower_eq_of_not_isUpper hupper]

theorem isWordChar_toUpper {c : Char} (h : isWordChar c = true) : isWordChar c.toUpper = true := by
  cases halpha : c.isAlpha with
  | true => simp [isWordChar, Char.isAlphanum, halpha]
  | false =>
    have hlower : ¬c.isLower := fun hlower => by simp [Char.isAlpha, hlower] at halpha
    rwa [Char.toUpper_eq_of_not_isLower hlower]

theorem isWordChar_of_isIdentifier {s : String} (h : isIdentifier s = true) :
    ∀ c ∈ s.toList, isWordChar c = true := by
  obtain ⟨c, cs, hs, hc, hcs⟩ := Formula.exists_cons_of_isIdentifier h
  rw [hs]
  refine List.forall_mem_cons.mpr ⟨?_, hcs⟩
  rw [Token.startsName, Bool.or_eq_true] at hc
  rw [isWordChar, Char.isAlphanum, Bool.or_eq_true, Bool.or_eq_true]
  exact hc.imp_left .inl

section Names

variable {K : Type} [Literal K] [Spelling K] {f : Functional K}

theorem isIdentifier_of_validate (h : f.validate = .ok ()) : isIdentifier f.title = true := by
  unfold validate at h
  split_ifs at h with htitle
  all_goals simpa using htitle

/-- The routines of a valid functional are named by a word. -/
theorem isName_of_validate (h : f.validate = .ok ()) : IsName f.name := by
  have htitle := isIdentifier_of_validate h
  refine ⟨?_, fun c hc => ?_⟩
  · obtain ⟨c, cs, hs, -⟩ := Formula.exists_cons_of_isIdentifier htitle
    intro hempty
    have hlist := congrArg String.toList hempty
    rw [name, String.toList_map, hs] at hlist
    simp at hlist
  · rw [name, String.toList_map] at hc
    obtain ⟨d, hd, rfl⟩ := List.mem_map.mp hc
    exact isWordChar_toLower (isWordChar_of_isIdentifier htitle d hd)

/-- A threshold is valid only where the spins have channels of their own. -/
theorem isDecoupled_of_threshold (h : f.validate = .ok ()) (hthreshold : f.threshold.isSome = true) :
    f.isDecoupled = true := by
  obtain ⟨t, ht⟩ := Option.isSome_iff_exists.mp hthreshold
  by_contra hcoupled
  have hfault : f.checkThreshold = .error (.invalidConfig .thresholdWithoutChannels) := by
    simp [checkThreshold, ht, hcoupled]
  unfold validate at h
  simp [hfault, bind, Except.bind] at h
  split_ifs at h

/-- Without a threshold and channels for the spins, all channels count everywhere. -/
theorem isActive_of_unguarded (h : f.validate = .ok ())
    (hguards : ¬(f.threshold.isSome && f.isDecoupled) = true) (c : Channel K)
    (point : DensityPoint K) : f.isActive c point = true := by
  cases hthreshold : f.threshold with
  | none => rw [isActive, hthreshold]
  | some t =>
    have hsome : f.threshold.isSome = true := by rw [hthreshold, Option.isSome_some]
    exact absurd (Bool.and_eq_true_iff.mpr ⟨hsome, isDecoupled_of_threshold h hsome⟩) hguards

omit [Literal K] [Spelling K] in
theorem comparison_thresholdName (h : IsName f.name) (v : Variable) :
    Comparison v.accessor (thresholdName f.name) where
  left := by
    have hall : v.accessor.toList.all
        (fun c => decide (isWordChar c = true ∨ c = '-' ∨ c = '>')) = true := by
      cases v <;> decide
    exact fun c hc => of_decide_eq_true (List.all_eq_true.mp hall c hc)
  right := by
    rw [thresholdName, String.toList_append, String.toList_map]
    refine List.forall_mem_append.mpr ⟨fun c hc => ?_,
      List.all_eq_true.mp (by decide : "_THRESHOLD".toList.all isWordChar = true)⟩
    obtain ⟨d, hd, rfl⟩ := List.mem_map.mp hc
    exact isWordChar_toUpper (h.2 d hd)

end Names

/-! ### Channels and tables -/

section Points

variable {K : Type} [Literal K] [Spelling K] [DecidableEq K] {f : Functional K}
  {order : DerivativeOrder} {point : DensityPoint K}
  {tables : List (Channel K × DerivativeTable K)}

/-- What the conditions of a routine say at a point: each compares a density with the
threshold. -/
def holdsAt (f : Functional K) (point : DensityPoint K) (condition : List Char) : Bool :=
  Variable.all.any fun v =>
    condition == aboveThreshold v.accessor (thresholdName f.name) &&
      f.threshold.any fun t => Literal.lt t (point.value v)

omit [Spelling K] [DecidableEq K] in
theorem holdsAt_aboveThreshold (v : Variable) :
    f.holdsAt point (aboveThreshold v.accessor (thresholdName f.name)) =
      f.threshold.any fun t => Literal.lt t (point.value v) := by
  have haccessor : ∀ w : Variable, (aboveThreshold v.accessor (thresholdName f.name) ==
      aboveThreshold w.accessor (thresholdName f.name)) = decide (v = w) := by
    intro w
    rw [Bool.eq_iff_iff, beq_iff_eq, decide_eq_true_iff, aboveThreshold, aboveThreshold,
      List.append_cancel_right_eq, String.toList_inj]
    cases v <;> cases w <;> decide
  simp only [holdsAt, haccessor]
  cases v <;> simp [Variable.all]

/-- The channel has an expression of the functional, and a density if there is one for each spin. -/
structure HasChannel (f : Functional K) (c : Channel K) : Prop where
  expr_mem : c.expr ∈ f.exprs
  density : f.isDecoupled = true → ∃ v, c.density = some v

omit [Literal K] [Spelling K] [DecidableEq K] in
theorem hasChannel_of_channelList {channels : List (Channel K)} (h : f.channelList = .ok channels) :
    ∀ c ∈ channels, f.HasChannel c := by
  unfold channelList at h
  split at h
  · next e he =>
    obtain ⟨vars, -, h⟩ := bind_eq_ok_iff.mp h
    cases h
    exact List.forall_mem_singleton.mpr ⟨by simp [exprs, he], by simp [isDecoupled, he]⟩
  · next alpha beta he =>
    cases h
    intro c hc
    simp only [List.mem_cons, List.not_mem_nil, or_false] at hc
    rcases hc with rfl | rfl
    · exact ⟨by simp [exprs, he], fun _ => ⟨_, rfl⟩⟩
    · exact ⟨by simp [exprs, he], fun _ => ⟨_, rfl⟩⟩

/-- The table of a channel up to an order. -/
def tableOf (f : Functional K) (order : DerivativeOrder) (c : Channel K) : DerivativeTable K :=
  (DerivativeTable.extendTo ⟨c.expr, c.vars, f.differentiator, []⟩ order).1

/-- The tables of a functional are those of its channels, in order. -/
theorem exists_tables_eq_map (h : f.tables order = .ok tables) :
    f.validate = .ok () ∧ ∃ channels, f.channelList = .ok channels ∧
      tables = channels.map fun c => (c, f.tableOf order c) := by
  obtain ⟨⟨⟩, hvalid, h⟩ := bind_eq_ok_iff.mp h
  obtain ⟨channels, hchannels, h⟩ := bind_eq_ok_iff.mp h
  refine ⟨hvalid, channels, hchannels, ?_⟩
  refine (List.map_id tables).symm.trans (map_eq_of_mapM h fun c _ pair hpair => ?_)
  obtain ⟨-, -, hpair⟩ := bind_eq_ok_iff.mp hpair
  exact (Except.ok.inj hpair).symm

theorem tables_eq_ok (h : f.tables order = .ok tables) :
    f.validate = .ok () ∧ ∀ pair ∈ tables, f.HasChannel pair.1 ∧
      pair.2 = (DerivativeTable.extendTo ⟨pair.1.expr, pair.1.vars, f.differentiator, []⟩ order).1 := by
  obtain ⟨hvalid, channels, hchannels, rfl⟩ := exists_tables_eq_map h
  refine ⟨hvalid, List.forall_mem_map.mpr fun c hc => ⟨?_, rfl⟩⟩
  exact hasChannel_of_channelList hchannels c hc

/-- The derivatives of parsed expressions are over identifiers. -/
theorem over_upTo (hparsed : ∀ e ∈ f.exprs, ∃ formula, Expr.parse formula = .ok e)
    (h : f.tables order = .ok tables) {pair : Channel K × DerivativeTable K}
    (hpair : pair ∈ tables) (order' : DerivativeOrder) :
    ∀ entry ∈ pair.2.upTo order', entry.2.Over (isIdentifier · = true) := by
  obtain ⟨hchannel, htable⟩ := (tables_eq_ok h).2 pair hpair
  obtain ⟨formula, hformula⟩ := hparsed _ hchannel.expr_mem
  rw [htable]
  have hfresh : (⟨pair.1.expr, pair.1.vars, f.differentiator, []⟩ : DerivativeTable K).Everywhere
      (Expr.Over (isIdentifier · = true)) :=
    ⟨Expr.over_of_parse hformula, List.forall_mem_nil _⟩
  exact (Expr.hereditary_over.extend _ hfresh).upTo order'

/-! ### Derivatives at a point -/

/-- The derivatives of the channels that count at a point. -/
def entriesAt (f : Functional K) (tables : List (Channel K × DerivativeTable K))
    (order : DerivativeOrder) (point : DensityPoint K) : Layer K :=
  (tables.filter (f.isActive ·.1 point)).flatMap (·.2.upTo order)

/-- A derivative and its value at a point. -/
def Valued (point : DensityPoint K) (entry : MultiIndex × Expr K) (value : MultiIndex × K) : Prop :=
  value.1 = entry.1 ∧ entry.2.eval point.assignment = .ok value.2

/-- The values at a point are those of the derivatives of the channels that count. -/
theorem derivativesAt_eq_ok {values : List (MultiIndex × K)}
    (h : f.derivativesAt order point = .ok values) :
    f.factor = "" ∧ ∃ tables, f.tables order = .ok tables ∧
      List.Forall₂ (Valued point) (f.entriesAt tables order point) values := by
  obtain ⟨⟨⟩, hfactor, h⟩ := bind_eq_ok_iff.mp h
  obtain ⟨tables, htables, h⟩ := bind_eq_ok_iff.mp h
  obtain ⟨lists, hlists, h⟩ := bind_eq_ok_iff.mp h
  cases h
  refine ⟨?_, tables, htables, ?_⟩
  · unfold checkFactor at hfactor
    split_ifs at hfactor with hempty
    exact String.isEmpty_iff.mp hempty
  · rw [entriesAt, List.flatMap_def]
    refine List.rel_flatten ?_
    rw [List.forall₂_map_left_iff]
    refine (mapM_eq_ok_iff.mp hlists).imp fun pair list hlist => ?_
    refine (mapM_eq_ok_iff.mp hlist).imp fun entry value hvalue => ?_
    obtain ⟨x, hx, hvalue⟩ := bind_eq_ok_iff.mp hvalue
    cases hvalue
    exact ⟨rfl, hx⟩

end Points

/-! ### Blocks of statements -/

/-- Identifiers are written in C with characters that can stand inside an expression. -/
theorem inline_resolve {name : String} (h : isIdentifier name = true) :
    Inline (SymbolMap.density.resolve name) := by
  rw [SymbolMap.resolve]
  cases hlookup : SymbolMap.density.entries.lookup name with
  | none =>
    exact inline_iff.mpr fun c hc => isInline_of_isWordChar (isWordChar_of_isIdentifier h c hc)
  | some text =>
    obtain ⟨front, back, hentries, -⟩ := List.lookup_eq_some_iff.mp hlookup
    have hinline : SymbolMap.density.entries.all (fun entry => decide (Inline entry.2)) = true := by
      decide
    have hmem : (name, text) ∈ SymbolMap.density.entries := by simp [hentries]
    exact of_decide_eq_true (List.all_eq_true.mp hinline (name, text) hmem)

section Written

variable {K : Type} [Literal K] [Spelling K]

/-- The text of the derivative is that of zero. -/
def rendersZero (e : Expr K) : Bool :=
  match render .density e with
  | .ok text => text == "0"
  | .error _ => false

/-- The slots of some derivatives, but for those whose text is that of zero. -/
def writtenSlots (entries : Layer K) : List String :=
  (entries.filter (!rendersZero ·.2)).map (·.1.slot)

theorem writtenSlots_append (entries entries' : Layer K) :
    writtenSlots (entries ++ entries') = writtenSlots entries ++ writtenSlots entries' := by
  rw [writtenSlots, List.filter_append, List.map_append]
  rfl

theorem flatten_writtenSlots (f : Functional K)
    (tables : List (Channel K × DerivativeTable K)) (order : DerivativeOrder)
    (point : DensityPoint K) :
    (tables.map fun pair =>
      if f.isActive pair.1 point then writtenSlots (pair.2.upTo order) else []).flatten =
      writtenSlots (f.entriesAt tables order point) := by
  induction tables with
  | nil => rfl
  | cons pair tables ih =>
    rw [List.map_cons, List.flatten_cons, ih, entriesAt, entriesAt, List.filter_cons]
    split
    · rw [List.flatMap_cons, writtenSlots_append]
    · rw [List.nil_append]

end Written

section Blocks

variable {K : Type} [Literal K] [Literal.Valued K] [Spelling K] [Literal.SpelledInC K]
  {f : Functional K} {table : DerivativeTable K} {order : DerivativeOrder}
  {point : DensityPoint K} {statements : List Statement} {text : String}

/-- The statements of a table hold its derivatives, and adding zero is the same for both. -/
theorem statements_spec
    (hover : ∀ entry ∈ table.upTo order, entry.2.Over (isIdentifier · = true))
    (h : f.format.statements table order = .ok statements) :
    (∀ s ∈ statements, Inline s.value) ∧
      (statements.filter (!·.isZero)).map Statement.slot = writtenSlots (table.upTo order) := by
  have hall := mapM_eq_ok_iff.mp h
  generalize table.upTo order = entries at hover hall
  rw [writtenSlots]
  clear h
  induction hall with
  | nil => exact ⟨List.forall_mem_nil _, rfl⟩
  | @cons entry s entries statements hs _ ih =>
    obtain ⟨hentry, hrest⟩ := List.forall_mem_cons.mp hover
    obtain ⟨hinline, hslots⟩ := ih hrest
    obtain ⟨text, htext, hs⟩ := bind_eq_ok_iff.mp hs
    cases hs
    have hrender : render .density entry.2 = .ok text := htext
    have hzero : rendersZero entry.2 = (⟨entry.1, text⟩ : Statement).isZero := by
      rw [rendersZero, hrender]
      rfl
    have hvalue : Inline text :=
      inline_render (fun s hs => inline_resolve (hentry s hs)) hrender
    refine ⟨List.forall_mem_cons.mpr ⟨hvalue, hinline⟩, ?_⟩
    rw [List.filter_cons, List.filter_cons, hzero]
    split
    · rw [List.map_cons, List.map_cons, hslots]
      rfl
    · exact hslots

omit [Literal K] [Literal.Valued K] [Spelling K] [Literal.SpelledInC K] in
theorem unscaled_format (hfactor : f.factor = "") (indent : String)
    (hindent : ∀ c ∈ indent.toList, c = ' ') (separate : Bool) :
    Unscaled { f.format with indent := indent, separateOrders := separate } :=
  ⟨rfl, hfactor, rfl, hindent⟩

/-- The block of a table without a guard fills its slots. -/
theorem fills_block (hfactor : f.factor = "")
    (hover : ∀ entry ∈ table.upTo order, entry.2.Over (isIdentifier · = true))
    (h : f.format.block table order = .ok text) (holds : List Char → Bool) :
    Fills holds text (writtenSlots (table.upTo order)) := by
  obtain ⟨statements, hstatements, h⟩ := bind_eq_ok_iff.mp h
  cases h
  obtain ⟨hinline, hslots⟩ := statements_spec hover hstatements
  refine ⟨_, .layout (unscaled_format hfactor _ (by simp) _) hinline, ?_⟩
  rw [filterMap_slot?_clauses, hslots]

/-- The block of a channel under its guard fills its slots where the channel counts. -/
theorem fills_guardedBlock (hfactor : f.factor = "") (hname : IsName f.name) {c : Channel K}
    (hc : f.HasChannel c) (hdecoupled : f.isDecoupled = true) (hthreshold : f.threshold.isSome = true)
    (hover : ∀ entry ∈ table.upTo order, entry.2.Over (isIdentifier · = true))
    (h : f.guardedBlock order (c, table) = .ok text) :
    Fills (f.holdsAt point) text
      (if f.isActive c point then writtenSlots (table.upTo order) else []) := by
  obtain ⟨v, hv⟩ := hc.density hdecoupled
  obtain ⟨t, ht⟩ := Option.isSome_iff_exists.mp hthreshold
  have hholds : f.holdsAt point (aboveThreshold v.accessor (thresholdName f.name)) =
      f.isActive c point := by
    rw [holdsAt_aboveThreshold, isActive, ht, hv]
    rfl
  obtain ⟨statements, hstatements, h⟩ := bind_eq_ok_iff.mp h
  cases h
  obtain ⟨hinline, hslots⟩ := statements_spec (f := f) hover hstatements
  have hguarded : Executes (f.holdsAt point) _ _ :=
    .guarded (unscaled_format hfactor "     " (by simp) false) hinline
      (comparison_thresholdName hname v)
  rw [hholds] at hguarded
  rw [hv]
  refine ⟨_, hguarded, ?_⟩
  split
  · rw [filterMap_slot?_clauses, hslots]
  · rfl

end Blocks

/-! ### Routines -/

section Routines

variable {f : Functional Double} {order : DerivativeOrder} {point : DensityPoint Double}

/-- **The generated code and the values at a point take the same derivatives.** Read as C at a
density point, the routine of a functional with parsed expressions adds to the slots of the
derivatives that have values there, in order, but for those whose text is that of zero. -/
theorem executedSlots_derivativeRoutine {values : List (MultiIndex × Double)} {text : String}
    (hparsed : ∀ e ∈ f.exprs, ∃ formula, Expr.parse formula = .ok e)
    (hvalues : f.derivativesAt order point = .ok values)
    (htext : f.derivativeRoutine order = .ok text) :
    ∃ tables, f.tables order = .ok tables ∧
      List.Forall₂ (Valued point) (f.entriesAt tables order point) values ∧
      executedSlots (f.holdsAt point) text =
        writtenSlots (f.entriesAt tables order point) := by
  obtain ⟨hfactor, tables, htables, hvalued⟩ := derivativesAt_eq_ok hvalues
  refine ⟨tables, htables, hvalued, ?_⟩
  obtain ⟨tables', htables', htext⟩ := bind_eq_ok_iff.mp htext
  obtain rfl : tables = tables' := Except.ok.inj (htables.symm.trans htables')
  obtain ⟨hvalid, hchannels⟩ := tables_eq_ok htables
  have hname := isName_of_validate hvalid
  rw [← flatten_writtenSlots]
  unfold derivativeText at htext
  split_ifs at htext with hguards
  · obtain ⟨hthreshold, hdecoupled⟩ := Bool.and_eq_true_iff.mp hguards
    obtain ⟨blocks, hblocks, htext⟩ := bind_eq_ok_iff.mp htext
    cases htext
    refine executedSlots_derivativeFrame hname
      (.join (forall₂_map_of_mapM hblocks fun pair hpair block hblock => ?_))
    exact fills_guardedBlock hfactor hname (hchannels pair hpair).1 hdecoupled hthreshold
      (over_upTo hparsed htables hpair order) hblock
  · obtain ⟨blocks, hblocks, htext⟩ := bind_eq_ok_iff.mp htext
    cases htext
    refine executedSlots_derivativeFrame hname
      (.intercalate (forall₂_map_of_mapM hblocks fun pair hpair block hblock => ?_))
    rw [if_pos (isActive_of_unguarded hvalid hguards pair.1 point)]
    exact fills_block hfactor (over_upTo hparsed htables hpair order) hblock _

/-- The densities of the spins as energies, each of which counts above one, at a point with
electrons of one spin. The second derivatives are zero, so both guards have a block with a comment
in it, and the routine adds to one slot. -/
theorem executedSlots_spinDensities :
    ∃ (f : Functional Double) (point : DensityPoint Double) (values : List (MultiIndex × Double))
      (text : String), (∀ e ∈ f.exprs, ∃ formula, Expr.parse formula = .ok e) ∧
      f.derivativesAt .second point = .ok values ∧ f.derivativeRoutine .second = .ok text ∧
      ∃ tables, f.tables .second = .ok tables ∧
        List.Forall₂ (Valued point) (f.entriesAt tables .second point) values ∧
        executedSlots (f.holdsAt point) text =
          writtenSlots (f.entriesAt tables .second point) ∧
        writtenSlots (f.entriesAt tables .second point) = ["df1000"] := by
  let f : Functional Double :=
    { title := "Spins", channels := .decoupled (.sym "ra") (.sym "rb"), threshold := some one }
  let point : DensityPoint Double := ⟨two, zero, zero, zero, zero⟩
  have hparsed : ∀ e ∈ f.exprs, ∃ formula, Expr.parse formula = .ok e :=
    List.forall_mem_cons.mpr ⟨⟨"ra", Expr.parse_identifier (by decide)⟩,
      List.forall_mem_singleton.mpr ⟨"rb", Expr.parse_identifier (by decide)⟩⟩
  have hvalues : f.derivativesAt .second point =
      .ok [(⟨1, 0, 0, 0, 0⟩, one), (⟨2, 0, 0, 0, 0⟩, zero)] := by decide
  obtain ⟨text, htext⟩ : ∃ text, f.derivativeRoutine .second = .ok text := by
    have hok : (f.derivativeRoutine .second).isOk = true := by decide
    cases htext : f.derivativeRoutine .second with
    | error e => simp [htext, Except.isOk, Except.toBool] at hok
    | ok text => exact ⟨text, rfl⟩
  obtain ⟨tables, htables, hvalued, hslots⟩ :=
    executedSlots_derivativeRoutine hparsed hvalues htext
  refine ⟨f, point, _, text, hparsed, hvalues, htext, tables, htables, hvalued, hslots, ?_⟩
  have hwritten : (f.tables .second).map
      (fun tables => writtenSlots (f.entriesAt tables .second point)) = .ok ["df1000"] := by
    decide +kernel
  rw [htables] at hwritten
  exact Except.ok.inj hwritten

end Routines

end Functional

end DensityKernel
