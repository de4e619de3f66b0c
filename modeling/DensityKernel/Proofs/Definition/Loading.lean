import DensityKernel.Definition.Basic
import DensityKernel.Literal.Double
import DensityKernel.Proofs.Definition.Parameters
import DensityKernel.Proofs.Formula.Errors
import DensityKernel.Proofs.Formula.Names

/-!
Loading definitions. A definition whose parameters can be read is refused for a
cycle exactly when there is one; otherwise its formulas are loaded with every
parameter replaced, and keep the value that they have with the parameters bound
to theirs.
-/

namespace DensityKernel

variable {K : Type} [Literal K] [Spelling K]

/-! ### Reading parameters -/

namespace Parameters

theorem read_eq_ok_iff {name text : String} {entry : String × Expr K} :
    read name text = .ok entry ↔
      Variable.ofName? name = none ∧ entry.1 = name ∧ Expr.parse text = .ok entry.2 := by
  rw [read]
  split_ifs with hvariable
  · constructor
    · nofun
    · rintro ⟨hnone, -⟩
      simp [hnone] at hvariable
  · rw [bind_eq_ok_iff]
    have hnone : Variable.ofName? name = none := by simpa using hvariable
    constructor
    · rintro ⟨e, hparse, ⟨⟩⟩
      exact ⟨hnone, rfl, hparse⟩
    · rintro ⟨-, rfl, hparse⟩
      exact ⟨entry.2, hparse, rfl⟩

/-- Parameters that can be read one by one can be read in the order of their names. -/
theorem exists_ofTexts {texts : List (String × String)}
    (hfree : ∀ name text, (name, text) ∈ texts → Variable.ofName? name = none)
    (hread : ∀ name text, (name, text) ∈ texts → ∃ e : Expr K, Expr.parse text = .ok e) :
    ∃ p : Parameters K, ofTexts texts = .ok p ∧
      ∀ name e, (name, e) ∈ p ↔ ∃ text, (name, text) ∈ texts ∧ Expr.parse text = .ok e := by
  obtain ⟨p, hp⟩ : ∃ p : Parameters K, ofTexts texts = .ok p := by
    refine exists_mapM_eq_ok ?_
    rintro ⟨name, text⟩ hmem
    have htexts : (name, text) ∈ texts := List.mem_mergeSort.mp hmem
    obtain ⟨e, he⟩ := hread name text htexts
    exact ⟨(name, e), read_eq_ok_iff.mpr ⟨hfree name text htexts, rfl, he⟩⟩
  refine ⟨p, hp, fun name e => ?_⟩
  constructor
  · intro he
    obtain ⟨⟨name', text⟩, hmem, hstep⟩ := exists_mem_of_mapM hp he
    obtain ⟨-, rfl, hparse⟩ := read_eq_ok_iff.mp hstep
    exact ⟨text, List.mem_mergeSort.mp hmem, hparse⟩
  · rintro ⟨text, hmem, hparse⟩
    refine mem_of_mapM hp (List.mem_mergeSort.mpr hmem) ?_
    exact read_eq_ok_iff.mpr ⟨hfree name text hmem, rfl, hparse⟩

end Parameters

/-! ### What a definition is refused for -/

/-- Whatever error a run ends with, it is not that of a cycle. -/
abbrev NoCycle {α : Type} : Except Error α → Prop :=
  Raises (· ≠ .invalidConfig .parameterCycle)

theorem FaultsInFormula.noCycle {α : Type} {run : Except Error α} (h : FaultsInFormula run) :
    NoCycle run := by
  rintro error herror rfl
  cases h _ herror

omit [Literal K] [Spelling K] in
theorem Functional.noCycle_channelList (f : Functional K) : NoCycle f.channelList := by
  unfold channelList
  split
  · refine .bind ?_ fun _ => .ok _
    unfold VariableList.coupled
    split <;> first | exact .ok _ | exact .raise nofun
  · exact .ok _

theorem Functional.noCycle_checkThreshold (f : Functional K) : NoCycle f.checkThreshold := by
  unfold checkThreshold
  split
  · exact .ok _
  · split_ifs <;> first | exact .ok _ | exact .raise nofun

omit [Literal K] [Spelling K] in
theorem Functional.noCycle_checkChannel (c : Channel K) : NoCycle (checkChannel c) := by
  unfold checkChannel
  split
  · exact .ok _
  · exact .raise nofun

theorem Functional.noCycle_validate (f : Functional K) : NoCycle f.validate := by
  unfold validate
  split_ifs
  · exact .raise nofun
  · exact .raise nofun
  · refine .bind f.noCycle_checkThreshold fun _ => ?_
    exact .bind f.noCycle_channelList fun channels => .forM noCycle_checkChannel channels

namespace Definition

variable {d : Definition K} {p resolved : Parameters K} {text : String} {e : Expr K}

theorem noCycle_load (p : Parameters K) (text : String) : NoCycle (load p text) :=
  .bind (Expr.faults_parse text).noCycle fun _ => .ok _

theorem noCycle_channels (d : Definition K) (p : Parameters K) : NoCycle (d.channels p) := by
  unfold channels
  split
  · exact .bind (noCycle_load _ _) fun _ => .ok _
  · exact .bind (noCycle_load _ _) fun _ => .bind (noCycle_load _ _) fun _ => .ok _
  · exact .raise nofun
  · exact .raise nofun

/-- Once the parameters are read, a cycle is reported if resolving them reports one. -/
theorem toFunctional_eq_cycle_iff (hp : Parameters.ofTexts d.parameters = .ok p) :
    d.toFunctional = .error (.invalidConfig .parameterCycle) ↔
      p.resolve = .error (.invalidConfig .parameterCycle) := by
  rw [toFunctional, hp]
  show (p.resolve >>= _) = _ ↔ _
  constructor
  · intro h
    rcases bind_eq_error_iff.mp h with h | ⟨resolved, -, h⟩
    · exact h
    · rcases bind_eq_error_iff.mp h with h | ⟨channels, -, h⟩
      · exact absurd rfl (d.noCycle_channels resolved _ h)
      · rcases bind_eq_error_iff.mp h with h | ⟨-, -, h⟩
        · exact absurd rfl (Functional.noCycle_validate _ _ h)
        · cases h
  · intro h
    rw [h]
    rfl

/-! ### The channels of a functional -/

/-- The texts of the channels, in order. -/
def channelTexts (d : Definition K) : List String :=
  d.expression.toList ++ d.alpha.toList ++ d.beta.toList

theorem load_eq_ok_iff : load p text = .ok e ↔ ∃ u, Expr.parse text = .ok u ∧ p.expand u = e := by
  rw [load, bind_eq_ok_iff]
  simp only [Except.ok.injEq]

/-- The expressions of a functional are the channel texts, loaded with the resolved parameters. -/
theorem forall₂_load_of_toFunctional {f : Functional K} (h : d.toFunctional = .ok f)
    (hp : Parameters.ofTexts d.parameters = .ok p) (hresolved : p.resolve = .ok resolved) :
    List.Forall₂ (fun text e => load resolved text = .ok e) d.channelTexts f.exprs := by
  obtain ⟨p', hp', h⟩ := bind_eq_ok_iff.mp h
  cases hp.symm.trans hp'
  obtain ⟨resolved', hresolved', h⟩ := bind_eq_ok_iff.mp h
  cases hresolved.symm.trans hresolved'
  obtain ⟨channels, hchannels, h⟩ := bind_eq_ok_iff.mp h
  obtain ⟨_, -, h⟩ := bind_eq_ok_iff.mp h
  cases h
  unfold Definition.channels at hchannels
  split at hchannels
  · rename_i hexpression halpha hbeta
    obtain ⟨e, he, ⟨⟩⟩ := bind_eq_ok_iff.mp hchannels
    rw [channelTexts, hexpression, halpha, hbeta]
    exact .cons he .nil
  · rename_i hexpression halpha hbeta
    obtain ⟨alpha, ha, hchannels⟩ := bind_eq_ok_iff.mp hchannels
    obtain ⟨beta, hb, ⟨⟩⟩ := bind_eq_ok_iff.mp hchannels
    rw [channelTexts, hexpression, halpha, hbeta]
    exact .cons ha (.cons hb .nil)
  · cases hchannels
  · cases hchannels

/-! ### Exactness -/

/-- The parameters of a definition as names with the expressions that their texts spell. -/
def naming (d : Definition K) : Naming K :=
  fun name e => ∃ text, (name, text) ∈ d.parameters ∧ Expr.parse text = .ok e

theorem single_naming (h : (d.parameters.map Prod.fst).Nodup) : d.naming.Single := by
  rintro a e e' ⟨text, hmem, he⟩ ⟨text', hmem', he'⟩
  obtain rfl : text = text' := congrArg Prod.snd (List.inj_on_of_nodup_map h hmem hmem' rfl)
  exact Except.ok.inj (he.symm.trans he')

/-- Loading with resolved parameters is exact: what is loaded mentions no parameter and has the
value of the formula in which every parameter is bound to the value of its own text. -/
structure LoadsExactly (d : Definition K) (resolved : Parameters K) : Prop where
  succeeds : ∀ text (e : Expr K), Expr.parse text = .ok e → ∃ loaded, load resolved text = .ok loaded
  free : ∀ text loaded, load resolved text = .ok loaded →
    ∀ entry ∈ d.parameters, loaded.mentions entry.1 = false
  value : ∀ text e loaded, Expr.parse text = .ok e → load resolved text = .ok loaded →
    ∀ env value, d.naming.Values env value → loaded.eval env = e.evalBy value

/-- Binding the parameters by an assignment that gives each of them the value of its own text. -/
theorem LoadsExactly.eval_eq (h : d.LoadsExactly resolved) {loaded : Expr K}
    (he : Expr.parse text = .ok e) (hload : load resolved text = .ok loaded)
    {env env' : String → Option K}
    (hnamed : ∀ a u, d.naming a u → ∃ x, env' a = some x ∧ u.eval env' = .ok x)
    (hother : ∀ s, ¬d.naming.Named s → env' s = env s) : loaded.eval env = e.eval env' := by
  rw [Expr.eval_eq_evalBy env' e]
  exact h.value text e loaded he hload env _ (Naming.values_of_assignment hnamed hother)

/-- **Parameters are resolved exactly.** For names that hide no variable and texts that can be
read, a cycle is reported if and only if a parameter refers to itself, directly or through others.
If none does, the parameters have values, only one each, and the channel expressions are loaded
exactly. -/
theorem toFunctional_resolves (hnames : (d.parameters.map Prod.fst).Nodup)
    (hfree : ∀ name text, (name, text) ∈ d.parameters → Variable.ofName? name = none)
    (hread : ∀ name text, (name, text) ∈ d.parameters → ∃ e : Expr K, Expr.parse text = .ok e) :
    (d.toFunctional = .error (.invalidConfig .parameterCycle) ↔ d.naming.Cyclic) ∧
      (¬d.naming.Cyclic → (∀ env, ∃! value, d.naming.Values env value) ∧
        ∃ resolved, (Parameters.ofTexts d.parameters >>= Parameters.resolve) = .ok resolved ∧
          d.LoadsExactly resolved ∧
          ∀ f, d.toFunctional = .ok f →
            List.Forall₂ (fun text e => load resolved text = .ok e) d.channelTexts f.exprs) := by
  obtain ⟨p, hp, hmem⟩ := Parameters.exists_ofTexts hfree hread
  have hnaming : p.naming = d.naming := funext fun a => funext fun e => propext (hmem a e)
  have hsingle : p.naming.Single := hnaming ▸ single_naming hnames
  have hcycle : d.toFunctional = .error (.invalidConfig .parameterCycle) ↔ d.naming.Cyclic := by
    rw [toFunctional_eq_cycle_iff hp, Parameters.resolve_eq_error_iff hsingle, hnaming]
  refine ⟨hcycle, fun hacyclic => ?_⟩
  obtain ⟨resolved, hresolved⟩ := Parameters.exists_resolve_eq_ok (hnaming ▸ hacyclic)
  refine ⟨hnaming ▸ Parameters.existsUnique_values hsingle hresolved, resolved, ?_, ?_, ?_⟩
  · rw [hp]
    exact hresolved
  · constructor
    · intro text e he
      exact ⟨_, load_eq_ok_iff.mpr ⟨e, he, rfl⟩⟩
    · rintro text loaded hload ⟨name, other⟩ hentry
      obtain ⟨u, -, rfl⟩ := load_eq_ok_iff.mp hload
      obtain ⟨e, he⟩ := hread name other hentry
      exact Parameters.not_mentions_expand hresolved u ⟨e, (hmem name e).mpr ⟨other, hentry, he⟩⟩
    · intro text e loaded he hload env value hvalue
      obtain ⟨u, hu, rfl⟩ := load_eq_ok_iff.mp hload
      cases he.symm.trans hu
      exact Parameters.eval_expand hresolved (hnaming ▸ hvalue) e
  · exact fun f hf => forall₂_load_of_toFunctional hf hp hresolved

/-- Two parameters of which the first one stands for the second one. -/
def chain (last : String) : Definition Double where
  name := "chain"
  parameters := [("A", "B"), ("B", last)]
  expression := some "A"

theorem naming_chain (last : String) (hlast : isIdentifier last = true) {a : String}
    {e : Expr Double} :
    (chain last).naming a e ↔ (a = "A" ∧ e = .sym "B") ∨ (a = "B" ∧ e = .sym last) := by
  have hB : Expr.parse "B" = .ok (.sym "B" : Expr Double) := Expr.parse_identifier (by decide)
  have hl : Expr.parse last = .ok (.sym last : Expr Double) := Expr.parse_identifier hlast
  constructor
  · rintro ⟨text, hmem, hparse⟩
    rcases List.mem_pair.mp hmem with heq | heq
    · obtain ⟨rfl, rfl⟩ := Prod.mk.inj heq
      exact .inl ⟨rfl, (Except.ok.inj (hB.symm.trans hparse)).symm⟩
    · obtain ⟨rfl, rfl⟩ := Prod.mk.inj heq
      exact .inr ⟨rfl, (Except.ok.inj (hl.symm.trans hparse)).symm⟩
  · rintro (⟨rfl, rfl⟩ | ⟨rfl, rfl⟩)
    · exact ⟨"B", List.mem_pair.mpr (.inl rfl), hB⟩
    · exact ⟨last, List.mem_pair.mpr (.inr rfl), hl⟩

theorem cyclic_chain : (chain "A").naming.Cyclic := by
  have hA := (naming_chain "A" (by decide)).mpr (.inl ⟨rfl, rfl⟩)
  have hB := (naming_chain "A" (by decide)).mpr (.inr ⟨rfl, rfl⟩)
  have hAB : (chain "A").naming.Refers "A" "B" := ⟨⟨_, hB⟩, _, hA, by decide⟩
  have hBA : (chain "A").naming.Refers "B" "A" := ⟨⟨_, hA⟩, _, hB, by decide⟩
  exact ⟨"A", .tail (.single hAB) hBA⟩

theorem not_cyclic_chain : ¬(chain "ra").naming.Cyclic := by
  have hrefers : ∀ a b, (chain "ra").naming.Refers a b → a = "A" ∧ b = "B" := by
    rintro a b ⟨⟨e', hb⟩, e, ha, hmention⟩
    have hname : b = "A" ∨ b = "B" :=
      ((naming_chain "ra" (by decide)).mp hb).imp And.left And.left
    rcases (naming_chain "ra" (by decide)).mp ha with ⟨rfl, rfl⟩ | ⟨rfl, rfl⟩
    · exact ⟨rfl, (beq_iff_eq.mp hmention).symm⟩
    · obtain rfl : "ra" = b := beq_iff_eq.mp hmention
      exact absurd hname (by decide)
  rintro ⟨a, h⟩
  obtain ⟨b, hab, -⟩ := Relation.TransGen.head'_iff.mp h
  obtain ⟨c, -, hca⟩ := Relation.TransGen.tail'_iff.mp h
  exact absurd ((hrefers a b hab).1.symm.trans (hrefers c a hca).2) (by decide)

/-- A cycle is reported; a chain that ends at a variable is expanded. -/
theorem toFunctional_resolves_chain :
    (chain "A").toFunctional = .error (.invalidConfig .parameterCycle) ∧
      ∃ resolved, (Parameters.ofTexts (chain "ra").parameters >>= Parameters.resolve) = .ok resolved ∧
        (chain "ra").LoadsExactly resolved := by
  have hfree (last : String) : ∀ name text, (name, text) ∈ (chain last).parameters →
      Variable.ofName? name = none := by
    intro name text hmem
    rcases List.mem_pair.mp hmem with heq | heq
    all_goals
      obtain ⟨rfl, -⟩ := Prod.mk.inj heq
      decide
  have hread (last : String) (hlast : isIdentifier last = true) : ∀ name text,
      (name, text) ∈ (chain last).parameters → ∃ e : Expr Double, Expr.parse text = .ok e := by
    intro name text hmem
    rcases List.mem_pair.mp hmem with heq | heq
    · obtain ⟨-, rfl⟩ := Prod.mk.inj heq
      exact ⟨_, Expr.parse_identifier (by decide)⟩
    · obtain ⟨-, rfl⟩ := Prod.mk.inj heq
      exact ⟨_, Expr.parse_identifier hlast⟩
  constructor
  · exact (toFunctional_resolves (by decide) (hfree "A") (hread "A" (by decide))).1.mpr cyclic_chain
  · obtain ⟨-, resolved, hresolved, hloads, -⟩ :=
      (toFunctional_resolves (by decide) (hfree "ra") (hread "ra" (by decide))).2 not_cyclic_chain
    exact ⟨resolved, hresolved, hloads⟩

end Definition

end DensityKernel
