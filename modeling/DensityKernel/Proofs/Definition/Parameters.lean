import DensityKernel.Definition.Parameters
import DensityKernel.Proofs.Expr.Substitution
import Mathlib.Data.Finset.Card
import Mathlib.Logic.Relation

/-!
Names that stand for expressions, and parameters as a list of them. A name
refers to another one that its expression mentions. Expanding all parameters by
each other keeps the value of every name; it shortens all chains of references,
and it cannot break a cycle.
-/

namespace DensityKernel

variable {K : Type}

/-- Which expressions names stand for. -/
abbrev Naming (K : Type) := String → Expr K → Prop

namespace Naming

variable {names : Naming K} {rank : String → Nat} {gap : Nat} {a b s : String} {e : Expr K}

/-- The name stands for an expression. -/
def Named (names : Naming K) (a : String) : Prop :=
  ∃ e, names a e

/-- No name stands for two expressions. -/
def Single (names : Naming K) : Prop :=
  ∀ a e e', names a e → names a e' → e = e'

/-- The expression of the name `a` mentions the name `b`. -/
def Refers (names : Naming K) (a b : String) : Prop :=
  names.Named b ∧ ∃ e, names a e ∧ e.mentions b = true

/-- Some name refers to itself, directly or through other names. -/
def Cyclic (names : Naming K) : Prop :=
  ∃ a, Relation.TransGen names.Refers a a

/-! ### Cycles -/

/-- Names of which each stands for nothing but expressions that mention one of them. -/
structure Circular (names : Naming K) (circle : Set String) : Prop where
  nonempty : circle.Nonempty
  named : ∀ a ∈ circle, names.Named a
  mentions : ∀ a ∈ circle, ∀ e, names a e → ∃ b ∈ circle, e.mentions b = true

/-- The names on cycles are circular. -/
theorem Cyclic.circular (h : names.Cyclic) (hsingle : names.Single) :
    names.Circular {a | Relation.TransGen names.Refers a a} where
  nonempty := h
  named a ha := by
    obtain ⟨b, ⟨-, e, he, -⟩, -⟩ := Relation.TransGen.head'_iff.mp ha
    exact ⟨e, he⟩
  mentions a ha e he := by
    obtain ⟨b, hab, hba⟩ := Relation.TransGen.head'_iff.mp ha
    have hcycle : Relation.TransGen names.Refers b b := Relation.TransGen.tail'_iff.mpr ⟨a, hba, hab⟩
    obtain ⟨-, e', he', hb⟩ := hab
    exact ⟨b, hcycle, hsingle a e' e he' he ▸ hb⟩

/-- Every name ranks above the names it refers to, by some distance at least. -/
def Ranked (names : Naming K) (rank : String → Nat) (gap : Nat) : Prop :=
  ∀ a b, names.Refers a b → rank b + gap ≤ rank a

/-- Without a cycle a name ranks by the number of names that it refers to, through others or
directly. -/
theorem exists_ranked (h : ¬names.Cyclic) (all : List String)
    (hall : ∀ a, names.Named a → a ∈ all) :
    ∃ rank, names.Ranked rank 1 ∧ ∀ a, rank a ≤ all.length := by
  classical
  let below (a : String) : Finset String :=
    all.toFinset.filter fun b => Relation.TransGen names.Refers a b
  refine ⟨fun a => (below a).card, fun a b hab => ?_, fun a => ?_⟩
  · have hsub : below b ⊆ below a := by
      intro c hc
      obtain ⟨hmem, hbc⟩ := Finset.mem_filter.mp hc
      exact Finset.mem_filter.mpr ⟨hmem, .head hab hbc⟩
    have hmem : b ∈ below a :=
      Finset.mem_filter.mpr ⟨List.mem_toFinset.mpr (hall b hab.1), .single hab⟩
    have hnot : b ∉ below b := fun hb => h ⟨b, (Finset.mem_filter.mp hb).2⟩
    exact Finset.card_lt_card (Finset.ssubset_iff_subset_ne.mpr
      ⟨hsub, fun heq => hnot (heq ▸ hmem)⟩)
  · exact (Finset.card_filter_le _ _).trans (List.toFinset_card_le all)

/-! ### Values -/

variable [Literal K] {env : String → Option K} {value : String → Except Error K}

/-- Every name has the value of its own expression, in which names stand for their values again;
any other symbol has the value that the assignment or the named constants give it. -/
structure Values (names : Naming K) (env : String → Option K)
    (value : String → Except Error K) : Prop where
  named : ∀ a e, names a e → value a = e.evalBy value
  other : ∀ s, ¬names.Named s → value s = Expr.symbolValue env s

/-- An expression that mentions no name has its value under the assignment alone. -/
theorem Values.evalBy_eq (h : names.Values env value)
    (he : ∀ s, e.mentions s = true → ¬names.Named s) : e.evalBy value = e.eval env := by
  rw [Expr.eval_eq_evalBy]
  exact Expr.evalBy_congr fun s hs => h.other s (he s hs)

/-- An assignment that extends another one by the values of all names. -/
theorem values_of_assignment {env' : String → Option K}
    (hnamed : ∀ a e, names a e → ∃ x, env' a = some x ∧ e.eval env' = .ok x)
    (hother : ∀ s, ¬names.Named s → env' s = env s) :
    names.Values env (Expr.symbolValue env') where
  named a e he := by
    obtain ⟨x, ha, hvalue⟩ := hnamed a e he
    rw [← Expr.eval_eq_evalBy, hvalue, Expr.symbolValue, ha]
  other s hs := by rw [Expr.symbolValue, Expr.symbolValue, hother s hs]

/-- Names that rank above those they refer to have values: one rank after the other. -/
theorem Ranked.exists_values (h : names.Ranked rank 1) (hsingle : names.Single)
    (env : String → Option K) : ∃ value, names.Values env value := by
  classical
  let value : String → Except Error K := WellFounded.fix (measure rank).wf fun a lower =>
    if h : names.Named a then
      h.choose.evalBy fun b => if hb : rank b < rank a then lower b hb else Expr.symbolValue env b
    else Expr.symbolValue env a
  have hvalue (a : String) : value a = if h : names.Named a then
      h.choose.evalBy fun b => if rank b < rank a then value b else Expr.symbolValue env b
    else Expr.symbolValue env a :=
    WellFounded.fix_eq _ _ a
  have hother (s : String) (hs : ¬names.Named s) : value s = Expr.symbolValue env s := by
    rw [hvalue, dif_neg hs]
  refine ⟨value, fun a e he => ?_, hother⟩
  have hnamed : names.Named a := ⟨e, he⟩
  rw [hvalue, dif_pos hnamed, hsingle a _ e hnamed.choose_spec he]
  refine Expr.evalBy_congr fun b hb => ?_
  by_cases hnamedb : names.Named b
  · have hlower : rank b < rank a := h a b ⟨hnamedb, e, he, hb⟩
    rw [if_pos hlower]
  · rw [hother b hnamedb, ite_self]

end Naming

namespace Parameters

variable {p resolved : Parameters K} {rank : String → Nat} {gap : Nat} {e : Expr K}

/-- The parameters as names with what they stand for. -/
def naming (p : Parameters K) : Naming K :=
  fun name e => (name, e) ∈ p

theorem named_iff {name : String} : p.naming.Named name ↔ name ∈ p.map Prod.fst := by
  rw [List.mem_map]
  constructor
  · rintro ⟨e, he⟩
    exact ⟨_, he, rfl⟩
  · rintro ⟨⟨_, e⟩, he, rfl⟩
    exact ⟨e, he⟩

/-- Parameters of different names. -/
theorem single_naming (h : (p.map Prod.fst).Nodup) : p.naming.Single := by
  intro a e e' he he'
  exact congrArg Prod.snd (List.inj_on_of_nodup_map h he he' rfl)

/-! ### Expanding one expression -/

/-- What the symbols of an expanded expression have in common: `P`. Parameters yet to be replaced
need only `Q`, which has to be enough for the symbols of their expressions to have `P`. -/
theorem forall_mentions_expand {P Q : String → Prop}
    (hp : ∀ name r, (name, r) ∈ p → Q name → ∀ s, r.mentions s = true → P s)
    (hPQ : ∀ s, P s → Q s)
    (he : ∀ s, e.mentions s = true → P s ∨ Q s ∧ s ∈ p.map Prod.fst) :
    ∀ s, (p.expand e).mentions s = true → P s := by
  induction p generalizing e with
  | nil => exact fun s hs => (he s hs).resolve_right fun h => List.not_mem_nil h.2
  | cons entry p ih =>
    obtain ⟨name, r⟩ := entry
    refine ih (e := e.substitute name r) (fun name r hmem => hp name r (.tail _ hmem)) fun s hs => ?_
    rcases Expr.mentions_substitute.mp hs with ⟨hne, hs⟩ | ⟨hname, hs⟩
    · rcases he s hs with hP | ⟨hQ, hmem⟩
      · exact .inl hP
      · exact .inr ⟨hQ, (List.mem_cons.mp hmem).resolve_left hne⟩
    · have hQ : Q name := (he name hname).elim (hPQ name) And.left
      exact .inl (hp name r List.mem_cons_self hQ s hs)

/-- A mention of a circle is replaced by another mention of it. -/
theorem exists_mentions_expand {circle : Set String}
    (hp : ∀ name r, (name, r) ∈ p → name ∈ circle → ∃ b ∈ circle, r.mentions b = true)
    (he : ∃ b ∈ circle, e.mentions b = true) :
    ∃ b ∈ circle, (p.expand e).mentions b = true := by
  induction p generalizing e with
  | nil => exact he
  | cons entry p ih =>
    obtain ⟨name, r⟩ := entry
    refine ih (e := e.substitute name r) (fun name r hmem => hp name r (.tail _ hmem)) ?_
    obtain ⟨b, hb, hmention⟩ := he
    by_cases hname : b = name
    · subst hname
      obtain ⟨c, hc, hr⟩ := hp b r List.mem_cons_self hb
      exact ⟨c, hc, Expr.mentions_substitute.mpr (.inr ⟨hmention, hr⟩)⟩
    · exact ⟨b, hb, Expr.mentions_substitute.mpr (.inl ⟨hname, hmention⟩)⟩

section Values

variable [Literal K] {value : String → Except Error K}

theorem evalBy_expand (hp : ∀ name r, (name, r) ∈ p → value name = r.evalBy value) (e : Expr K) :
    (p.expand e).evalBy value = e.evalBy value := by
  induction p generalizing e with
  | nil => rfl
  | cons entry p ih =>
    obtain ⟨name, r⟩ := entry
    have hrest := ih (fun name r hmem => hp name r (.tail _ hmem)) (e.substitute name r)
    exact hrest.trans (Expr.evalBy_substitute_of_eq (hp name r List.mem_cons_self) e)

end Values

/-! ### One round -/

theorem mem_expandAll {name : String} :
    (name, e) ∈ p.expandAll ↔ ∃ r, (name, r) ∈ p ∧ p.expand r = e := by
  rw [expandAll, List.mem_map]
  constructor
  · rintro ⟨⟨_, r⟩, hmem, heq⟩
    obtain ⟨rfl, rfl⟩ := Prod.mk.inj heq
    exact ⟨r, hmem, rfl⟩
  · rintro ⟨r, hmem, rfl⟩
    exact ⟨(name, r), hmem, rfl⟩

theorem named_expandAll {name : String} : p.expandAll.naming.Named name ↔ p.naming.Named name := by
  constructor
  · rintro ⟨e, he⟩
    obtain ⟨r, hr, -⟩ := mem_expandAll.mp he
    exact ⟨r, hr⟩
  · rintro ⟨r, hr⟩
    exact ⟨_, mem_expandAll.mpr ⟨r, hr, rfl⟩⟩

/-- **No round breaks a cycle.** -/
theorem circular_expandAll {circle : Set String} (h : p.naming.Circular circle) :
    p.expandAll.naming.Circular circle where
  nonempty := h.nonempty
  named a ha := named_expandAll.mpr (h.named a ha)
  mentions a ha e he := by
    obtain ⟨r, hr, rfl⟩ := mem_expandAll.mp he
    exact exists_mentions_expand (fun name r hr hname => h.mentions name hname r hr)
      (h.mentions a ha r hr)

/-- **A round doubles the distance** between a name and those it refers to. -/
theorem ranked_expandAll (h : p.naming.Ranked rank gap) :
    p.expandAll.naming.Ranked rank (gap + gap) := by
  rintro a b ⟨hb, e, he, hmention⟩
  obtain ⟨r, hr, rfl⟩ := mem_expandAll.mp he
  have hexpand : ∀ s, (p.expand r).mentions s = true → p.naming.Named s →
      ∃ c, p.naming.Refers a c ∧ rank s + gap ≤ rank c := by
    refine forall_mentions_expand (Q := fun s => p.naming.Named s →
      ∃ c, p.naming.Refers a c ∧ rank s ≤ rank c) ?_ ?_ ?_
    · intro name r hname hQ s hs hnamed
      obtain ⟨c, hc, hle⟩ := hQ ⟨r, hname⟩
      exact ⟨c, hc, (h name s ⟨hnamed, r, hname, hs⟩).trans hle⟩
    · intro s hP hnamed
      obtain ⟨c, hc, hle⟩ := hP hnamed
      exact ⟨c, hc, by omega⟩
    · intro s hs
      by_cases hnamed : p.naming.Named s
      · exact .inr ⟨fun _ => ⟨s, ⟨hnamed, r, hr, hs⟩, le_rfl⟩, named_iff.mp hnamed⟩
      · exact .inl fun hs => absurd hs hnamed
  obtain ⟨c, hc, hle⟩ := hexpand b hmention (named_expandAll.mp hb)
  have hac := h a c hc
  omega

/-- **A round keeps the values** of all names. -/
theorem values_expandAll [Literal K] {env : String → Option K} {value : String → Except Error K}
    (h : p.naming.Values env value) : p.expandAll.naming.Values env value where
  named a e he := by
    obtain ⟨r, hr, rfl⟩ := mem_expandAll.mp he
    rw [evalBy_expand h.named, h.named a r hr]
  other s hs := h.other s fun hnamed => hs (named_expandAll.mpr hnamed)

/-! ### All rounds -/

theorem isResolved_iff :
    p.isResolved = true ↔ ∀ name e, (name, e) ∈ p → ∀ s, e.mentions s = true → ¬p.naming.Named s := by
  simp only [isResolved, mentioned, Bool.not_eq_true', List.any_eq_false, Prod.forall, named_iff,
    List.mem_map, Prod.exists, exists_and_right, exists_eq_right]
  constructor
  · intro h name e he s hs hnamed
    obtain ⟨r, hr⟩ := hnamed
    exact h name e he (List.any_eq_true.mpr ⟨(s, r), hr, hs⟩)
  · intro h name e he hany
    obtain ⟨⟨s, r⟩, hr, hs⟩ := List.any_eq_true.mp hany
    exact h name e he s hs ⟨r, hr⟩

/-- Parameters on a cycle are never resolved. -/
theorem resolveWithin_of_circular {circle : Set String} (h : p.naming.Circular circle)
    (rounds : Nat) : p.resolveWithin rounds = .error (.invalidConfig .parameterCycle) := by
  induction rounds generalizing p with
  | zero => rfl
  | succ rounds ih =>
    have hopen : ¬p.isResolved = true := by
      intro hresolved
      obtain ⟨a, ha⟩ := h.nonempty
      obtain ⟨e, he⟩ := h.named a ha
      obtain ⟨b, hb, hmention⟩ := h.mentions a ha e he
      exact isResolved_iff.mp hresolved a e he b hmention (h.named b hb)
    rw [resolveWithin, if_neg hopen, ih (circular_expandAll h)]

/-- Each round brings ranked parameters closer to being resolved. -/
theorem exists_resolveWithin_eq_ok {bound rounds : Nat} (h : p.naming.Ranked rank gap)
    (hgap : 0 < gap) (hrank : ∀ a, rank a ≤ bound) (hbound : bound < gap + rounds) :
    ∃ resolved, p.resolveWithin (rounds + 1) = .ok resolved := by
  induction rounds generalizing p gap with
  | zero =>
    have hresolved : p.isResolved = true := by
      refine isResolved_iff.mpr fun a e he s hs hnamed => ?_
      have hle := h a s ⟨hnamed, e, he, hs⟩
      have hle' := hrank a
      omega
    exact ⟨p, by rw [resolveWithin, if_pos hresolved]⟩
  | succ rounds ih =>
    rw [resolveWithin]
    split_ifs with hresolved
    · exact ⟨p, rfl⟩
    · exact ih (ranked_expandAll h) (by omega) (by omega)

/-- What every round keeps holds in the end, and nothing is left to expand. -/
theorem of_resolveWithin {P : Parameters K → Prop} (hround : ∀ p, P p → P p.expandAll)
    {rounds : Nat} (h : p.resolveWithin rounds = .ok resolved) (hp : P p) :
    P resolved ∧ resolved.isResolved = true := by
  induction rounds generalizing p with
  | zero => cases h
  | succ rounds ih =>
    rw [resolveWithin] at h
    split_ifs at h with hresolved
    · cases h
      exact ⟨hp, hresolved⟩
    · exact ih h (hround p hp)

/-- Parameters that do not refer to themselves are resolved. -/
theorem exists_resolve_eq_ok (h : ¬p.naming.Cyclic) : ∃ resolved, p.resolve = .ok resolved := by
  obtain ⟨rank, hranked, hrank⟩ :=
    Naming.exists_ranked h (p.map Prod.fst) fun a => named_iff.mp
  refine exists_resolveWithin_eq_ok hranked Nat.one_pos hrank ?_
  rw [List.length_map]
  omega

/-- **Resolving reports a cycle** if and only if there is one. -/
theorem resolve_eq_error_iff (hsingle : p.naming.Single) :
    p.resolve = .error (.invalidConfig .parameterCycle) ↔ p.naming.Cyclic := by
  constructor
  · intro h
    by_contra hacyclic
    obtain ⟨resolved, hresolved⟩ := exists_resolve_eq_ok hacyclic
    cases h.symm.trans hresolved
  · intro h
    exact resolveWithin_of_circular (h.circular hsingle) _

/-- The names of resolved parameters are those of the parameters. -/
theorem named_of_resolve (h : p.resolve = .ok resolved) (s : String) :
    resolved.naming.Named s ↔ p.naming.Named s :=
  (of_resolveWithin (P := fun r => r.naming.Named s ↔ p.naming.Named s)
    (fun _ hround => named_expandAll.trans hround) h Iff.rfl).1

/-- **Nothing expanded by resolved parameters mentions a parameter.** -/
theorem not_mentions_expand (h : p.resolve = .ok resolved) (e : Expr K) {s : String}
    (hs : p.naming.Named s) : (resolved.expand e).mentions s = false := by
  have hresolved := (of_resolveWithin (P := fun _ => True) (fun _ _ => trivial) h trivial).2
  have hexpand : ∀ s, (resolved.expand e).mentions s = true → ¬resolved.naming.Named s := by
    refine forall_mentions_expand (Q := fun _ => True) ?_ (fun _ _ => trivial) ?_
    · exact fun name r hr _ => isResolved_iff.mp hresolved name r hr
    · intro s _
      by_cases hnamed : resolved.naming.Named s
      · exact .inr ⟨trivial, named_iff.mp hnamed⟩
      · exact .inl hnamed
  rw [← Bool.not_eq_true]
  exact fun hmention => hexpand s hmention ((named_of_resolve h s).mpr hs)

variable [Literal K] {env : String → Option K} {value : String → Except Error K}

/-- **Expanding by resolved parameters** is evaluating with every name bound to its value. -/
theorem eval_expand (h : p.resolve = .ok resolved) (hvalue : p.naming.Values env value)
    (e : Expr K) : (resolved.expand e).eval env = e.evalBy value := by
  have hresolved : resolved.naming.Values env value :=
    (of_resolveWithin (P := fun r => r.naming.Values env value)
      (fun _ hround => values_expandAll hround) h hvalue).1
  rw [← evalBy_expand hresolved.named e]
  refine (hvalue.evalBy_eq fun s hs hnamed => ?_).symm
  rw [not_mentions_expand h e hnamed] at hs
  exact Bool.false_ne_true hs

/-- Names that are not on a cycle have values, and only one each. -/
theorem existsUnique_values (hsingle : p.naming.Single) (h : p.resolve = .ok resolved)
    (env : String → Option K) : ∃! value, p.naming.Values env value := by
  have hacyclic : ¬p.naming.Cyclic := by
    intro hcyclic
    cases h.symm.trans ((resolve_eq_error_iff hsingle).mpr hcyclic)
  obtain ⟨rank, hranked, -⟩ :=
    Naming.exists_ranked hacyclic (p.map Prod.fst) fun a => named_iff.mp
  obtain ⟨value, hvalue⟩ := hranked.exists_values hsingle env
  refine ⟨value, hvalue, fun value' hvalue' => funext fun s => ?_⟩
  by_cases hnamed : p.naming.Named s
  · have heq := (eval_expand h hvalue' (.sym s)).symm.trans (eval_expand h hvalue (.sym s))
    exact heq
  · rw [hvalue.other s hnamed, hvalue'.other s hnamed]

end Parameters

end DensityKernel
