import DensityKernel.Differentiator
import DensityKernel.Proofs.Derivative.Steps
import DensityKernel.Proofs.NormalForm.Passes

/-!
Hereditary properties. A property of expressions that literals have, that an
operation has with its operands and a call with its arguments is kept by
differentiation and by simplification: neither of them brings in a symbol, or a
call of a function that is not registered.

Where only some literals have the property, differentiation still keeps it, but a
rule may combine literals to one that has it not (`Leaves`). There are three rules
that do so without a look at the result.

No rule makes a quotient, so the rules also keep a property for which a quotient needs
more than its operands have (`ClosedIn`).
-/

namespace DensityKernel

open DensityKernel.Expr

variable {K : Type}

/-- Literals have the property, an operation has it if both operands have it, and a call of a
registered function if the argument has it. Arguments of a call that has it have it, and may be
replaced by others that have it. -/
structure Hereditary (Q : Expr K → Prop) : Prop where
  num : ∀ x, Q (.num x)
  binary : ∀ {op u v}, Q (.binary op u v) ↔ Q u ∧ Q v
  of_call : ∀ {name args}, Q (.call name args) → ∀ a ∈ args, Q a
  call : ∀ {name f u}, Elementary.lookup? name 1 = some f → Q u → Q (.call name [u])
  call_congr : ∀ {name args args'}, List.Forall₂ (fun a a' => Q a → Q a') args args' →
    Q (.call name args) → Q (.call name args')

/-- As a hereditary property, but of the literals only those of `P` have it. -/
structure HereditaryIn (P : K → Prop) (Q : Expr K → Prop) : Prop where
  num : ∀ {x}, Q (.num x) ↔ P x
  binary : ∀ {op u v}, Q (.binary op u v) ↔ Q u ∧ Q v
  of_call : ∀ {name args}, Q (.call name args) → ∀ a ∈ args, Q a
  call : ∀ {name f u}, Elementary.lookup? name 1 = some f → Q u → Q (.call name [u])
  call_congr : ∀ {name args args'}, List.Forall₂ (fun a a' => Q a → Q a') args args' →
    Q (.call name args) → Q (.call name args')

/-- As `HereditaryIn`, but a quotient may need more than that its operands have the property. -/
structure ClosedIn (P : K → Prop) (Q : Expr K → Prop) : Prop where
  num : ∀ {x}, Q (.num x) ↔ P x
  binary : ∀ {op u v}, op ≠ .div → Q u ∧ Q v → Q (.binary op u v)
  of_binary : ∀ {op u v}, Q (.binary op u v) → Q u ∧ Q v
  call : ∀ {name f u}, Elementary.lookup? name 1 = some f → Q u → Q (.call name [u])
  of_call : ∀ {name args}, Q (.call name args) → ∀ a ∈ args, Q a

/-- The numbers that differentiation and the rules bring in on their own, and those that they make
of a number that is there. -/
structure Supplied [Literal K] (P : K → Prop) : Prop where
  zero : P Literal.zero
  one : P Literal.one
  two : P Literal.two
  minusOne : P Literal.minusOne
  half : P Literal.half
  minusHalf : P Literal.minusHalf
  third : P Literal.third
  minusTwoThirds : P Literal.minusTwoThirds
  erfSlope : P Literal.erfSlope
  sub_one : ∀ {x}, P x → P (x - Literal.one)
  neg : ∀ {x}, P x → P (-x)
  finite : ∀ {x}, Literal.isFinite x = true → P x

theorem Hereditary.hereditaryIn {Q : Expr K → Prop} (hQ : Hereditary Q) :
    HereditaryIn (fun _ => True) Q where
  num := iff_of_true (hQ.num _) trivial
  binary := hQ.binary
  of_call := hQ.of_call
  call := hQ.call
  call_congr := hQ.call_congr

theorem HereditaryIn.closedIn {P : K → Prop} {Q : Expr K → Prop} (hQ : HereditaryIn P Q) :
    ClosedIn P Q where
  num := hQ.num
  binary _ := hQ.binary.mpr
  of_binary := hQ.binary.mp
  call := hQ.call
  of_call := hQ.of_call

theorem supplied_all [Literal K] : Supplied fun _ : K => True :=
  ⟨trivial, trivial, trivial, trivial, trivial, trivial, trivial, trivial, trivial,
    fun _ => trivial, fun _ => trivial, fun _ => trivial⟩

/-- What every argument has is kept if each argument keeps it. -/
theorem forall_mem_of_forall₂ {α : Type} {Q : α → Prop} {xs ys : List α}
    (h : List.Forall₂ (fun x y => Q x → Q y) xs ys) (hxs : ∀ x ∈ xs, Q x) : ∀ y ∈ ys, Q y := by
  induction h with
  | nil => exact hxs
  | cons hxy _ ih =>
    obtain ⟨hx, hrest⟩ := List.forall_mem_cons.mp hxs
    exact List.forall_mem_cons.mpr ⟨hxy hx, ih hrest⟩

section Leaving

open NormalForm

variable [Literal K] [DecidableEq K] [Spelling K] {P : K → Prop} {e e' : Expr K}

/-- A rule combines numbers to one outside of `P`: the exponents of a power of a power, the
coefficient of a product or the exponents of one base, the constant of a sum or the coefficients
of like terms. -/
inductive Leaves (P : K → Prop) : Expr K → Expr K → Prop
  | powerOfPower {base : Expr K} {inner outer : K} {e' : Expr K}
    (happlied : powerOfPower (.pow (.pow base (.num inner)) (.num outer)) = some e')
    (hnumber : ¬P (inner * outer)) : Leaves P (.pow (.pow base (.num inner)) (.num outer)) e'
  | collectFactors {e e' : Expr K} (happlied : collectFactors e = some e')
    (hnumber : ¬P (coefficient Literal.one (factors e)) ∨
      ∃ group ∈ gatherPowers (nonLiterals (factors e)), ¬P group.exponent) : Leaves P e e'
  | collectTerms {e e' : Expr K} (happlied : collectTerms e = some e')
    (hnumber : ¬P (constantPart (terms Literal.one e)) ∨
      ∃ group ∈ gatherTerms (terms Literal.one e),
        Literal.cancels group.sum group.scale = false ∧ ¬P group.sum) : Leaves P e e'

theorem not_leaves_all : ¬Leaves (fun _ => True) e e' := by
  rintro (⟨-, hnumber⟩ | ⟨-, hnumber⟩ | ⟨-, hnumber⟩) <;> simp at hnumber

end Leaving

namespace ClosedIn

theorem ite {Q : Expr K → Prop} {c : Prop} [Decidable c] {u v : Expr K} (hu : Q u) (hv : Q v) :
    Q (if c then u else v) := by
  split
  · exact hu
  · exact hv

variable {P : K → Prop} {Q : Expr K → Prop} (hQ : ClosedIn P Q)

include hQ

theorem power {u : Expr K} {x : K} (hu : Q u) (hx : P x) : Q (.pow u (.num x)) :=
  hQ.binary nofun ⟨hu, hQ.num.mpr hx⟩

theorem scaled {x : K} {u : Expr K} (hx : P x) (hu : Q u) : Q (.mul (.num x) u) :=
  hQ.binary nofun ⟨hQ.num.mpr hx, hu⟩

theorem of {u : Expr K} (f : Elementary) (hu : Q u) : Q (f.of u) :=
  hQ.call f.lookup?_name hu

variable [Literal K] (hP : Supplied P)

include hP

/-! ### Derivatives -/

section Derivative

variable {u v e d du dv : Expr K}

theorem zero : Q zero :=
  hQ.num.mpr hP.zero

theorem one : Q one :=
  hQ.num.mpr hP.one

theorem negate (hu : Q u) : Q u.negate :=
  hQ.scaled hP.minusOne hu

theorem times (hu : Q u) (hv : Q v) : Q (times u v) := by
  unfold Expr.times
  split_ifs
  · exact hQ.zero hP
  · exact hv
  · exact hu
  · exact hQ.binary nofun ⟨hu, hv⟩

omit hP in
theorem plus (hu : Q u) (hv : Q v) : Q (plus u v) := by
  unfold Expr.plus
  split_ifs
  · exact hv
  · exact hu
  · exact hQ.binary nofun ⟨hu, hv⟩

theorem minus (hu : Q u) (hv : Q v) : Q (minus u v) := by
  unfold Expr.minus
  split_ifs
  · exact hu
  · exact hQ.negate hP hv
  · exact hQ.binary nofun ⟨hu, hv⟩

theorem squared (hu : Q u) : Q u.squared :=
  hQ.power hu hP.two

/-- The slope of a function is an expression in its argument. -/
theorem slope (f : Elementary) (hu : Q u) : Q (f.slope u) := by
  have hnegated : ∀ {w : Expr K}, Q w → Q (Expr.times (.num Literal.minusOne) w) :=
    fun hw => hQ.times hP (hQ.num.mpr hP.minusOne) hw
  have hsum : Q (.add Expr.one u.squared) := hQ.binary nofun ⟨hQ.one hP, hQ.squared hP hu⟩
  cases f with
  | exp => exact hQ.of .exp hu
  | sin => exact hQ.of .cos hu
  | cos => exact hnegated (hQ.of .sin hu)
  | sinh => exact hQ.of .cosh hu
  | cosh => exact hQ.of .sinh hu
  | ln | log => exact hQ.power hu hP.minusOne
  | sqrt => exact hQ.scaled hP.half (hQ.power hu hP.minusHalf)
  | cbrt => exact hQ.scaled hP.third (hQ.power hu hP.minusTwoThirds)
  | tan => exact hQ.binary nofun ⟨hQ.one hP, hQ.squared hP (hQ.of .tan hu)⟩
  | tanh => exact hQ.binary nofun ⟨hQ.one hP, hQ.squared hP (hQ.of .tanh hu)⟩
  | atan => exact hQ.power hsum hP.minusOne
  | asinh => exact hQ.power hsum hP.minusHalf
  | erf => exact hQ.scaled hP.erfSlope (hQ.of .exp (hnegated (hQ.squared hP hu)))
  | abs => exact hQ.binary nofun ⟨hu, hQ.power (hQ.of .abs hu) hP.minusOne⟩

theorem powerDerivative (hu : Q u) (hv : Q v) (hdu : Q du) : Q (powerDerivative u v du) := by
  have hscaled : ∀ w : Expr K, Q w → Q (if du.isOne then w else .mul w du) :=
    fun w hw => ite hw (hQ.binary nofun ⟨hw, hdu⟩)
  refine ite (hQ.zero hP) ?_
  cases v with
  | num n =>
    have hlowered : Q (.pow u (.num (n - Literal.one))) :=
      hQ.power hu (hP.sub_one (hQ.num.mp hv))
    exact ite (hQ.zero hP) (ite hdu (hQ.binary nofun ⟨hv, hscaled _ hlowered⟩))
  | sym | call | binary =>
    exact hQ.binary nofun ⟨hv, hscaled _ (hQ.binary nofun ⟨hu, hQ.binary nofun ⟨hv, hQ.one hP⟩⟩)⟩

variable (hdiv : ∀ {u v}, Q u ∧ Q v → Q (.div u v))

include hdiv

theorem quotientDerivative (hu : Q u) (hv : Q v) (hdu : Q du) (hdv : Q dv) :
    Q (quotientDerivative u v du dv) := by
  have hfirst : Q (Expr.times du v) := hQ.times hP hdu hv
  have hsecond : Q (Expr.times dv u) := hQ.times hP hdv hu
  have hnumerator : Q (quotientNumerator (Expr.times du v) (Expr.times dv u)) :=
    ite (hQ.negate hP hsecond) (ite hfirst (hQ.binary nofun ⟨hfirst, hsecond⟩))
  unfold Expr.quotientDerivative
  split_ifs
  · exact hQ.zero hP
  · exact hdu
  · exact hdiv ⟨hdu, hv⟩
  · exact hdiv ⟨hnumerator, hQ.squared hP hv⟩

theorem exponentialDerivative (hu : Q u) (hv : Q v) (hdu : Q du) (hdv : Q dv) :
    Q (exponentialDerivative u v du dv) := by
  have hlogarithm : Q (.mul dv (Elementary.ln.of u)) := hQ.binary nofun ⟨hdv, hQ.of .ln hu⟩
  have hquotient : Q (.mul v (.div du u)) := hQ.binary nofun ⟨hv, hdiv ⟨hdu, hu⟩⟩
  have hexponent :=
    ite (c := dv.isZero) (hQ.zero hP) (ite (c := u.symbol? = some "e") hdv hlogarithm)
  have htotal := hQ.plus hexponent (ite (c := du.isZero) (hQ.zero hP) hquotient)
  exact ite (hQ.zero hP) (hQ.binary nofun ⟨hQ.binary nofun ⟨hu, hv⟩, htotal⟩)

theorem operationDerivative (op : Operator) (hu : Q u) (hv : Q v) (hdu : Q du) (hdv : Q dv) :
    Q (operationDerivative op u v du dv) := by
  cases op with
  | add => exact hQ.plus hdu hdv
  | sub => exact hQ.minus hP hdu hdv
  | mul => exact hQ.plus (hQ.times hP hdu hv) (hQ.times hP hdv hu)
  | div => exact hQ.quotientDerivative hP hdiv hu hv hdu hdv
  | pow => exact hQ.exponentialDerivative hP hdiv hu hv hdu hdv

/-- **Differentiation keeps the property** if quotients need no more than their operands have. -/
theorem derive {name : String} (he : Q e) (h : e.derive name = .ok d) : Q d := by
  induction e generalizing d with
  | num x =>
    rw [derive_leaf.1 x] at h
    cases h
    exact hQ.zero hP
  | sym s =>
    rw [derive_leaf.2 s] at h
    cases h
    exact ite (hQ.one hP) (hQ.zero hP)
  | call f args ih =>
    obtain ⟨g, u, du, rfl, -, hdu, rfl⟩ := derive_call_iff.mp h
    have hu : Q u := hQ.of_call he u List.mem_cons_self
    exact ite (hQ.zero hP) (hQ.times hP (hQ.slope hP g hu) (ih u List.mem_cons_self hu hdu))
  | binary op u v ihu ihv =>
    obtain ⟨hu, hv⟩ := hQ.of_binary he
    rcases derive_binary_iff.mp h with ⟨du, dv, hdu, hdv, -, rfl⟩ | ⟨-, -, du, hdu, rfl⟩
    · exact hQ.operationDerivative hP hdiv op hu hv (ihu hu hdu) (ihv hv hdv)
    · exact hQ.powerDerivative hP hu hv (ihu hu hdu)

end Derivative

/-! ### Rules that look at one node -/

section Rules

open NormalForm

variable {e e' : Expr K} {fs : List (Expr K)}

theorem foldLiterals (h : foldLiterals e = some e') : Q e' := by
  obtain ⟨op, x, y, -, hfinite, rfl⟩ := foldLiterals_eq_some h
  exact hQ.num.mpr (hP.finite hfinite)

theorem foldCall (h : foldCall e = some e') : Q e' := by
  unfold NormalForm.foldCall at h
  split at h
  · obtain ⟨f, -, h⟩ := Option.bind_eq_some_iff.mp h
    obtain ⟨hvalue, h⟩ := Option.ite_none_right_eq_some.mp h
    obtain rfl := Option.some.inj h
    exact hQ.num.mpr (hP.finite ((Bool.and_eq_true _ _).mp hvalue).1)
  · exact absurd h (by simp)

theorem dropNeutral [DecidableEq K] (he : Q e) (h : dropNeutral e = some e') : Q e' := by
  unfold NormalForm.dropNeutral at h
  split at h
  case h_6 => exact absurd h (by simp)
  all_goals
    obtain ⟨hu, hv⟩ := hQ.of_binary he
    split_ifs at h <;> obtain rfl := Option.some.inj h
    all_goals first
      | exact hu
      | exact hv
      | exact hQ.negate hP hv
      | exact hQ.zero hP
      | exact hQ.one hP

theorem invertDenominator (he : Q e) (h : invertDenominator e = some e') : Q e' := by
  unfold NormalForm.invertDenominator at h
  split at h
  · obtain ⟨hfinite, h⟩ := Option.ite_none_right_eq_some.mp h
    obtain rfl := Option.some.inj h
    exact hQ.scaled (hP.finite hfinite) (hQ.of_binary he).1
  · obtain ⟨hu, hv⟩ := hQ.of_binary he
    have hinverse := hQ.power hv hP.minusOne
    obtain rfl := Option.some.inj h
    exact ite hinverse (hQ.binary nofun ⟨hu, hinverse⟩)
  · exact absurd h (by simp)

omit hP in
theorem powerOfPower [DecidableEq K] [Spelling K] (he : Q e) (h : powerOfPower e = some e') :
    Q e' ∨ Leaves P e e' := by
  have happlied := h
  unfold NormalForm.powerOfPower at h
  split at h
  · next base inner outer =>
    by_cases hnumber : P (inner * outer)
    · have hbase := (hQ.of_binary (hQ.of_binary he).1).1
      obtain rfl := Option.some.inj h
      exact .inl (hQ.power (ite (hQ.call (f := .abs) rfl hbase) hbase) hnumber)
    · exact .inr (.powerOfPower happlied hnumber)
  · exact absurd h (by simp)

omit hP in
theorem powerOfProduct (he : Q e) (h : powerOfProduct e = some e') : Q e' := by
  unfold NormalForm.powerOfProduct at h
  split at h
  · obtain ⟨hproduct, hn⟩ := hQ.of_binary he
    obtain ⟨hu, hv⟩ := hQ.of_binary hproduct
    obtain ⟨-, h⟩ := Option.ite_none_right_eq_some.mp h
    obtain rfl := Option.some.inj h
    exact hQ.binary nofun ⟨hQ.binary nofun ⟨hu, hn⟩, hQ.binary nofun ⟨hv, hn⟩⟩
  · exact absurd h (by simp)

/-! ### Products in order -/

omit hP [Literal K] in
theorem factors (he : Q e) : ∀ f ∈ factors e, Q f := by
  induction e with
  | num | sym | call => exact List.forall_mem_singleton.mpr he
  | binary op u v ihu ihv =>
    cases op with
    | mul =>
      obtain ⟨hu, hv⟩ := hQ.of_binary he
      rw [NormalForm.factors]
      exact List.forall_mem_append.mpr ⟨ihu hu, ihv hv⟩
    | add | sub | div | pow => exact List.forall_mem_singleton.mpr he

omit hP [Literal K] in
theorem foldl_mul {u : Expr K} (hu : Q u) (hfs : ∀ f ∈ fs, Q f) : Q (fs.foldl .mul u) := by
  induction fs generalizing u with
  | nil => exact hu
  | cons f fs ih =>
    obtain ⟨hf, hrest⟩ := List.forall_mem_cons.mp hfs
    exact ih (hQ.binary nofun ⟨hu, hf⟩) hrest

omit hP in
theorem buildProduct {coeff : K} (hcoeff : P coeff) (hfs : ∀ f ∈ fs, Q f) :
    Q (buildProduct coeff fs) := by
  cases fs with
  | nil => exact hQ.num.mpr hcoeff
  | cons f fs =>
    obtain ⟨hf, hrest⟩ := List.forall_mem_cons.mp hfs
    exact hQ.foldl_mul (ite hf (hQ.scaled hcoeff hf)) hrest

omit hQ hP in
theorem addPower [DecidableEq K] {new : PowerGroup K} {groups : List (PowerGroup K)}
    (hnew : Q new.base) (hgroups : ∀ group ∈ groups, Q group.base) :
    ∀ group ∈ addPower new groups, Q group.base := by
  induction groups with
  | nil => exact List.forall_mem_singleton.mpr hnew
  | cons group groups ih =>
    obtain ⟨hgroup, hrest⟩ := List.forall_mem_cons.mp hgroups
    rw [NormalForm.addPower]
    split_ifs
    · exact List.forall_mem_cons.mpr ⟨hgroup, hrest⟩
    · exact List.forall_mem_cons.mpr ⟨hgroup, ih hrest⟩

omit hP in
theorem splitPower (he : Q e) : Q (splitPower e).1 := by
  unfold NormalForm.splitPower
  split
  · exact (hQ.of_binary he).1
  · exact he

omit hP in
theorem gatherPowers [DecidableEq K] [Spelling K] (hfs : ∀ f ∈ fs, Q f) :
    ∀ group ∈ gatherPowers fs, Q group.base := by
  suffices hfrom : ∀ groups : List (PowerGroup K), (∀ group ∈ groups, Q group.base) →
      ∀ group ∈ fs.foldl (fun groups f =>
        NormalForm.addPower
          ⟨(NormalForm.splitPower f).1, (NormalForm.splitPower f).1.text,
            (NormalForm.splitPower f).2⟩ groups) groups,
        Q group.base from hfrom [] (by simp)
  induction fs with
  | nil => exact fun groups hgroups => hgroups
  | cons f fs ih =>
    intro groups hgroups
    obtain ⟨hf, hrest⟩ := List.forall_mem_cons.mp hfs
    exact ih hrest _ (addPower (hQ.splitPower hf) hgroups)

/-- A product in order has the property if its coefficient and its exponents have it. -/
theorem orderedProduct [DecidableEq K] [Spelling K] (he : Q e)
    (hcoeff : P (coefficient Literal.one (NormalForm.factors e)))
    (hexponents : ∀ group ∈ NormalForm.gatherPowers (nonLiterals (NormalForm.factors e)),
      P group.exponent) : Q (orderedProduct e) := by
  have hothers : ∀ f ∈ nonLiterals (NormalForm.factors e), Q f :=
    fun f hf => hQ.factors he f (List.mem_filter.mp hf).1
  refine ite (hQ.zero hP) (hQ.buildProduct hcoeff fun f hf => ?_)
  obtain ⟨group, hgroup, rfl⟩ := List.mem_map.mp ((sortByText_map_perm _ _ _).mem_iff.mp hf)
  have hgathered := (List.mem_filter.mp hgroup).1
  have hbase := hQ.gatherPowers hothers group hgathered
  exact ite hbase (hQ.power hbase (hexponents group hgathered))

theorem collectFactors [DecidableEq K] [Spelling K] (he : Q e) (h : collectFactors e = some e') :
    Q e' ∨ Leaves P e e' := by
  have happlied := h
  unfold NormalForm.collectFactors at h
  split at h
  · dsimp only at h
    split_ifs at h
    obtain rfl := Option.some.inj h
    refine or_iff_not_imp_right.mpr fun hkept => hQ.orderedProduct hP he ?_ fun group hgroup => ?_
    · exact by_contra fun hnumber => hkept (.collectFactors happlied (.inl hnumber))
    · exact by_contra fun hnumber =>
        hkept (.collectFactors happlied (.inr ⟨group, hgroup, hnumber⟩))
  · exact absurd h (by simp)

/-! ### Sums in order -/

/-- What a term multiplies has the property, if there is anything. -/
def Rest (Q : Expr K → Prop) (t : Term K) : Prop :=
  ∀ rest ∈ t.rest, Q rest

omit hQ hP [Literal K] in
theorem rest_none (x : K) : Rest Q ⟨x, none⟩ :=
  fun _ h => absurd h (by simp)

omit hQ hP [Literal K] in
theorem rest_some (x : K) (he : Q e) : Rest Q ⟨x, some e⟩ := by
  intro rest h
  obtain rfl := Option.some.inj h
  exact he

omit hP in
theorem toExpr {t : Term K} (hx : P t.coefficient) (ht : Rest Q t) : Q t.toExpr := by
  unfold Term.toExpr
  split
  · exact hQ.num.mpr hx
  · next rest hrest => exact hQ.buildProduct hx (List.forall_mem_singleton.mpr (ht rest hrest))

theorem ofExpr (sign : K) (he : Q e) : Rest Q (Term.ofExpr sign e) := by
  unfold Term.ofExpr
  split
  · exact rest_none _
  · dsimp only
    split
    · exact rest_none _
    · refine rest_some _ (hQ.buildProduct hP.one fun f hf => ?_)
      exact hQ.factors he f (List.mem_filter.mp hf).1
  · exact rest_some _ he

theorem terms (sign : K) (he : Q e) : ∀ t ∈ terms sign e, Rest Q t := by
  induction e generalizing sign with
  | num | sym | call => exact List.forall_mem_singleton.mpr (hQ.ofExpr hP sign he)
  | binary op u v ihu ihv =>
    obtain ⟨hu, hv⟩ := hQ.of_binary he
    cases op with
    | add =>
      rw [NormalForm.terms]
      exact List.forall_mem_append.mpr ⟨ihu sign hu, ihv sign hv⟩
    | sub =>
      rw [NormalForm.terms]
      exact List.forall_mem_append.mpr ⟨ihu sign hu, ihv (-sign) hv⟩
    | mul | div | pow => exact List.forall_mem_singleton.mpr (hQ.ofExpr hP sign he)

omit hQ hP in
theorem addTerm [DecidableEq K] {rest : Expr K} (text : String) (x : K)
    {groups : List (LikeTerms K)} (hrest : Q rest) (hgroups : ∀ group ∈ groups, Q group.rest) :
    ∀ group ∈ addTerm rest text x groups, Q group.rest := by
  induction groups with
  | nil => exact List.forall_mem_singleton.mpr hrest
  | cons group groups ih =>
    obtain ⟨hgroup, hothers⟩ := List.forall_mem_cons.mp hgroups
    rw [NormalForm.addTerm]
    split_ifs
    · exact List.forall_mem_cons.mpr ⟨hgroup, hothers⟩
    · exact List.forall_mem_cons.mpr ⟨hgroup, ih hothers⟩

omit hQ hP in
theorem gatherTerms [DecidableEq K] [Spelling K] {ts : List (Term K)} (hts : ∀ t ∈ ts, Rest Q t) :
    ∀ group ∈ gatherTerms ts, Q group.rest := by
  rw [gatherTerms_eq]
  suffices hfrom : ∀ groups : List (LikeTerms K), (∀ group ∈ groups, Q group.rest) →
      ∀ group ∈ ts.foldl gather groups, Q group.rest from hfrom [] (by simp)
  induction ts with
  | nil => exact fun groups hgroups => hgroups
  | cons t ts ih =>
    intro groups hgroups
    obtain ⟨ht, hothers⟩ := List.forall_mem_cons.mp hts
    obtain ⟨x, rest⟩ := t
    cases rest with
    | none => exact ih hothers groups hgroups
    | some rest => exact ih hothers _ (addTerm _ _ (ht rest rfl) hgroups)

theorem appendTerm {sum : Expr K} {t : Term K} (hsum : Q sum) (hx : P t.coefficient)
    (ht : Rest Q t) : Q (appendTerm sum t) := by
  have hnegated : Rest Q { t with coefficient := -t.coefficient } := ht
  exact ite (hQ.binary nofun ⟨hsum, hQ.toExpr (hP.neg hx) hnegated⟩)
    (hQ.binary nofun ⟨hsum, hQ.toExpr hx ht⟩)

theorem foldl_appendTerm {ts : List (Term K)} {sum : Expr K} (hsum : Q sum)
    (hts : ∀ t ∈ ts, P t.coefficient ∧ Rest Q t) : Q (ts.foldl NormalForm.appendTerm sum) := by
  induction ts generalizing sum with
  | nil => exact hsum
  | cons t ts ih =>
    obtain ⟨⟨hx, ht⟩, hothers⟩ := List.forall_mem_cons.mp hts
    exact ih (hQ.appendTerm hP hsum hx ht) hothers

theorem buildSum {ts : List (Term K)} (hts : ∀ t ∈ ts, P t.coefficient ∧ Rest Q t) :
    Q (buildSum ts) := by
  cases ts with
  | nil => exact hQ.zero hP
  | cons t ts =>
    obtain ⟨⟨hx, ht⟩, hothers⟩ := List.forall_mem_cons.mp hts
    exact hQ.foldl_appendTerm hP (hQ.toExpr hx ht) hothers

/-- A sum in order has the property if its constant and its coefficients have it. -/
theorem orderedSum [DecidableEq K] [Spelling K] (he : Q e)
    (hconstant : P (constantPart (NormalForm.terms Literal.one e)))
    (hsums : ∀ group ∈ NormalForm.gatherTerms (NormalForm.terms Literal.one e),
      Literal.cancels group.sum group.scale = false → P group.sum) : Q (orderedSum e) := by
  have hsorted : ∀ t ∈ sortByText (((NormalForm.gatherTerms (NormalForm.terms Literal.one e)).filter
      fun group => !Literal.cancels group.sum group.scale).map fun group =>
        (group.text, (⟨group.sum, some group.rest⟩ : Term K))), P t.coefficient ∧ Rest Q t := by
    intro t ht
    obtain ⟨group, hgroup, rfl⟩ := List.mem_map.mp ((sortByText_map_perm _ _ _).mem_iff.mp ht)
    obtain ⟨hgathered, hkept⟩ := List.mem_filter.mp hgroup
    exact ⟨hsums group hgathered (Bool.not_eq_true' _ |>.mp hkept),
      rest_some _ (gatherTerms (hQ.terms hP _ he) group hgathered)⟩
  unfold NormalForm.orderedSum
  refine hQ.buildSum hP ?_
  split
  · exact hsorted
  · exact List.forall_mem_cons.mpr ⟨⟨hconstant, rest_none _⟩, hsorted⟩

theorem collectTerms [DecidableEq K] [Spelling K] (he : Q e) (h : collectTerms e = some e') :
    Q e' ∨ Leaves P e e' := by
  have happlied := h
  unfold NormalForm.collectTerms at h
  dsimp only at h
  split_ifs at h
  obtain rfl := Option.some.inj h
  refine or_iff_not_imp_right.mpr fun hkept => hQ.orderedSum hP he ?_ fun group hgroup hsum => ?_
  · exact by_contra fun hnumber => hkept (.collectTerms happlied (.inl hnumber))
  · exact by_contra fun hnumber =>
      hkept (.collectTerms happlied (.inr ⟨group, hgroup, hsum, hnumber⟩))

/-- **A rule keeps a hereditary property**, or combines numbers to one that has it not. -/
theorem rule [DecidableEq K] [Spelling K] {domain : Domain} {op : Operator}
    {rule : Expr K → Option (Expr K)} (hrule : rule ∈ rules domain op) (he : Q e)
    (h : rule e = some e') : Q e' ∨ Leaves P e e' := by
  rcases mem_rules hrule with rfl | rfl | rfl | rfl | rfl | ⟨-, rfl | rfl⟩
  · exact .inl (hQ.foldLiterals hP h)
  · exact .inl (hQ.dropNeutral hP he h)
  · exact hQ.collectTerms hP he h
  · exact hQ.collectFactors hP he h
  · exact .inl (hQ.invertDenominator hP he h)
  · exact hQ.powerOfPower he h
  · exact .inl (hQ.powerOfProduct he h)

end Rules

end ClosedIn

/-- **Differentiation keeps a hereditary property.** -/
theorem HereditaryIn.derive [Literal K] {P : K → Prop} {Q : Expr K → Prop} (hQ : HereditaryIn P Q)
    (hP : Supplied P) {e d : Expr K} {name : String} (he : Q e) (h : e.derive name = .ok d) : Q d :=
  hQ.closedIn.derive hP hQ.binary.mpr he h

/-! ### Properties of all literals -/

namespace Hereditary

open NormalForm

variable [Literal K] {Q : Expr K → Prop} (hQ : Hereditary Q) {e d : Expr K}

include hQ

/-- **Differentiation keeps a hereditary property.** -/
theorem derive {name : String} (he : Q e) (h : e.derive name = .ok d) : Q d :=
  hQ.hereditaryIn.derive supplied_all he h

variable [DecidableEq K] [Spelling K]

/-- A hereditary property is kept by the rules. -/
theorem ruleCongruence (domain : Domain) :
    RuleCongruence domain fun e e' : Expr K => Q e → Q e' where
  refl _ := id
  trans h h' he := h' (h he)
  call := hQ.call_congr
  binary hu hv h := hQ.binary.mpr ⟨hu (hQ.binary.mp h).1, hv (hQ.binary.mp h).2⟩
  rule hrule happlied he :=
    (hQ.hereditaryIn.closedIn.rule supplied_all hrule he happlied).resolve_right not_leaves_all
  foldCall happlied _ := hQ.hereditaryIn.closedIn.foldCall supplied_all happlied

/-- **Simplification keeps a hereditary property.** -/
theorem simplify (domain : Domain) (he : Q e) : Q (e.simplify domain) :=
  (hQ.ruleCongruence domain).simplify e he

theorem differentiate {options : Differentiator} {name : String} (he : Q e)
    (h : options.differentiate e name = .ok d) : Q d := by
  obtain ⟨-, -, h⟩ := bind_eq_ok_iff.mp h
  obtain ⟨raw, hraw, h⟩ := bind_eq_ok_iff.mp h
  obtain ⟨-, -, h⟩ := bind_eq_ok_iff.mp h
  cases h
  exact ClosedIn.ite (hQ.simplify _ (hQ.derive he hraw)) (hQ.derive he hraw)

end Hereditary

end DensityKernel
