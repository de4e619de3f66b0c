import DensityKernel.Proofs.Derivative.Rules
import DensityKernel.Proofs.Expr.Registered

/-!
Where derivatives have values. At a regular point the rules of differentiation
build parts that have values, with one exception: the slope of the cube root is
a power with the exponent minus two thirds, which has no value at a negative
argument, although the cube root has a derivative there.

`rootArguments` lists the arguments of the cube roots whose slopes become parts
of the derivative. At a regular point the derivative has a value exactly if all
of these are positive (`exists_derivative_defined_iff`).
-/

namespace DensityKernel.Expr

open DensityKernel.Literal

variable {K : Type} [Literal K]

/-! ### Cube roots that are differentiated -/

/-- The derivative is a literal zero. -/
def vanishes (name : String) (e : Expr K) : Bool :=
  match e.derive name with
  | .ok d => d.isZero
  | .error _ => false

mutual

/-- The arguments of the cube roots whose slopes become parts of the derivative.
A literal zero leaves out the derivative of what it is multiplied to or of what
it is the exponent of, and a cube root has no slope in the derivative if its
argument has a literal zero as derivative. -/
def rootArguments (name : String) : Expr K → List (Expr K)
  | .num _ | .sym _ => []
  | .call f args =>
    (if f = Elementary.cbrt.name then args.filter fun u => !u.vanishes name else []) ++
      rootArgumentsArgs name args
  | .binary op u v =>
    match op with
    | .add | .sub => rootArguments name u ++ rootArguments name v
    | .mul =>
      (if v.isZero then [] else rootArguments name u) ++
        (if u.isZero then [] else rootArguments name v)
    | .div => rootArguments name u ++ (if u.isZero then [] else rootArguments name v)
    | .pow =>
      (if v.isZero then [] else rootArguments name u) ++
        (if v.mentions name then rootArguments name v else [])

def rootArgumentsArgs (name : String) : List (Expr K) → List (Expr K)
  | [] => []
  | a :: args => rootArguments name a ++ rootArgumentsArgs name args

end

mutual

/-- The arguments of all cube roots. -/
def cubeRoots : Expr K → List (Expr K)
  | .num _ | .sym _ => []
  | .call f args => (if f = Elementary.cbrt.name then args else []) ++ cubeRootsArgs args
  | .binary _ u v => cubeRoots u ++ cubeRoots v

def cubeRootsArgs : List (Expr K) → List (Expr K)
  | [] => []
  | a :: args => cubeRoots a ++ cubeRootsArgs args

end

variable {ρ : String → ℝ} {name f : String} {e u v w d du dv : Expr K} {args : List (Expr K)}

theorem vanishes_of_derive (h : e.derive name = .ok d) : e.vanishes name = d.isZero := by
  rw [vanishes, h]

theorem mem_rootArgumentsArgs :
    w ∈ rootArgumentsArgs name args ↔ ∃ a ∈ args, w ∈ rootArguments name a := by
  induction args with
  | nil => simp [rootArgumentsArgs]
  | cons a args ih => rw [rootArgumentsArgs, List.mem_append, ih, List.exists_mem_cons_iff]

omit [Literal K] in
theorem mem_cubeRootsArgs : w ∈ cubeRootsArgs args ↔ ∃ a ∈ args, w ∈ cubeRoots a := by
  induction args with
  | nil => simp [cubeRootsArgs]
  | cons a args ih => rw [cubeRootsArgs, List.mem_append, ih, List.exists_mem_cons_iff]

/-- What is differentiated as the argument of a cube root is one. -/
theorem rootArguments_subset : rootArguments name e ⊆ e.cubeRoots := by
  have hunless : ∀ {c : Prop} [Decidable c] {u : Expr K}, rootArguments name u ⊆ u.cubeRoots →
      (if c then [] else rootArguments name u) ⊆ u.cubeRoots := by
    intro c _ u hu
    split
    · exact List.nil_subset _
    · exact hu
  induction e with
  | num | sym => exact List.nil_subset _
  | call f args ih =>
    rw [rootArguments, cubeRoots]
    intro w hw
    rcases List.mem_append.mp hw with hw | hw
    · refine List.mem_append_left _ ?_
      split_ifs at hw ⊢
      · exact (List.mem_filter.mp hw).1
      · exact absurd hw List.not_mem_nil
    · obtain ⟨a, ha, hw⟩ := mem_rootArgumentsArgs.mp hw
      exact List.mem_append_right _ (mem_cubeRootsArgs.mpr ⟨a, ha, ih a ha hw⟩)
  | binary op u v ihu ihv =>
    rw [cubeRoots]
    have hboth : ∀ {xs ys}, xs ⊆ u.cubeRoots → ys ⊆ v.cubeRoots →
        xs ++ ys ⊆ u.cubeRoots ++ v.cubeRoots := fun hxs hys =>
      List.append_subset.mpr ⟨List.subset_append_of_subset_left _ hxs,
        List.subset_append_of_subset_right _ hys⟩
    cases op with
    | add | sub => exact hboth ihu ihv
    | mul => exact hboth (hunless ihu) (hunless ihv)
    | div => exact hboth ihu (hunless ihv)
    | pow =>
      refine hboth (hunless ihu) ?_
      split
      · exact ihv
      · exact List.nil_subset _

section Roots

variable [Valued K]

/-- The cube roots whose slopes become parts of the derivative have positive arguments. -/
def RootsPositive (ρ : String → ℝ) (name : String) (e : Expr K) : Prop :=
  ∀ u ∈ rootArguments name e, 0 < u.value (.usual ρ)

theorem rootsPositive_leaf :
    (∀ x : K, RootsPositive ρ name (num x)) ∧ ∀ s, RootsPositive ρ name (sym s : Expr K) :=
  ⟨fun _ => List.forall_mem_nil _, fun _ => List.forall_mem_nil _⟩

theorem rootsPositive_call :
    RootsPositive ρ name (call f [u]) ↔
      RootsPositive ρ name u ∧
        (f = Elementary.cbrt.name → u.vanishes name = false → 0 < u.value (.usual ρ)) := by
  simp only [RootsPositive, rootArguments, rootArgumentsArgs, List.append_nil,
    List.forall_mem_append]
  rw [and_comm]
  refine and_congr_right' ?_
  split_ifs with hf
  · simp [hf]
  · simp [hf]

/-- What is required of an operand unless its derivative is left out. -/
theorem forall_mem_unless {c : Prop} [Decidable c] :
    (∀ w ∈ if c then [] else rootArguments name u, 0 < w.value (.usual ρ)) ↔
      (¬c → RootsPositive ρ name u) := by
  split_ifs with hc <;> simp [hc, RootsPositive]

theorem rootsPositive_add : RootsPositive ρ name (add u v) ↔
    RootsPositive ρ name u ∧ RootsPositive ρ name v :=
  List.forall_mem_append

theorem rootsPositive_sub : RootsPositive ρ name (sub u v) ↔
    RootsPositive ρ name u ∧ RootsPositive ρ name v :=
  List.forall_mem_append

theorem rootsPositive_mul : RootsPositive ρ name (mul u v) ↔
    (¬v.isZero → RootsPositive ρ name u) ∧ (¬u.isZero → RootsPositive ρ name v) :=
  List.forall_mem_append.trans (and_congr forall_mem_unless forall_mem_unless)

theorem rootsPositive_div : RootsPositive ρ name (div u v) ↔
    RootsPositive ρ name u ∧ (¬u.isZero → RootsPositive ρ name v) :=
  List.forall_mem_append.trans (and_congr_right' forall_mem_unless)

theorem rootsPositive_pow : RootsPositive ρ name (pow u v) ↔
    (¬v.isZero → RootsPositive ρ name u) ∧ (v.mentions name → RootsPositive ρ name v) := by
  refine List.forall_mem_append.trans (and_congr forall_mem_unless ?_)
  split_ifs with hv <;> simp [hv, RootsPositive]

/-- All calls of a regular expression are registered. -/
theorem Regular.registered (h : e.Regular ρ) : e.Registered := by
  induction e with
  | num | sym => trivial
  | call f args ih =>
    obtain ⟨g, u, rfl, hlookup, hu, -⟩ := regular_call_iff.mp h
    refine registered_call_iff.mpr ⟨?_, List.forall_mem_singleton.mpr (ih u List.mem_cons_self hu)⟩
    rw [List.length_singleton, hlookup, Option.isSome_some]
  | binary op u v ihu ihv => exact ⟨ihu h.1, ihv h.2.1⟩

end Roots

/-! ### Derivatives -/

section Derivatives

variable [Exact K]

/-- The rules for operations. The derivative of an operand has a value if the cube roots that are
differentiated in it have positive arguments. -/
theorem defined_operationDerivative_iff {op : Operator} (hu : u.Defined ρ) (hv : v.Defined ρ)
    (hregular : RegularOperation ρ op u v) (hmentions : op = .pow → v.mentions name = true)
    (hdu : du.Defined ρ ↔ RootsPositive ρ name u) (hdv : dv.Defined ρ ↔ RootsPositive ρ name v) :
    (operationDerivative op u v du dv).Defined ρ ↔ RootsPositive ρ name (.binary op u v) := by
  cases op with
  | add => exact defined_plus_iff.trans ((and_congr hdu hdv).trans rootsPositive_add.symm)
  | sub => exact defined_minus_iff.trans ((and_congr hdu hdv).trans rootsPositive_sub.symm)
  | mul =>
    rw [operationDerivative, productDerivative, defined_plus_iff, defined_times_of_defined hv,
      defined_times_of_defined hu, hdu, hdv]
    exact rootsPositive_mul.symm
  | div =>
    rw [operationDerivative, defined_quotientDerivative_iff hu hv hregular, hdu, hdv]
    exact rootsPositive_div.symm
  | pow =>
    have hexponent : v.isZero = false := by
      cases v with
      | num => exact absurd (hmentions rfl) (by simp [mentions])
      | sym | call | binary => rfl
    have hpos : 0 < u.value (.usual ρ) := by
      rcases hregular with hpos | ⟨x, -, rfl, -⟩
      · exact hpos
      · exact absurd (hmentions rfl) (by simp [mentions])
    rw [operationDerivative, defined_exponentialDerivative_iff hu hv hpos, hdu, hdv]
    refine Iff.trans ?_ rootsPositive_pow.symm
    simp [hexponent, hmentions rfl]

/-- **A derivative has a value at a regular point exactly if no cube root of a negative number is
differentiated.** -/
theorem Regular.defined_iff (hregular : e.Regular ρ) (hderive : e.derive name = .ok d) :
    d.Defined ρ ↔ RootsPositive ρ name e := by
  induction e generalizing d with
  | num x =>
    obtain rfl : zero = d := Except.ok.inj ((derive_leaf.1 x).symm.trans hderive)
    exact iff_of_true defined_zero (rootsPositive_leaf.1 x)
  | sym s =>
    obtain rfl : (if s = name then one else zero) = d :=
      Except.ok.inj ((derive_leaf.2 s).symm.trans hderive)
    refine iff_of_true ?_ (rootsPositive_leaf.2 s)
    split_ifs
    · exact defined_one
    · exact defined_zero
  | call f args ih =>
    obtain ⟨g, u, rfl, hlookup, hu, hg⟩ := regular_call_iff.mp hregular
    obtain ⟨g', u', du, hargs, hlookup', hdu, rfl⟩ := derive_call_iff.mp hderive
    obtain rfl : u = u' := by simpa using hargs
    obtain rfl : g = g' := Option.some.inj (hlookup.symm.trans hlookup')
    have hcbrt : g = .cbrt ↔ f = Elementary.cbrt.name := by
      constructor
      · rintro rfl
        exact (Elementary.name_of_lookup hlookup).symm
      · rintro rfl
        exact Option.some.inj (hlookup.symm.trans rfl)
    rw [defined_chain_iff hu.defined hg, rootsPositive_call, vanishes_of_derive hdu, hcbrt,
      ih u List.mem_cons_self hu hdu]
  | binary op u v ihu ihv =>
    obtain ⟨hu, hv, hop⟩ := hregular
    rcases derive_binary_iff.mp hderive with
      ⟨du, dv, hdu, hdv, hmentions, rfl⟩ | ⟨rfl, hconstant, du, hdu, rfl⟩
    · exact defined_operationDerivative_iff hu.defined hv.defined hop hmentions (ihu hu hdu)
        (ihv hv hdv)
    · rw [defined_powerDerivative_iff hu.defined hv.defined hop, ihu hu hdu, rootsPositive_pow,
        hconstant]
      simp

/-- **Where derivatives have values.** At a regular point there is a derivative, and it divides by
no zero and takes no power without a value exactly if the cube roots that are differentiated have
positive arguments; so it has a value if all cube roots have. -/
theorem exists_derivative_defined_iff (h : e.Regular ρ) (name : String) :
    ∃ d, e.derive name = .ok d ∧
      (d.Defined ρ ↔ ∀ u ∈ rootArguments name e, 0 < u.value (.usual ρ)) ∧
      ((∀ u ∈ e.cubeRoots, 0 < u.value (.usual ρ)) → d.Defined ρ) := by
  obtain ⟨d, hderive⟩ := h.registered.derive name
  have hiff := h.defined_iff hderive
  exact ⟨d, hderive, hiff, fun hroots => hiff.mpr fun u hu => hroots u (rootArguments_subset hu)⟩

end Derivatives

/-! ### The cube root of a difference -/

/-- The cube root of `ra - rb` is regular wherever the two differ, but its derivative in `ra` has a
value only where `ra` is the larger one. -/
theorem regular_rootOfDifference {ρ : String → ℝ} (h : ρ "ra" - ρ "rb" ≠ 0) :
    let root : Expr ExactNumber := call "cbrt" [sub (sym "ra") (sym "rb")]
    root.Regular ρ ∧ ∃ d, root.derive "ra" = .ok d ∧ (d.Defined ρ ↔ 0 < ρ "ra" - ρ "rb") := by
  intro root
  let difference : Expr ExactNumber := sub (sym "ra") (sym "rb")
  have hregular : difference.Regular ρ := ⟨trivial, trivial, trivial⟩
  have hdifference : difference.derive "ra" = .ok (minus one zero) :=
    derive_binary_iff.mpr (.inl ⟨one, zero, derive_leaf.2 "ra", derive_leaf.2 "rb", nofun, rfl⟩)
  have hone : minus one zero = (one : Expr ExactNumber) :=
    if_pos (isZero_iff.mpr ⟨isFinite_zero, real_zero⟩)
  rw [hone] at hdifference
  refine ⟨regular_call_iff.mpr ⟨.cbrt, difference, rfl, rfl, hregular, h⟩, _,
    derive_call_iff.mpr ⟨.cbrt, difference, one, rfl, rfl, hdifference, rfl⟩, ?_⟩
  rw [defined_chain_iff (g := .cbrt) hregular.defined h]
  simp [difference]

/-- Where `ra` is two and `rb` is one, the derivative has a value. -/
theorem exists_derivative_defined_rootOfDifference :
    let ρ : String → ℝ := fun s => if s = "ra" then 2 else 1
    let root : Expr ExactNumber := call "cbrt" [sub (sym "ra") (sym "rb")]
    root.Regular ρ ∧ ∃ d, root.derive "ra" = .ok d ∧ d.Defined ρ := by
  intro ρ root
  have hvalue : ρ "ra" - ρ "rb" = 1 := by simp [ρ]; norm_num
  have hregular : root.Regular ρ := (regular_rootOfDifference (by rw [hvalue]; norm_num)).1
  obtain ⟨d, hderive, -, hroots⟩ := exists_derivative_defined_iff hregular "ra"
  refine ⟨hregular, d, hderive, hroots ?_⟩
  simp [root, cubeRoots, cubeRootsArgs, Elementary.name, hvalue]

/-- **Where `ra` is one and `rb` is two, the derivative has no value**, although the cube root is
regular there. -/
theorem not_defined_derivative_rootOfDifference :
    let ρ : String → ℝ := fun s => if s = "ra" then 1 else 2
    let root : Expr ExactNumber := call "cbrt" [sub (sym "ra") (sym "rb")]
    root.Regular ρ ∧ ∃ d, root.derive "ra" = .ok d ∧ ¬d.Defined ρ := by
  intro ρ root
  have hvalue : ρ "ra" - ρ "rb" = -1 := by simp [ρ]; norm_num
  obtain ⟨hregular, d, hderive, hdefined⟩ :=
    regular_rootOfDifference (ρ := ρ) (by rw [hvalue]; norm_num)
  refine ⟨hregular, d, hderive, hdefined.not.mpr ?_⟩
  rw [hvalue]
  norm_num

end DensityKernel.Expr
