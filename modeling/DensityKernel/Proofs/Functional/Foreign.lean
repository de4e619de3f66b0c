import DensityKernel.Functional.Basic
import DensityKernel.Proofs.Density.DerivativeTable
import DensityKernel.Proofs.Expr.Symbols
import DensityKernel.Proofs.Number.RealValue

/-!
Derivatives by foreign variables. The channels of a valid functional are over
their variables, and differentiation by any other variable, at whatever step of
a path, leaves the literal zero (`alongPath_eq_zero`). So no derivative is
missing from the tables of a functional but those that are zero.
-/

namespace DensityKernel

open DensityKernel.Expr

open Literal (Valued)

/-! ### Derivatives that vanish -/

section Derivatives

variable {K : Type} [Literal K] [Valued K] {e d : Expr K} {name : String}

theorem Expr.isZero_zero : (zero : Expr K).isZero = true :=
  Literal.isZero_iff.mpr ⟨Literal.isFinite_zero, Literal.real_zero⟩

/-- No rule makes anything of operands whose derivatives are zero. -/
theorem Expr.operationDerivative_zero (op : Operator) (u v : Expr K) :
    operationDerivative op u v zero zero = zero := by
  have htimes : ∀ w : Expr K, times zero w = zero := fun w => by
    rw [times, isZero_zero, Bool.true_or, if_pos rfl]
  cases op with
  | add => exact if_pos isZero_zero
  | sub => exact if_pos isZero_zero
  | mul =>
    rw [operationDerivative, productDerivative, htimes, htimes]
    exact if_pos isZero_zero
  | div =>
    rw [operationDerivative, quotientDerivative, isZero_zero]
    rfl
  | pow =>
    have htotal : plus (zero : Expr K) zero = zero := if_pos isZero_zero
    rw [operationDerivative, exponentialDerivative, if_pos isZero_zero, if_pos isZero_zero, htotal]
    exact if_pos isZero_zero

/-- **The derivative by a symbol that does not occur is the literal zero.** -/
theorem Expr.derive_of_not_mentions (he : e.mentions name = false) (h : e.derive name = .ok d) :
    d = zero := by
  induction e generalizing d with
  | num x =>
    rw [derive_leaf.1 x] at h
    exact (Except.ok.inj h).symm
  | sym s =>
    have hne : s ≠ name := by simpa [mentions] using he
    rw [derive_leaf.2 s, if_neg hne] at h
    exact (Except.ok.inj h).symm
  | call f args ih =>
    obtain ⟨g, u, du, rfl, -, hdu, rfl⟩ := derive_call_iff.mp h
    have hu : u.mentions name = false := by simpa [mentions, anyMentions] using he
    rw [ih u List.mem_cons_self hu hdu, if_pos isZero_zero]
  | binary op u v ihu ihv =>
    obtain ⟨hu, hv⟩ : u.mentions name = false ∧ v.mentions name = false := by
      simpa [mentions] using he
    rcases derive_binary_iff.mp h with ⟨du, dv, hdu, hdv, -, rfl⟩ | ⟨-, -, du, hdu, rfl⟩
    · rw [ihu hu hdu, ihv hv hdv, operationDerivative_zero]
    · rw [ihu hu hdu]
      exact if_pos isZero_zero

variable [DecidableEq K] [Spelling K] {options : Differentiator}

theorem Differentiator.differentiate_of_not_mentions (he : e.mentions name = false)
    (h : options.differentiate e name = .ok d) : d = zero := by
  obtain ⟨-, -, h⟩ := bind_eq_ok_iff.mp h
  obtain ⟨raw, hraw, h⟩ := bind_eq_ok_iff.mp h
  obtain ⟨-, -, h⟩ := bind_eq_ok_iff.mp h
  obtain rfl := derive_of_not_mentions he hraw
  rw [← Except.ok.inj h, finish]
  split_ifs
  · exact Differentiator.simplify_num _ _
  · rfl

theorem Differentiator.alongPath_zero {path : List Variable}
    (h : options.alongPath zero path = .ok d) : d = zero := by
  induction path with
  | nil => exact (Except.ok.inj h).symm
  | cons w path ih =>
    rw [alongPath, List.foldlM_cons] at h
    obtain ⟨e', he', h⟩ := bind_eq_ok_iff.mp h
    obtain rfl := differentiate_of_not_mentions (e := zero) rfl he'
    exact ih h

/-- Along a path with such a symbol, the steps before it do not bring the symbol in, and those
after it differentiate zero. -/
theorem Differentiator.alongPath_of_not_mentions {path : List Variable} {v : Variable}
    (he : e.mentions v.name = false) (hv : v ∈ path) (h : options.alongPath e path = .ok d) :
    d = zero := by
  induction path generalizing e with
  | nil => cases hv
  | cons w path ih =>
    rw [alongPath, List.foldlM_cons] at h
    obtain ⟨e', he', h⟩ := bind_eq_ok_iff.mp h
    rcases List.mem_cons.mp hv with rfl | hv
    · obtain rfl := differentiate_of_not_mentions he he'
      exact alongPath_zero h
    · exact ih (over_ne_iff.mp (hereditary_over.differentiate (over_ne_iff.mpr he) he')) hv h

end Derivatives

/-! ### Channels -/

namespace Functional

section Channels

variable {K : Type} {c : Channel K}

theorem ofName?_name (v : Variable) : Variable.ofName? v.name = some v := by
  cases v <;> decide

/-- A channel that passes the check mentions none but its variables. -/
theorem mentions_of_checkChannel (h : checkChannel c = .ok ()) {v : Variable}
    (hv : v ∉ c.vars.toList) : c.expr.mentions v.name = false := by
  unfold checkChannel at h
  split at h
  · next hforeign =>
    rw [← over_ne_iff]
    rintro s hs rfl
    have hmem : v ∈ c.expr.symbols.filterMap Variable.ofName? :=
      List.mem_filterMap.mpr ⟨v.name, hs, ofName?_name v⟩
    have hcontains := List.find?_eq_none.mp hforeign v hmem
    simp [VariableList.contains, hv] at hcontains
  · cases h

variable [Literal K] [Spelling K] {f : Functional K} {channels : List (Channel K)}

/-- **The channels of a valid functional are over their variables.** -/
theorem mentions_of_validate (hvalid : f.validate = .ok ())
    (hchannels : f.channelList = .ok channels) (hc : c ∈ channels) {v : Variable}
    (hv : v ∉ c.vars.toList) : c.expr.mentions v.name = false := by
  unfold validate at hvalid
  split_ifs at hvalid
  obtain ⟨⟨⟩, -, hvalid⟩ := bind_eq_ok_iff.mp hvalid
  obtain ⟨channels', hchannels', hvalid⟩ := bind_eq_ok_iff.mp hvalid
  obtain rfl : channels = channels' := Except.ok.inj (hchannels.symm.trans hchannels')
  exact mentions_of_checkChannel (forM_eq_ok_iff.mp hvalid c hc) hv

end Channels

/-- **No derivative that is not zero is left out.** Along every path with a variable that is not
among those of the channel, the derivative is the literal zero if there is one, whatever the
options. -/
theorem alongPath_eq_zero {f : Functional Double} {channels : List (Channel Double)}
    {c : Channel Double} {options : Differentiator} {path : List Variable} {v : Variable}
    {d : Expr Double} (hvalid : f.validate = .ok ()) (hchannels : f.channelList = .ok channels)
    (hc : c ∈ channels) (hv : v ∈ path) (hforeign : v ∉ c.vars.toList)
    (h : options.alongPath c.expr path = .ok d) : d = zero :=
  Differentiator.alongPath_of_not_mentions (mentions_of_validate hvalid hchannels hc hforeign) hv h

/-- The alpha channel with the gradient of beta in the middle of the path, not simplified. -/
theorem alongPath_gradient_of_other_spin :
    let f : Functional Double :=
      { title := "Spins", channels := .decoupled (.pow (.sym "ra") (.sym "ga")) (.sym "rb"),
        gradients := true }
    let options : Differentiator := { simplify := false }
    let c : Channel Double := ⟨.pow (.sym "ra") (.sym "ga"), .alpha true, some .ra⟩
    ∃ channels d, f.validate = .ok () ∧ f.channelList = .ok channels ∧ c ∈ channels ∧
      Variable.gb ∈ [Variable.ra, .gb, .ga] ∧ Variable.gb ∉ c.vars.toList ∧
      options.alongPath c.expr [.ra, .gb, .ga] = .ok d ∧ d = zero := by
  intro f options c
  obtain ⟨channels, hchannels⟩ : ∃ channels, f.channelList = .ok channels := ⟨_, rfl⟩
  have hvalid : f.validate = .ok () := by decide
  have hc : c ∈ channels := by
    obtain rfl := Except.ok.inj hchannels
    exact List.mem_cons_self
  have hv : Variable.gb ∈ [Variable.ra, .gb, .ga] := by decide
  have hforeign : Variable.gb ∉ c.vars.toList := by decide
  obtain ⟨d, hd⟩ : ∃ d, options.alongPath c.expr [.ra, .gb, .ga] = .ok d := ⟨_, rfl⟩
  exact ⟨channels, d, hvalid, hchannels, hc, hv, hforeign, hd,
    alongPath_eq_zero hvalid hchannels hc hv hforeign hd⟩

end Functional

end DensityKernel
