import DensityKernel.Density.Variable

/-!
The variables of one channel, in the order in which derivatives are listed.
The order need not be the canonical one, but a list is never empty and holds
no variable twice.
-/

namespace DensityKernel

structure VariableList where
  toList : List Variable
  ne_nil : toList ≠ []
  nodup : toList.Nodup

namespace VariableList

/-- The first variable that already stands further to the front. -/
def repeated? (front : List Variable) : List Variable → Option Variable
  | [] => none
  | v :: rest => if v ∈ front then some v else repeated? (front ++ [v]) rest

theorem nodup_of_repeated?_eq_none {front rest : List Variable}
    (hfront : front.Nodup) (h : repeated? front rest = none) : (front ++ rest).Nodup := by
  induction rest generalizing front with
  | nil => simpa using hfront
  | cons v rest ih =>
    simp only [repeated?] at h
    split at h
    · simp at h
    · rename_i hv
      have hnew : (front ++ [v]).Nodup := by
        refine List.nodup_append.2 ⟨hfront, by simp, ?_⟩
        intro a ha b hb
        have : b = v := by simpa using hb
        subst this
        intro hab
        exact hv (hab ▸ ha)
      simpa using ih hnew h

/-- Checks a list of variables. -/
def ofList (vars : List Variable) : Except Error VariableList :=
  if hne : vars = [] then .error (.invalidConfig .noVariables)
  else
    match h : repeated? [] vars with
    | some v => .error (.invalidConfig (.repeatedVariable v.name))
    | none => .ok ⟨vars, hne, by simpa using nodup_of_repeated?_eq_none List.nodup_nil h⟩

/-- The variables of a coupled functional: both densities, then the norms for
one with gradients, then the scalar product if the cross term is asked for. -/
def coupled (gradients cross : Bool) : Except Error VariableList :=
  match gradients, cross with
  | false, true => .error (.invalidConfig .crossWithoutGradients)
  | false, false => .ok ⟨[.ra, .rb], by decide, by decide⟩
  | true, false => .ok ⟨[.ra, .rb, .ga, .gb], by decide, by decide⟩
  | true, true => .ok ⟨[.ra, .rb, .ga, .gb, .gab], by decide, by decide⟩

/-- The variables of the alpha channel. -/
def alpha (gradients : Bool) : VariableList :=
  if gradients then ⟨[.ra, .ga], by decide, by decide⟩ else ⟨[.ra], by decide, by decide⟩

/-- The variables of the beta channel. -/
def beta (gradients : Bool) : VariableList :=
  if gradients then ⟨[.rb, .gb], by decide, by decide⟩ else ⟨[.rb], by decide, by decide⟩

def names (vars : VariableList) : List String :=
  vars.toList.map Variable.name

def contains (vars : VariableList) (v : Variable) : Bool :=
  vars.toList.contains v

/-- The place of a variable in the list. -/
def idxOf? (vars : VariableList) (v : Variable) : Option Nat :=
  vars.toList.idxOf? v

def text (vars : VariableList) : String :=
  "[" ++ String.intercalate ", " vars.names ++ "]"

end VariableList

end DensityKernel
