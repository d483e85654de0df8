import Mathlib.Logic.Function.Basic

set_option autoImplicit false

namespace DeferredLog

inductive Change (K V : Type) where
  | remove (key : K)
  | modify (key : K) (f : V → V)
  | keep

variable {K V : Type} [DecidableEq K] {map : K → Option V} {key : K} {changes : List (Change K V)}

def Change.Names (key : K) : Change K V → Prop
  | remove k => k = key
  | modify k _ => k = key
  | keep => False

def Change.apply (map : K → Option V) : Change K V → K → Option V
  | remove k => Function.update map k none
  | modify k f => Function.update map k ((map k).map f)
  | keep => map

def applyAll (changes : List (Change K V)) (map : K → Option V) : K → Option V := changes.foldl Change.apply map

theorem applyAll_append (changes : List (Change K V)) (change : Change K V) (map : K → Option V) :
    applyAll (changes ++ [change]) map = change.apply (applyAll changes map) := by
  simp [applyAll]

theorem apply_other {change : Change K V} (other : ¬change.Names key) : change.apply map key = map key := by
  cases change with
  | remove k => exact Function.update_of_ne (Ne.symm other) _ _
  | modify k f => exact Function.update_of_ne (Ne.symm other) _ _
  | keep => rfl

theorem apply_none (change : Change K V) (missing : map key = none) : change.apply map key = none := by
  by_cases named : change.Names key
  · cases change with
    | remove k =>
      subst named
      exact Function.update_self _ _ _
    | modify k f =>
      subst named
      simp [Change.apply, missing]
    | keep => exact missing
  · rw [apply_other named, missing]

theorem apply_update {change : Change K V} (other : ¬change.Names key) (value : Option V) :
    change.apply (Function.update map key value) = Function.update (change.apply map) key value := by
  cases change with
  | remove k => exact Function.update_comm (Ne.symm other) _ _ _
  | modify k f =>
    have different : k ≠ key := other
    simp only [Change.apply, Function.update_of_ne different]
    exact Function.update_comm different.symm _ _ _
  | keep => rfl

theorem applyAll_none (missing : map key = none) : applyAll changes map key = none := by
  induction changes generalizing map with
  | nil => exact missing
  | cons change rest ih => exact ih (apply_none change missing)

theorem applyAll_other (others : ∀ change ∈ changes, ¬change.Names key) : applyAll changes map key = map key := by
  induction changes generalizing map with
  | nil => rfl
  | cons change rest ih =>
    have later : applyAll rest (change.apply map) key = change.apply map key :=
      ih fun c member => others c (List.mem_cons_of_mem _ member)
    exact later.trans (apply_other (others change List.mem_cons_self))

theorem applyAll_update (others : ∀ change ∈ changes, ¬change.Names key) (value : Option V) :
    applyAll changes (Function.update map key value) = Function.update (applyAll changes map) key value := by
  induction changes generalizing map with
  | nil => rfl
  | cons change rest ih =>
    have later : applyAll rest (Function.update (change.apply map) key value) =
        Function.update (applyAll rest (change.apply map)) key value :=
      ih fun c member => others c (List.mem_cons_of_mem _ member)
    rw [← apply_update (others change List.mem_cons_self)] at later
    exact later

theorem applyAll_removed (removed : Change.remove key ∈ changes) : applyAll changes map key = none := by
  induction changes generalizing map with
  | nil => cases removed
  | cons change rest ih =>
    rcases List.mem_cons.mp removed with rfl | later
    · change applyAll rest (Function.update map key none) key = none
      exact applyAll_none (Function.update_self _ _ _)
    · exact ih later

end DeferredLog
