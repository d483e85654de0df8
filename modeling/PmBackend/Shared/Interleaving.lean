import Mathlib.Data.List.Perm.Basic
import Mathlib.Tactic.Common

set_option autoImplicit false

namespace Interleaving

variable {α σ : Type}

-- every worker goes through its list in order; at each point any worker may do its next step
inductive Interleaves : List (List α) → List α → Prop where
  | done (workers : List (List α)) (idle : ∀ steps ∈ workers, steps = []) : Interleaves workers []
  | step (workers : List (List α)) (i : Nat) (a : α) (rest out : List α)
      (next : workers[i]? = some (a :: rest)) (later : Interleaves (workers.set i rest) out) :
      Interleaves workers (a :: out)

theorem flatten_set_perm (workers : List (List α)) (i : Nat) (a : α) (rest : List α)
    (next : workers[i]? = some (a :: rest)) :
    (a :: (workers.set i rest).flatten).Perm workers.flatten := by
  induction workers generalizing i with
  | nil => simp at next
  | cons steps others ih =>
    cases i with
    | zero =>
      simp only [List.getElem?_cons_zero, Option.some.injEq] at next
      simp [next]
    | succ i =>
      simp only [List.getElem?_cons_succ] at next
      simp only [List.set_cons_succ, List.flatten_cons]
      exact List.perm_middle.symm.trans ((ih i next).append_left steps)

theorem Interleaves.perm {workers : List (List α)} {out : List α} (run : Interleaves workers out) :
    out.Perm workers.flatten := by
  induction run with
  | done workers idle => rw [List.flatten_eq_nil_iff.mpr idle]
  | step workers i a rest out next later ih =>
    exact (ih.cons a).trans (flatten_set_perm workers i a rest next)

theorem Interleaves.mem_iff {workers : List (List α)} {out : List α} (run : Interleaves workers out)
    (a : α) : a ∈ out ↔ ∃ steps ∈ workers, a ∈ steps := by
  rw [run.perm.mem_iff, List.mem_flatten]

theorem interleaves_flatten (workers : List (List α)) : Interleaves workers workers.flatten := by
  suffices after : ∀ idle : List (List α), (∀ steps ∈ idle, steps = []) →
      Interleaves (idle ++ workers) workers.flatten by
    simpa using after [] (by simp)
  induction workers with
  | nil =>
    intro idle empty
    exact Interleaves.done _ (by simpa using empty)
  | cons steps others ih =>
    induction steps with
    | nil =>
      intro idle empty
      have later := ih (idle ++ [[]]) (by simpa [or_imp, forall_and] using empty)
      simpa using later
    | cons a rest ih_steps =>
      intro idle empty
      refine Interleaves.step _ idle.length a rest _ (by simp) ?_
      simpa using ih_steps idle empty

end Interleaving
