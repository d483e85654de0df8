import Mathlib.Tactic.Common

set_option autoImplicit false

namespace SafeRuns

variable {σ α : Type} (step : σ → α → σ)

-- every state of the run, the first one included
def Always (good : σ → Prop) : σ → List α → Prop
  | s, [] => good s
  | s, a :: rest => good s ∧ Always good (step s a) rest

def EachStep (safe : σ → α → Prop) : σ → List α → Prop
  | _, [] => True
  | s, a :: rest => safe s a ∧ EachStep safe (step s a) rest

variable {step} {good inv : σ → Prop} {safe : σ → α → Prop}

theorem Always.head {s : σ} {actions : List α} (run : Always step good s actions) : good s := by
  cases actions with
  | nil => exact run
  | cons a rest => exact run.1

theorem always_of_safe (holds : ∀ s, inv s → good s) (keeps : ∀ s a, inv s → safe s a → inv (step s a))
    {s : σ} (start : inv s) {actions : List α} (each : EachStep step safe s actions) :
    Always step good s actions := by
  induction actions generalizing s with
  | nil => exact holds s start
  | cons a rest ih => exact ⟨holds s start, ih (keeps s a start each.1) each.2⟩

theorem always_iff_safe (holds : ∀ s, inv s → good s) (keeps : ∀ s a, inv s → safe s a → inv (step s a))
    (breaks : ∀ s a, inv s → ¬safe s a → ¬good (step s a)) {s : σ} (start : inv s) (actions : List α) :
    Always step good s actions ↔ EachStep step safe s actions := by
  refine ⟨fun run => ?_, always_of_safe holds keeps start⟩
  induction actions generalizing s with
  | nil => trivial
  | cons a rest ih =>
    have allowed : safe s a := by
      by_contra unsafe_step
      exact breaks s a start unsafe_step run.2.head
    exact ⟨allowed, ih (keeps s a start allowed) run.2⟩

end SafeRuns
