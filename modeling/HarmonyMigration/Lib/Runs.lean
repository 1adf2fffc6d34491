import Mathlib.Tactic

/-! Runs of a partial step function, in which every step taken meets a condition. -/

namespace Runs

variable {σ α : Type*} (step : σ → α → Option σ) (guard : σ → α → Prop)

/-- The states reached from `s` by steps that meet `guard`. -/
inductive Reach (s : σ) : σ → Prop
  | refl : Reach s s
  | tail {t u : σ} {a : α} : Reach s t → guard t a → step t a = some u → Reach s u

/-- A list of actions taken one after another. -/
def run (s : σ) (actions : List α) : Option σ := actions.foldlM step s

/-- The same, stopping where the condition fails. -/
def guardedRun [∀ s a, Decidable (guard s a)] (s : σ) (actions : List α) : Option σ :=
  actions.foldlM (fun t a => if guard t a then step t a else none) s

variable {step guard}

theorem run_cons {s t : σ} {a : α} (h : step s a = some t) (actions : List α) :
    run step s (a :: actions) = run step t actions := by
  rw [run, List.foldlM_cons, h]
  rfl

/-- What holds at first and is kept by every step that meets the condition holds throughout. -/
theorem Reach.invariant {I : σ → Prop} {s t : σ} (h : Reach step guard s t) (h0 : I s)
    (hstep : ∀ t a u, I t → guard t a → step t a = some u → I u) : I t := by
  induction h with
  | refl => exact h0
  | tail _ hg hu ih => exact hstep _ _ _ ih hg hu

theorem Reach.mono {guard' : σ → α → Prop} (hguard : ∀ s a, guard s a → guard' s a) {s t : σ}
    (h : Reach step guard s t) : Reach step guard' s t := by
  induction h with
  | refl => exact .refl
  | tail _ hg hu ih => exact .tail ih (hguard _ _ hg) hu

theorem reach_of_guardedRun [∀ s a, Decidable (guard s a)] {s t u : σ} {actions : List α}
    (h : Reach step guard s t) (hr : guardedRun step guard t actions = some u) :
    Reach step guard s u := by
  induction actions generalizing t with
  | nil => cases hr; exact h
  | cons a as ih =>
    rw [guardedRun, List.foldlM_cons] at hr
    obtain ⟨v, hv, hr⟩ := Option.bind_eq_some_iff.mp hr
    split_ifs at hv with hg
    exact ih (.tail h hg hv) hr

end Runs
