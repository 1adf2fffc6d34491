import Mathlib.Tactic

/-! Programs that may raise in the middle of what they change: raising does not take a change back. Such a
program is all or nothing where everything that can fail comes before its first change. -/

namespace Publish

variable {ε σ ρ α β γ : Type} {p : EStateM ε σ α} {q : α → EStateM ε σ β} {view : σ → ρ} {wanted : β → σ → Prop}
  {s t : σ} {a : α}

/-- A computation without the state. -/
def lift (x : Except ε α) : EStateM ε σ α := fun s =>
  match x with
  | .ok a => .ok a s
  | .error e => .error e s

/-- The program changes nothing. -/
def Keeps (p : EStateM ε σ α) : Prop :=
  ∀ s, match p.run s with
    | .ok _ t => t = s
    | .error _ t => t = s

/-- Raising leaves what is seen of the state as it was, and returning leaves what is wanted. -/
def AllOrNothing (view : σ → ρ) (wanted : α → σ → Prop) (p : EStateM ε σ α) (s : σ) : Prop :=
  match p.run s with
  | .ok a t => wanted a t
  | .error _ t => view t = view s

theorem bind_returns (h : p.run s = .ok a t) : (p >>= q).run s = (q a).run t := by
  rw [EStateM.run_bind, h]

theorem bind_raises {e : ε} (h : p.run s = .error e t) : (p >>= q).run s = .error e t := by
  rw [EStateM.run_bind, h]

theorem keeps_lift (x : Except ε α) : Keeps (lift x : EStateM ε σ α) := by
  intro s
  cases x with
  | ok a => rfl
  | error e => rfl

theorem Keeps.bind (hp : Keeps p) (hq : ∀ a, Keeps (q a)) : Keeps (p >>= q) := by
  intro s
  have hs := hp s
  cases h : p.run s with
  | ok a t =>
    rw [h] at hs
    obtain rfl : t = s := hs
    rw [bind_returns h]
    exact hq a t
  | error e t =>
    rw [h] at hs
    rw [bind_raises h]
    exact hs

/-- Checks in a row. -/
theorem keeps_forM {f : γ → EStateM ε σ PUnit} (hf : ∀ x, Keeps (f x)) (l : List γ) : Keeps (l.forM f) := by
  induction l with
  | nil =>
    intro s
    rfl
  | cons x l ih => exact (hf x).bind fun _ => ih

/-- What comes before the first change takes nothing away. -/
theorem allOrNothing_bind (hp : Keeps p) :
    AllOrNothing view wanted (p >>= q) s ↔ ∀ a, p.run s = .ok a s → AllOrNothing view wanted (q a) s := by
  have hs := hp s
  unfold AllOrNothing
  cases h : p.run s with
  | ok a t =>
    rw [h] at hs
    obtain rfl : t = s := hs
    rw [bind_returns h]
    refine ⟨?_, ?_⟩
    · intro hall a' ha'
      cases ha'
      exact hall
    · intro hall
      exact hall a rfl
  | error e t =>
    rw [h] at hs
    obtain rfl : t = s := hs
    rw [bind_raises h]
    simp

theorem allOrNothing_lift_bind {x : Except ε α} :
    AllOrNothing view wanted (lift x >>= q) s ↔ ∀ a, x = .ok a → AllOrNothing view wanted (q a) s := by
  rw [allOrNothing_bind (keeps_lift x)]
  cases x with
  | ok b => simp [lift, EStateM.run]
  | error e => simp [lift, EStateM.run]

/-- A check behind a change that is seen has to pass. -/
theorem passes_of_allOrNothing {x : Except ε γ} {next : γ → EStateM ε σ β} (hp : p.run s = .ok a t)
    (hview : view t ≠ view s) (h : AllOrNothing view wanted (p >>= fun _ => lift x >>= next) s) : ∃ c, x = .ok c := by
  unfold AllOrNothing at h
  rw [bind_returns hp] at h
  cases x with
  | ok c => exact ⟨c, rfl⟩
  | error e => exact absurd h hview

/-- A change and checks that pass are as good as what comes behind them. -/
theorem returns_of_passes {x : Except ε γ} {c : γ} {next : γ → EStateM ε σ β} (hp : p.run s = .ok a t) (hx : x = .ok c) :
    (p >>= fun _ => lift x >>= next).run s = (next c).run t := by
  rw [bind_returns hp]
  apply bind_returns
  subst hx
  rfl

end Publish
