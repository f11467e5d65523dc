import Mathlib.Data.List.Basic

/-!
# Actions that absorb earlier ones

An action is absorbing when doing it again, after anything, has the same effect
as if it had not been done before. A log of absorbing actions can be replayed
where some of them have been done already: the last round decides.
-/

namespace Absorption

variable {σ α : Type} {act : σ → α → σ}

/-- Two states that an action does not tell apart, closed under all actions. -/
structure Veils (act : σ → α → σ) (a : α) (close : σ → σ → Prop) : Prop where
  done : ∀ s, close (act s a) s
  step : ∀ s s' b, close s s' → close (act s b) (act s' b)
  again : ∀ s s', close s s' → act s a = act s' a

/-- Closeness is kept by a run. -/
theorem Veils.run {a : α} {close : σ → σ → Prop} (veils : Veils act a close) (l : List α) {s s' : σ} (near : close s s') :
    close (l.foldl act s) (l.foldl act s') := by
  induction l generalizing s s' with
  | nil => exact near
  | cons b l ih => exact ih (veils.step s s' b near)

end Absorption
