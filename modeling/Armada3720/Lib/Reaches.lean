import Mathlib.Init

/-!
# States that a system reaches

What holds at the start and is kept by every allowed step holds in every state reached.
-/

namespace Armada3720.Lib

variable {σ α : Type*} {step : σ → α → σ → Prop} {ok : σ → α → Prop} {s₀ s : σ}

/-- The states that allowed steps lead to. -/
inductive Reaches (step : σ → α → σ → Prop) (ok : σ → α → Prop) (s₀ : σ) : σ → Prop
  | start : Reaches step ok s₀ s₀
  | step {s s' : σ} {a : α} : Reaches step ok s₀ s → ok s a → step s a s' → Reaches step ok s₀ s'

/-- The invariant rule. -/
theorem Reaches.invariant {P : σ → Prop} (h : Reaches step ok s₀ s) (hstart : P s₀)
    (hstep : ∀ {s s' a}, P s → ok s a → step s a s' → P s') : P s := by
  induction h with
  | start => exact hstart
  | step _ hok hs ih => exact hstep ih hok hs

end Armada3720.Lib
