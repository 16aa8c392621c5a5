import Mathlib.Data.List.Basic

/-!
# Two parties and a network that keeps nothing in order

Each party handles the messages of the other one and may act when its timer runs out. Whatever has been sent may
be delivered at any later time, any number of times, or never.
-/

namespace Armada3720.Lib

/-- Two parties with states `σ` and `τ` that receive messages of type `α` and `β`. -/
structure Exchange (σ τ α β : Type*) where
  recvLeft : σ → α → σ × List β
  tickLeft : σ → σ × List β
  /-- The left party still listens. -/
  listens : σ → Prop
  recvRight : τ → β → τ × List α
  tickRight : τ → τ × List α

namespace Exchange

variable {σ τ α β : Type*}

/-- The states of both parties and everything that has been sent to each. -/
structure Net (σ τ α β : Type*) where
  left : σ
  right : τ
  toLeft : List α
  toRight : List β

inductive Event (α β : Type*)
  | deliverLeft (m : α)
  | deliverRight (m : β)
  | tickLeft
  | tickRight

inductive Step (P : Exchange σ τ α β) : Net σ τ α β → Event α β → Net σ τ α β → Prop
  | deliverLeft {n : Net σ τ α β} {m : α} (hm : m ∈ n.toLeft) (hl : P.listens n.left) :
    Step P n (.deliverLeft m) ⟨(P.recvLeft n.left m).1, n.right, n.toLeft, n.toRight ++ (P.recvLeft n.left m).2⟩
  | deliverRight {n : Net σ τ α β} {m : β} (hm : m ∈ n.toRight) :
    Step P n (.deliverRight m) ⟨n.left, (P.recvRight n.right m).1, n.toLeft ++ (P.recvRight n.right m).2, n.toRight⟩
  | tickLeft {n : Net σ τ α β} (hl : P.listens n.left) :
    Step P n .tickLeft ⟨(P.tickLeft n.left).1, n.right, n.toLeft, n.toRight ++ (P.tickLeft n.left).2⟩
  | tickRight {n : Net σ τ α β} :
    Step P n .tickRight ⟨n.left, (P.tickRight n.right).1, n.toLeft ++ (P.tickRight n.right).2, n.toRight⟩

/-- A run in which every event meets `cond` in the state in which it happens. -/
inductive Run (P : Exchange σ τ α β) (cond : Net σ τ α β → Event α β → Prop)
    (start : Net σ τ α β) : Net σ τ α β → Prop
  | refl : Run P cond start start
  | step {n n' : Net σ τ α β} {e : Event α β} (h : Run P cond start n) (hc : cond n e)
    (hs : Step P n e n') : Run P cond start n'

variable {P : Exchange σ τ α β} {cond : Net σ τ α β → Event α β → Prop} {start n : Net σ τ α β}

theorem Run.invariant {Inv : Net σ τ α β → Prop} (h : Run P cond start n) (h0 : Inv start)
    (hstep : ∀ n e n', Inv n → cond n e → Step P n e n' → Inv n') : Inv n := by
  induction h with
  | refl => exact h0
  | step _ hc hs ih => exact hstep _ _ _ ih hc hs

theorem Run.deliverLeft {r : σ × List β} (h : Run P cond start n) (m : α) (hm : m ∈ n.toLeft)
    (hl : P.listens n.left) (hc : cond n (.deliverLeft m)) (hr : P.recvLeft n.left m = r) :
    Run P cond start ⟨r.1, n.right, n.toLeft, n.toRight ++ r.2⟩ :=
  hr ▸ h.step hc (.deliverLeft hm hl)

theorem Run.deliverRight {r : τ × List α} (h : Run P cond start n) (m : β) (hm : m ∈ n.toRight)
    (hc : cond n (.deliverRight m)) (hr : P.recvRight n.right m = r) :
    Run P cond start ⟨n.left, r.1, n.toLeft ++ r.2, n.toRight⟩ :=
  hr ▸ h.step hc (.deliverRight hm)

end Exchange

end Armada3720.Lib
