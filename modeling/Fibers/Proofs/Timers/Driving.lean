import Mathlib.Tactic.Common
import Fibers.Timers.Drive

set_option autoImplicit false

/-! # What holds however a queue is driven

The ways to drive a queue take the tasks that are due, one after the other, and let time pass up to the next
deadline at most. What each of the two keeps holds of the system when any of them returns.
-/

namespace Fibers.Host

variable {S τ : Type} {host : Host S τ} {P : S → Prop} {s s' : S} {fuel rounds ran ran' : Nat}

/-- What holds of a system goes on to hold when the next task is taken, runs and is counted, and when time
passes up to the next deadline at most. -/
structure Keeps (host : Host S τ) (P : S → Prop) : Prop where
  run : ∀ {s s' : S} {task : τ} {rest : Timers τ}, P s → (host.timers s).popDue? = some (task, rest) →
    host.perform task (host.withTimers s rest) = (s', .finished ()) →
    P (host.withTimers s' (host.timers s').countRun)
  wait : ∀ {s s' : S} {limit : Option Time}, P s →
    (∀ next, (host.timers s).nextDeadline? = some next → ∃ l, limit = some l ∧ l.nanos ≤ next.nanos) →
    host.await limit s = some s' → P s'

namespace Keeps

variable (h : host.Keeps P) (hs : P s)
include h hs

/-- It holds after a wait for the next deadline. -/
theorem jump {deadline : Time} (hnext : (host.timers s).nextDeadline? = some deadline)
    (hawait : host.await (some deadline) s = some s') : P s' := by
  refine h.wait hs (fun next heq => ⟨deadline, rfl, ?_⟩) hawait
  obtain rfl := Option.some.inj (hnext.symm.trans heq)
  exact Nat.le_refl _

theorem runReadyFrom (hreturns : host.runReadyFrom fuel ran s = (s', .finished ran')) : P s' := by
  induction fuel generalizing ran s with
  | zero => cases hreturns
  | succ fuel ih =>
      unfold Host.runReadyFrom at hreturns
      split at hreturns
      · cases hreturns
        exact hs
      · rename_i task rest hpop
        split at hreturns
        · rename_i s₁ hperform
          exact ih (h.run hs hpop hperform) hreturns
        · cases hreturns
        · cases hreturns

theorem advanceLoop {target : Time}
    (hreturns : host.advanceLoop fuel target rounds ran s = (s', .finished ran')) : P s' := by
  induction rounds generalizing ran s with
  | zero => cases hreturns
  | succ rounds ih =>
      unfold Host.advanceLoop at hreturns
      split at hreturns
      · rename_i deadline hnext
        have hdeadline := (Option.filter_eq_some_iff.mp hnext).1
        split at hreturns
        · cases hreturns
        · rename_i s₁ hawait
          have hs₁ : P s₁ := h.jump hs hdeadline hawait
          split at hreturns
          · rename_i s₂ ran₂ hready
            exact ih (h.runReadyFrom hs₁ hready) hreturns
          · rename_i hstops
            exact absurd hreturns (hstops _ _)
      · rename_i hnone
        split at hreturns
        · cases hreturns
        · rename_i s₁ hawait
          refine h.runReadyFrom (h.wait hs (fun next heq => ⟨target, rfl, ?_⟩) hawait) hreturns
          -- what is due by then was run before
          rw [heq, Option.filter_some] at hnone
          by_contra hlt
          simp [Nat.le_of_not_le hlt] at hnone

theorem advance {span : Duration} (hreturns : host.advance fuel span s = (s', .finished ran')) : P s' := by
  unfold Host.advance at hreturns
  dsimp only at hreturns
  split at hreturns
  · rename_i s₁ ran₁ hready
    exact h.advanceLoop (h.runReadyFrom hs hready) hreturns
  · rename_i hstops
    exact absurd hreturns (hstops _ _)

theorem idleLoop (hreturns : host.idleLoop fuel rounds ran s = (s', .finished ran')) : P s' := by
  induction rounds generalizing ran s with
  | zero => cases hreturns
  | succ rounds ih =>
      unfold Host.idleLoop at hreturns
      split at hreturns
      · rename_i s₁ ran₁ hready
        have hs₁ : P s₁ := h.runReadyFrom hs hready
        split at hreturns
        · cases hreturns
          exact hs₁
        · rename_i deadline hdeadline
          split at hreturns
          · cases hreturns
          · rename_i s₂ hawait
            exact ih (h.jump hs₁ hdeadline hawait) hreturns
      · rename_i hstops
        exact absurd hreturns (hstops _ _)

theorem untilLoop {done : S → Bool} {answer : Bool}
    (hreturns : host.untilLoop fuel done rounds s = (s', .finished answer)) : P s' := by
  induction rounds generalizing s with
  | zero => cases hreturns
  | succ rounds ih =>
      unfold Host.untilLoop at hreturns
      split at hreturns
      · rename_i s₁ ran₁ hready
        have hs₁ : P s₁ := h.runReadyFrom hs hready
        split at hreturns
        · cases hreturns
          exact hs₁
        · dsimp only at hreturns
          split at hreturns
          · cases hreturns
            exact hs₁
          · split at hreturns
            · cases hreturns
            · rename_i s₂ hawait
              exact ih (h.wait hs₁ (fun next heq => ⟨next, heq, Nat.le_refl _⟩) hawait) hreturns
      · cases hreturns
      · cases hreturns

end Keeps

end Fibers.Host
