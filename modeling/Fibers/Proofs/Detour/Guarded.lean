import Fibers.Proofs.Detour.Deeds
import Fibers.Proofs.Detour.Departure

set_option autoImplicit false

/-! # The whole course of a child

A child that is started runs its program with a permit, leaves it and ends. On a semaphore with a permit
that is free, and without a queue, it gets the permit at once and puts it back afterwards.
-/

namespace Fibers

/-! ## The permit -/

namespace Semaphore

variable {γ : Type} (s : Semaphore γ)

/-- The semaphore after a new ticket has got a permit. -/
def lent : Semaphore γ := s.ticket.1.give s.nextTicket

/-- A new ticket gets a permit that is free. -/
theorem take?_ticket (hfree : s.isFree = true) (hnew : s.isHeld s.nextTicket = false) :
    s.ticket.1.take? s.nextTicket = some s.lent := by
  have hfree' : s.ticket.1.isFree = true := hfree
  have hnew' : s.ticket.1.isHeld s.nextTicket = false := hnew
  simp only [take?, hnew', hfree', Bool.false_eq_true, if_false, if_true]
  rfl

/-- A permit that was free is put back. -/
theorem relinquish_lent (hfree : s.isFree = true) :
    s.lent.relinquish s.nextTicket = (s.ticket.1, none) := by
  simp only [isFree, Bool.and_eq_true, List.isEmpty_iff, decide_eq_true_eq] at hfree
  obtain ⟨hwaiters, havailable⟩ := hfree
  have hback : s.available - 1 + 1 = s.available := by omega
  simp only [relinquish, lent, ticket, give, isHeld, handOff, hwaiters, hback, List.any_nil,
    List.contains_cons, beq_self_eq_true, Bool.true_or, List.erase_cons_head, Bool.false_eq_true, if_false,
    if_true]

end Semaphore

namespace Detour

open World Direct

variable {σ S : Type} {f : Key .fiber} {home : Home} {view : σ → S} {out : Outlet σ f home}
  {w w' : World σ} {x x₁ : Place σ S} {P : Option (Scope (Finalizer σ)) → Prop}
  {p : Program σ} {e : AnyExit} {base : Scope (Finalizer σ)} {hooks : List (Key .fiber)}
  {fs : List (Nat × Finalizer σ)}

/-- A change of the semaphore at home. -/
theorem Stands.setPermits (s : Semaphore (Key .future)) (h : Stands view f home w x P) :
    Stirs f home w { w with semaphores := w.semaphores.set home.permits s } ∧
      Stands view f home { w with semaphores := w.semaphores.set home.permits s }
        { x with permits := s } P :=
  ⟨⟨⟨fun _ _ => rfl, rfl, fun _ _ => rfl, rfl⟩, rfl⟩,
    ⟨h.actual, h.scopeKey, h.refsKey, h.scope, h.map, Store.get?_set_of_some h.permits, h.board, h.now⟩⟩

theorem Stands.semaphore_eq (h : Stands view f home w x P) : w.semaphore home.permits = x.permits := by
  simp only [World.semaphore, h.permits, Option.getD_some]

/-- Getting a permit. -/
theorem follows_take {s : Semaphore (Key .future)} {ticket : Nat} (hcalm : Calm x.fiber)
    (htake : x.permits.take? ticket = some s) :
    Follows view f home out (.duty (.take home.permits ticket)) (.success .unit) x
      { x with permits := s } P := by
  refine follows_call (g := fun w => w.attend (.take home.permits ticket)) hcalm hcalm
    (fun _ _ _ _ => rfl) (Or.inr ⟨.unit, { x with permits := s }, fun w h => ?_, follows_succeed hcalm⟩)
  refine ⟨_, ?_, h.setPermits s⟩
  simp only [attend, h.semaphore_eq, htake]

/-- A program that runs with a permit which is there for it. -/
theorem follows_guarded (hcalm : Calm x.fiber) (hfree : x.permits.isFree = true)
    (hnew : x.permits.isHeld x.permits.nextTicket = false) {m : FiberRefs} {b : S} {t : Time}
    (hp : ∀ fs, Follows view f home out p e { x with permits := x.permits.lent }
      { fiber := x.fiber, refs := m, permits := x.permits.lent, board := b, now := t }
      (Holds base hooks fs)) :
    Follows view f home out (.duty (.guarded home.permits p)) e x
      { fiber := x.fiber, refs := m, permits := x.permits.ticket.1, board := b, now := t }
      (Holds base hooks fs) := by
  set ticket := x.permits.nextTicket with hticket
  set taken : Place σ S := { x with permits := x.permits.ticket.1 } with htaken
  have hinner : ∀ key, Follows view f home out ((Program.duty (.take home.permits ticket)).andThen p) e
      taken { fiber := x.fiber, refs := m, permits := x.permits.lent, board := b, now := t }
      (Holds base hooks (fs ++ [(key, .relinquish home.permits ticket)])) := fun key =>
    follows_frame (g := fun w => w.proceedWith (.next p) .unit) hcalm hcalm (fun _ _ _ => rfl)
      (fun _ _ => rfl) (follows_take hcalm (x.permits.take?_ticket hfree hnew))
      (Or.inr ⟨p, { x with permits := x.permits.lent },
        fun w h => ⟨w, rfl, .refl f home w, h⟩, hp _⟩)
  -- the permit is given back by the finalizer
  have hback : CallFollows view f home out
      (fun w => w.finalizeWith (.relinquish home.permits ticket) e) (.success .unit)
      { fiber := { x.fiber with masks := x.fiber.masks.push false }, refs := m, permits := x.permits.lent,
        board := b, now := t }
      { fiber := { x.fiber with masks := x.fiber.masks.push false }, refs := m,
        permits := x.permits.ticket.1, board := b, now := t } (Holds base hooks fs) := by
    have hmasked : Calm { x.fiber with masks := x.fiber.masks.push false } :=
      ⟨⟨hcalm.budget, hcalm.running⟩, hcalm.terminating, hcalm.deferred⟩
    refine Or.inr ⟨.unit, _, fun w h => ?_, follows_succeed (by exact hmasked)⟩
    refine ⟨_, ?_, h.setPermits x.permits.ticket.1⟩
    simp only [finalizeWith, World.relinquish, h.semaphore_eq, hticket, x.permits.relinquish_lent hfree]
  have hensuring : Follows view f home out
      (.ensuring ((Program.duty (.take home.permits ticket)).andThen p) (.relinquish home.permits ticket))
      (World.combine e (.success .unit)) taken
      { fiber := x.fiber, refs := m, permits := x.permits.ticket.1, board := b, now := t }
      (Holds base hooks fs) := by
    refine follows_ensuring (x := taken) hcalm ?_ ?_ hinner hback
    · rfl
    · rfl
  have hexit : World.combine e (.success .unit) = e := by cases e <;> rfl
  rw [hexit] at hensuring
  refine follows_call (g := fun w => w.attend (.guarded home.permits p)) hcalm hcalm
    (fun _ _ _ _ => rfl) (Or.inr ⟨_, taken, fun w h => ?_, hensuring⟩)
  refine ⟨_, ?_, h.setPermits x.permits.ticket.1⟩
  simp only [attend, h.semaphore_eq]
  rfl

/-! ## From the first turn to the last -/

/-- A child that is about to have its first turn runs its program with a permit and ends with the exit that
the program comes to. -/
theorem life_of_child {t : Timer (Task σ)} {token : Nat} {m : FiberRefs} {b : S} {now : Time}
    (ht : t ∈ w.timers.live) (htask : t.task = .resume f token .proceed) (hnow : w.now = t.deadline)
    (hcalm : Calm x.fiber) (hfree : x.permits.isFree = true)
    (hnew : x.permits.isHeld x.permits.nextTicket = false) (hfresh : base.closed = .fresh)
    (hparent : ∀ h, base.parent = some h → h.scope ≠ home.scope)
    (h : Stands view f home w
      { x with fiber := { x.fiber with
          phase := .suspended token { control := .start (.duty (.guarded home.permits p)) } } }
      (Holds base [f] []))
    (hp : ∀ out fs, Follows view f home out p e { x with permits := x.permits.lent }
      { fiber := x.fiber, refs := m, permits := x.permits.lent, board := b, now := now }
      (Holds base [f] fs)) :
    Life view f home (ended view f home e
      { fiber := x.fiber, refs := m, permits := x.permits.ticket.1, board := b, now := now }) t w := by
  obtain ⟨actual, hget, -⟩ := h.actual
  refine life_of_resume ht htask hnow hcalm.running h hget (fun _ _ => awaken_proceed) ?_
  intro w₁ actual₁ h₁ hget₁ _
  obtain ⟨actual₂, hget₂, hvaries⟩ := h₁.actual
  refine runs_of_step hget₂ hvaries (Or.inr hcalm.terminating) rfl (.refl f home w₁) ?_
  exact follows_guarded hcalm hfree hnew (hp _) [] w₁ h₁ fun w₂ h₂ =>
    unwinds_leave (by exact hcalm) hfresh hparent h₂

end Detour

end Fibers
