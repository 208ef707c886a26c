import Fibers.Proofs.Exits.Agreement
import Fibers.Proofs.Finalizers.Invocation
import Fibers.Proofs.Semaphores.Tickets

set_option autoImplicit false

/-! # What an acquisition leaves behind

The acquisition of a permit is protected by a finalizer that relinquishes its ticket if it is handed a
failure. So a fiber that ends without its permit leaves nothing behind, as long as the finalizer is
handed failures only, and not before the ticket is acquired. The finalizer takes a success for the
delivery of the permit, and there it errs: a scope can be closed with a success while its fiber is
in the queue, and then the ticket stays in the queue for good.
-/

namespace Fibers

variable {σ : Type}

/-- An execution of the acquisition of a permit, from where its ticket is protected. -/
structure Acquisition (r : Run σ) extends Protection r where
  semaphore : Key .semaphore
  ticket : Nat
  acquires : inner = .duty (.take semaphore ticket)
  relinquishes : finalizer = .relinquishOnFailure semaphore ticket
  fresh : (r.moment start).world.Engages semaphore ticket 0

variable {r : Run σ}

theorem World.world_conclude_enter (f : Key .fiber) (m : Machine σ)
    (called : World σ × Except Defect (Program σ)) :
    (World.conclude f (World.enter f m called)).world = called.1 := by
  obtain ⟨w, result⟩ := called
  cases result with
  | ok p => rfl
  | error d => rfl

/-- In the step in which it is handed an exit a finalizer makes its program from it, and nothing else is
done to the semaphores. -/
theorem Protection.Handed.next {p : Protection r} {x : AnyExit} {j : Nat} (h : p.Handed x j) :
    ∃ w : World σ, w.semaphores = (r.moment j).world.semaphores ∧
      (r.moment (j + 1)).world = (w.finalizeWith p.finalizer x).1 := by
  cases h with
  | @unwound y m _ hworks hcontrol hdescend =>
      have hnext := Run.advance_of_turn hworks.turn
      rw [World.advance_unwind hworks.here hcontrol, World.unwind_descend] at hnext
      have hstop := World.descend_descend p.fiber x.isFailure m.stack
        ((r.moment j).world.count p.fiber)
      have hkept := World.semaphores_descend p.fiber x.isFailure m.stack
        ((r.moment j).world.count p.fiber)
      rcases hpass : World.descend p.fiber x.isFailure m.stack ((r.moment j).world.count p.fiber) with
        ⟨w₁, st⟩
      rw [hpass] at hnext hdescend hstop hkept
      obtain rfl : st = p.frames := hdescend
      obtain ⟨w₂, hclaim, hstep⟩ := World.unwind_finalizer hstop m.exiting
      have hclaimed := World.semaphores_claimFinalizer w₁ p.handle
      rw [hclaim] at hclaimed
      refine ⟨w₂.modifyFiber p.fiber fun fiber => { fiber with masks := fiber.masks.push false },
        hclaimed.trans hkept, ?_⟩
      rw [hnext, Protection.frames, hstep, World.enterFinalizer, World.world_conclude_enter]
  | @claimed h g y m _ hworks hcontrol =>
      refine ⟨(r.moment j).world.count g, rfl, ?_⟩
      rw [Run.advance_of_turn hworks.turn, World.advance_instruct hworks.here hcontrol]
      exact World.world_conclude_enter g m _

namespace Acquisition

variable (a : Acquisition r) {h : Handle} {i j k : Nat} {x : AnyExit}

/-- The ticket is relinquished when the finalizer is handed a failure. -/
theorem relinquished (hhanded : a.Handed x j) (hfailure : x.isFailure = true)
    (honce : (r.moment j).world.Engages a.semaphore a.ticket 1) :
    (r.moment (j + 1)).world.Engages a.semaphore a.ticket 0 := by
  obtain ⟨w, hkept, hnext⟩ := hhanded.next
  have hspares : World.Spares a.semaphore a.ticket (r.moment j).world w := .of_eq hkept
  rw [hnext, a.relinquishes]
  simp only [World.finalizeWith, hfailure, if_true]
  exact (hspares.engages honce).relinquish

/-- A fiber that is done leaves no ticket behind, neither in the queue nor with a permit, if its scope was
open when the ticket was protected and closed in sequence, if the ticket was acquired no more than once, and
if the finalizer was handed failures only, after that. -/
theorem released (hh : a.handle = some h) {y : Fiber σ} {e : AnyExit} {sc : Scope (Finalizer σ)}
    (hy : (r.moment k).world.fibers.get? a.fiber = some y) (hdone : y.phase = .done e)
    (hsc : (r.moment k).world.scopes.get? y.scope = some sc) (hseq : sc.strategy = .sequential)
    (honce : ∀ l, a.start ≤ l → l < k → (r.moment l).Takes a.semaphore a.ticket → l = i)
    (hfailed : ∀ j x, j < k → a.Handed x j → i < j ∧ x.isFailure = true) :
    (r.moment k).world.Engages a.semaphore a.ticket 0 := by
  have hclosed : sc.state = .closed e := by
    obtain ⟨sc', hsc', hstate⟩ := Run.closed_of_done hy hdone hsc hseq (Nat.le_refl k)
    obtain rfl := Option.some.inj (hsc.symm.trans hsc')
    exact hstate
  obtain ⟨hstart, hscope⟩ := Run.works_before_done a.works hy hdone
  rw [hscope] at hsc
  obtain ⟨j, x, hj, hjk, hhanded⟩ := a.handed_of_closed hh hsc hclosed hseq
  obtain ⟨hij, hfailure⟩ := hfailed j x hjk hhanded
  -- engaged once at most until then, and not at all from then on
  have hbefore := Run.engages_of_once (Nat.le_of_lt hj)
    (fun l hl hlj => honce l hl (Nat.lt_trans hlj hjk)) a.fresh
  refine Run.engages_of_idle hjk (fun l hjl hlk hl => ?_) (a.relinquished hhanded hfailure hbefore)
  have hli : l = i := honce l (by omega) hlk hl
  omega

end Acquisition

/-! ## A fiber in the queue -/

/-- Somebody has the one permit. A child queues for another, and its parent closes the scope of the child,
with an interruption or with a success. -/
def queueing (fails : Bool) : Program Nat :=
  .access fun _ => .call (.newSemaphore 1) fun s => .call (.tryAcquire s) fun _ => .program <|
    (Program.fork (.duty (.acquire s)) {}).andThen <| Program.yieldNow.andThen <|
      .duty (.close ⟨1⟩ (bif fails then .failure (.interrupt .nobody) else .success .unit))

theorem licensed_queueing (fails : Bool) : (queueing fails).Licensed .none := by
  refine .access fun _ => .call nofun fun _ => .call nofun fun _ => .program ?_
  exact .flatMap (.fork (.duty .acquire)) (.next (.flatMap .yieldNow (.next (.duty .close))))

/-- The run of the two. -/
def queueingRun (fails : Bool) : Run Nat := .inOrder .standard 0 (queueing fails) (licensed_queueing fails)

/-- The acquisition of the child. -/
def queueingChild (fails : Bool) : Acquisition (queueingRun fails) where
  start := 19
  fiber := ⟨1⟩
  state := (((queueingRun fails).moment 19).world.fibers.get? ⟨1⟩).get (by cases fails <;> rfl)
  machine := (((queueingRun fails).moment 19).active.get (by cases fails <;> rfl)).2
  inner := .duty (.take ⟨1⟩ 1)
  finalizer := .relinquishOnFailure ⟨1⟩ 1
  works := by cases fails <;> exact ⟨rfl, rfl, Or.inr rfl, by decide, Or.inl ⟨_, rfl⟩⟩
  instruction := by cases fails <;> rfl
  semaphore := ⟨1⟩
  ticket := 1
  acquires := rfl
  relinquishes := rfl
  fresh := by
    cases fails
    · exact ⟨(((queueingRun false).moment 19).world.semaphores.get? ⟨1⟩).get rfl, rfl, by decide,
        by decide⟩
    · exact ⟨(((queueingRun true).moment 19).world.semaphores.get? ⟨1⟩).get rfl, rfl, by decide,
        by decide⟩

/-- The fiber lets an exit down onto `n` frames at least. -/
def Moment.unwindsOnto (f : Key .fiber) (n : Nat) (x : Moment σ) : Bool :=
  match x.active with
  | some (g, ⟨.value _, stack, _⟩) => f = g ∧ n ≤ stack.length
  | some (g, ⟨.failure _, stack, _⟩) => f = g ∧ n ≤ stack.length
  | _ => false

theorem Moment.unwindsOnto_of_works {x : Moment σ} {f : Key .fiber} {y : Fiber σ} {m : Machine σ}
    {e : AnyExit} {n : Nat} (hworks : x.Works f y m) (hcontrol : m.control = .ofExit e)
    (hn : n ≤ m.stack.length) : x.unwindsOnto f n = true := by
  obtain ⟨control, stack, exiting⟩ := m
  obtain rfl : control = .ofExit e := hcontrol
  cases e <;> simpa [unwindsOnto, hworks.turn, Control.ofExit] using hn

/-- The child never comes out of its acquisition. -/
theorem not_unwinds_queueingChild (fails : Bool) (l : Nat) : ¬ (queueingChild fails).Unwinds l := by
  rintro ⟨hinside, y, m, e, hworks, hcontrol, hdescend⟩
  have hdown : ((queueingRun fails).moment l).unwindsOnto ⟨1⟩ 3 = true := by
    refine Moment.unwindsOnto_of_works hworks hcontrol ?_
    have hsuffix := World.descend_suffix (queueingChild fails).fiber e.isFailure m.stack
      (((queueingRun fails).moment l).world.count (queueingChild fails).fiber)
    rw [hdescend] at hsuffix
    have hlength := hsuffix.length_le
    revert hlength
    cases fails <;> exact id
  have hlt : l < 82 := by
    by_contra hnot
    have hexit : ∃ e, ((queueingRun fails).moment 82).world.exitOf ⟨1⟩ = some e := by
      cases fails <;> exact ⟨_, rfl⟩
    obtain ⟨e, hexit⟩ := hexit
    have hnone := ((queueingRun fails).exitOf_later (Nat.le_of_not_lt hnot) hexit).1
    cases hnone.symm.trans (Moment.machine?_of_active hworks.turn)
  have hcheck : ∀ fails, ∀ l < 82, 19 < l → ((queueingRun fails).moment l).unwindsOnto ⟨1⟩ 3 = false := by
    decide +kernel
  rw [hcheck fails l hlt hinside.1] at hdown
  cases hdown

/-- The fiber in turn acquires the ticket `t` of the semaphore `s`. -/
def Moment.acquires (s : Key .semaphore) (t : Nat) (x : Moment σ) : Bool :=
  match x.active with
  | some (_, ⟨.instruct (.duty (.take s' t')), _, _⟩) => s' = s ∧ t' = t
  | _ => false

theorem Moment.Takes.acquires {x : Moment σ} {s : Key .semaphore} {t : Nat} (h : x.Takes s t) :
    x.acquires s t = true := by
  obtain ⟨f, y, ⟨control, stack, exiting⟩, hworks, hcontrol⟩ := h
  obtain rfl : control = .instruct (.duty (.take s t)) := hcontrol
  simp [Moment.acquires, hworks.turn]

/-- The exit that the fiber in turn hands to a claimed finalizer. -/
def Moment.hands? (x : Moment σ) : Option AnyExit :=
  match x.active with
  | some (_, ⟨.instruct (.duty (.finalize _ _ e)), _, _⟩) => some e
  | _ => none

theorem Moment.hands?_of_works {x : Moment σ} {f : Key .fiber} {y : Fiber σ} {m : Machine σ}
    {h : Handle} {fin : Finalizer σ} {e : AnyExit} (hworks : x.Works f y m)
    (hcontrol : m.control = .instruct (.duty (.finalize h fin e))) : x.hands? = some e := by
  obtain ⟨control, stack, exiting⟩ := m
  obtain rfl : control = .instruct (.duty (.finalize h fin e)) := hcontrol
  simp [Moment.hands?, hworks.turn]

/-- With a success the ticket of the child stays in the queue. -/
theorem queueingChild_remains :
    ((queueingRun false).moment 82).world.exitOf ⟨1⟩ = some (.success .unit) ∧
      (∀ l, ¬ (queueingChild false).Unwinds l) ∧
      (((queueingRun false).moment 82).world.semaphores.get? ⟨1⟩).map (·.waiters.map (·.1)) = some [1] :=
  ⟨rfl, not_unwinds_queueingChild false, rfl⟩

/-- With an interruption the ticket of the child is relinquished. -/
theorem queueingChild_released :
    (∃ e, ((queueingRun true).moment 82).world.exitOf ⟨1⟩ = some e) ∧
      ((queueingRun true).moment 82).world.Engages ⟨1⟩ 1 0 := by
  have hdone : ∃ y e sc, ((queueingRun true).moment 82).world.fibers.get? ⟨1⟩ = some y ∧
      y.phase = .done e ∧ ((queueingRun true).moment 82).world.scopes.get? y.scope = some sc ∧
      sc.strategy = .sequential := ⟨_, _, _, rfl, rfl, rfl, rfl⟩
  obtain ⟨y, e, sc, hy, hphase, hsc, hseq⟩ := hdone
  refine ⟨⟨_, rfl⟩, (queueingChild true).released (h := ⟨⟨1⟩, 1⟩) rfl hy hphase hsc hseq (i := 20)
    (fun l hl hlk htakes => ?_) fun j x hj hhanded => ?_⟩
  · have hcheck : ∀ l < 82, 19 ≤ l → l ≠ 20 →
        ((queueingRun true).moment l).acquires ⟨1⟩ 1 = false := by
      decide +kernel
    by_contra hne
    cases (hcheck l hlk hl hne).symm.trans htakes.acquires
  · cases hhanded with
    | @unwound y m hinside hworks hcontrol hdescend =>
        exact absurd ⟨hinside, y, m, x, hworks, hcontrol, hdescend⟩ (not_unwinds_queueingChild true j)
    | claimed hh hworks hcontrol =>
        have hcheck : ∀ j < 82, ∀ e ∈ ((queueingRun true).moment j).hands?,
            20 < j ∧ e.isFailure = true := by
          decide +kernel
        exact hcheck j hj x (Moment.hands?_of_works hworks hcontrol)

end Fibers
