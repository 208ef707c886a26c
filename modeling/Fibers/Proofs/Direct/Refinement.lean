import Fibers.Proofs.Direct.Simulation
import Fibers.Proofs.World.Frame

set_option autoImplicit false

/-! # From the first turn to the published exit

The main result about direct evaluation: a fiber that is about to work on a program, and is left
alone, will be done with the exit that the evaluator gives the program, for any budget of steps.

With the program over, the fiber leaves it and closes its scope: it asks for the close, claims
the finalizers (there are none), publishes the exit, waits for what it has just published and is
done with that. Each of these steps may be the last of a turn, so the course is put together from
its end: `runs_waitScope` is the last leg, `runs_leave` the whole.
-/

namespace Fibers.Direct

open World

variable {σ S : Type} {f : Key .fiber} {view : σ → S} {exit e : AnyExit} {s s' : S}
  {P Q : ScopeState (Finalizer σ) → Option (Settled AnyExit) → Prop} {fiber : Fiber σ}

/-! ## A fiber on its way out -/

/-- A fiber on its way out: the finalizers are run with interruption put off. -/
structure Leaving (fiber : Fiber σ) : Prop extends Steady fiber where
  masked : fiber.interruptible = false

/-- An instruction of a fiber on its way out. -/
theorem leaving_instruct {p : Program σ} {stack : List (Waiting σ)} {w : World σ}
    (hleaving : Leaving fiber) (h : Stands f view w fiber P s)
    (k : ∀ w' actual, Stands f view w' fiber P s → Varies fiber actual →
      ∃ w'' m', w'.instruct f actual { control := .instruct p, stack, exiting := true } p =
        (w'', { machine := m' }) ∧ Runs f view exit m' w'') :
    Runs f view exit { control := .instruct p, stack, exiting := true } w :=
  runs_of_instruct hleaving.toSteady (Or.inl rfl) rfl h k

/-- A program that gives a value at once. -/
theorem leaving_succeed {v : Value} {stack : List (Waiting σ)} {w : World σ}
    (hleaving : Leaving fiber) (h : Stands f view w fiber P s)
    (k : ∀ w', Stands f view w' fiber P s →
      Runs f view exit { control := .value v, stack, exiting := true } w') :
    Runs f view exit { control := .instruct (.succeed v), stack, exiting := true } w :=
  leaving_instruct hleaving h fun w₁ _ h₁ _ => ⟨w₁, _, rfl, k w₁ h₁⟩

/-- A value, and what the stack makes of it. -/
theorem leaving_value {v : Value} {stack : List (Waiting σ)} {w : World σ}
    (hleaving : Leaving fiber) (h : Stands f view w fiber P s)
    (k : ∀ w', Stands f view w' fiber P s → Unwinds f view exit true (.success v) stack w') :
    Runs f view exit { control := .value v, stack, exiting := true } w :=
  runs_of_unwinds hleaving.toSteady (Or.inl rfl) rfl h k

/-- Unmasking a fiber that stays masked lets no interruption in. -/
theorem restore_of_leaving {w : World σ} (hleaving : Leaving (fiber.restore .interruptible))
    (h : Stands f view w fiber P s) :
    ∃ w', w.restore f .interruptible = (w', false) ∧
      Stands f view w' (fiber.restore .interruptible) P s := by
  have hstands : Stands f view (w.modifyFiber f (·.restore .interruptible))
      (fiber.restore .interruptible) P s :=
    h.modify rfl fun actual hvaries => hvaries.restore .interruptible
  refine ⟨_, ?_, hstands⟩
  obtain ⟨actual, hget, ops, token, cell, -, rfl⟩ := hstands.actual
  have hmasked : (fiber.restore .interruptible).masks.top = false := hleaving.masked
  simp only [World.restore, applyDeferred, hget, Fiber.interruptible, hmasked, World.mustLeave,
    Option.map_some, Option.getD_some, Fiber.mustLeave, Bool.false_eq_true, if_false,
    Bool.and_false]

/-! ## The closed scope -/

/-- The scope waits for somebody to claim its finalizers, of which there are none. -/
def Claimable (e : AnyExit) (state : ScopeState (Finalizer σ))
    (closed : Option (Settled AnyExit)) : Prop :=
  state = .closing e (some []) ∧ closed = none

/-- The finalizers of the scope are claimed. -/
def Claimed (e : AnyExit) (state : ScopeState (Finalizer σ)) (closed : Option (Settled AnyExit)) :
    Prop := state = .closing e none ∧ closed = none

/-- The closed scope, with its exit published. -/
def Closed (e : AnyExit) (state : ScopeState (Finalizer σ)) (closed : Option (Settled AnyExit)) :
    Prop := state = .closed e ∧ closed = some (.resolved e)

/-- The last step of a fiber: with nothing on its stack it is done with the exit it holds. -/
theorem runs_done {w : World σ} (hleaving : Leaving fiber) (h : Stands f view w fiber P s) :
    Runs f view e { control := .value (.exit e), stack := [], exiting := true } w := by
  set m : Machine σ := { control := .value (.exit e), stack := [], exiting := true } with hm
  have hstays : Stays m fiber := Or.inl rfl
  refine runs_of_unspent hleaving.budget hleaving.running hstays (by simp [hm]) h ?_
  intro w₁ actual h₁ hget hvaries hops
  have hstep : w₁.step f actual m = (counted w₁ f, { machine := m, decision := .done e }) :=
    (step_of_unspent (by rw [hvaries.context]; exact hops)).2 (.success (.exit e)) rfl
  obtain ⟨actual₂, hget₂, hvaries₂⟩ := h₁.counted.actual
  refine ⟨1, (counted w₁ f).finishFiber f e, ?_,
    .done (get?_finishFiber e hget₂ hvaries₂.isPending) rfl rfl⟩
  simp only [turn, hget, not_mustLeave hstays hvaries, Bool.false_eq_true, if_false, hstep]

/-- The last turn of a fiber whose scope is closed: it does not wait for what has happened. -/
theorem runs_waitScope {w : World σ} (hleaving : Leaving fiber)
    (h : Stands f view w fiber (Closed e) s) :
    Runs f view e
      { control := .instruct (Program.waitScope fiber.scope), stack := [], exiting := true } w := by
  set m : Machine σ :=
    { control := .instruct (Program.waitScope fiber.scope), stack := [], exiting := true } with hm
  have hstays : Stays m fiber := Or.inl rfl
  refine runs_of_unspent hleaving.budget hleaving.running hstays (by simp [hm]) h ?_
  intro w₁ actual h₁ hget hvaries hops
  have hstep : w₁.step f actual m = (counted w₁ f,
      { machine := m, decision := .await (.closed fiber.scope) none }) := by
    rw [(step_of_unspent (by rw [hvaries.context]; exact hops)).1 _ rfl]
    rfl
  obtain ⟨actual₂, hget₂, hvaries₂⟩ := h₁.counted.actual
  set parked : World σ := ((counted w₁ f).park f { actual₂ with ops := 0 } m).1 with hparked
  have hsettled : parked.settledProgram? (.closed fiber.scope) = some (.succeed (.exit e)) := by
    obtain ⟨sc, hsc, -, hclosed⟩ := h₁.counted.scope
    have hscope : parked.scope fiber.scope = sc := by
      show (((counted w₁ f).scopes.get? fiber.scope).getD default) = sc
      rw [hsc, Option.getD_some]
    simp only [settledProgram?, hscope, hclosed]
  have hback : Stands f view (parked.modifyFiber f fun fiber => { fiber with phase := .running })
      fiber (Closed e) s := by
    refine ⟨⟨{ actual₂ with ops := 0, nextToken := actual₂.nextToken + 1, phase := .running },
      ?_, ?_⟩, h₁.counted.scope, h₁.counted.board⟩
    · show (((counted w₁ f).fibers.set f _).modify f _).get? f = _
      rw [Store.get?_modify, if_pos rfl, Store.get?_set, if_pos rfl, hget₂]
      rfl
    · obtain ⟨ops, token, cell, hcell, rfl⟩ := hvaries₂
      exact ⟨0, token + 1, cell, hcell, by rw [← hleaving.running]⟩
  have hrest : Runs f view e
      { control := .instruct (.succeed (.exit e)), stack := [], exiting := true }
      (parked.modifyFiber f fun fiber => { fiber with phase := .running }) :=
    leaving_succeed hleaving hback fun w' h' => runs_done hleaving h'
  obtain ⟨fuel, w', hturn, hends⟩ := hrest
  refine ⟨fuel + 1, w', ?_, hends⟩
  simp only [turn, hget, not_mustLeave hstays hvaries, Bool.false_eq_true, if_false, hstep,
    hget₂, hsettled, ← hparked]
  exact hturn

/-! ## Closing the scope -/

/-- The rest of the way once the exit of the scope is published: the mask of the claim is lifted,
the answer of the close is dropped, and the fiber waits for its scope. -/
theorem runs_published (b : Bool) {w : World σ} (hleaving : Leaving fiber)
    (h : Stands f view w { fiber with masks := fiber.masks.push false } (Closed e) s) :
    Runs f view e
      { control := .instruct .unit
        stack := [.restore .interruptible, .map (.next (.succeed (.flag b))),
          .map (.next (Program.waitScope fiber.scope))]
        exiting := true } w := by
  have hmasked : Leaving { fiber with masks := fiber.masks.push false } :=
    ⟨⟨hleaving.budget, hleaving.running⟩, rfl⟩
  refine leaving_succeed hmasked h fun w₁ h₁ => leaving_value hmasked h₁ fun w₂ h₂ => ?_
  obtain ⟨w₃, hrestore, h₃⟩ := restore_of_leaving (by exact hleaving) h₂
  refine ⟨w₃, { control := .instruct (.succeed (.flag b))
                stack := [.map (.next (Program.waitScope fiber.scope))], exiting := true }, ?_, ?_⟩
  · simp only [unwind, unwindValue, hrestore, proceedWith, enter]
  · refine leaving_succeed hleaving h₃ fun w₄ h₄ => leaving_value hleaving h₄ fun w₅ h₅ => ?_
    exact ⟨w₅, _, rfl, runs_waitScope hleaving h₅⟩

/-- Publishing the exit of a claimed scope closes it. -/
theorem Stands.publish {w : World σ} (h : Stands f view w fiber (Claimed e) s) :
    Stands f view (w.publish fiber.scope e) fiber (Closed e) s := by
  obtain ⟨sc, hsc, hstate, hclosed⟩ := h.scope
  have hget : w.scope fiber.scope = sc := by simp only [World.scope, hsc, Option.getD_some]
  have hpublish : (sc.publish e).1.state = .closed e ∧
      (sc.publish e).1.closed.outcome? = some (.resolved e) := by
    cases hcell : sc.closed with
    | settled outcome =>
        rw [hcell] at hclosed
        cases hclosed
    | pending observers next =>
        simp only [Scope.publish, hcell, Cell.settle?, Cell.outcome?, and_self]
  have hset : Stands f view { w with scopes := w.scopes.set fiber.scope (sc.publish e).1 } fiber
      (Closed e) s := h.setScope (sc.publish e).1 hpublish
  refine ⟨?_, ?_, ?_⟩
  · rw [fibers_publish]; exact hset.actual
  · rw [scopes_publish, hget]; exact hset.scope
  · rw [board_publish]; exact h.board

/-- Claiming the finalizers of a closing scope that has none gives the program that publishes. -/
theorem Stands.claim {w : World σ} (h : Stands f view w fiber (Claimable e) s) :
    ∃ w', w.attend (.finish fiber.scope) = (w', .ok (.flatMap (.succeed (.exit e))
        (.sequel (.publish fiber.scope)))) ∧
      Stands f view w' fiber (Claimed e) s := by
  obtain ⟨sc, hsc, hstate, hclosed⟩ := h.scope
  have hget : w.scope fiber.scope = sc := by simp only [World.scope, hsc, Option.getD_some]
  refine ⟨_, ?_, h.setScope { sc with state := .closing e none } ⟨rfl, hclosed⟩⟩
  simp only [attend, hget, Scope.claim?, hstate]
  rfl

/-- The way of a fiber that has claimed its own scope, up to its end. -/
theorem runs_finishScope (b : Bool) {w : World σ} (hleaving : Leaving fiber)
    (h : Stands f view w fiber (Claimable e) s) :
    Runs f view e
      { control := .instruct (Program.finishScope fiber.scope)
        stack := [.map (.next (.succeed (.flag b))),
          .map (.next (Program.waitScope fiber.scope))]
        exiting := true } w := by
  set masked : Fiber σ := { fiber with masks := fiber.masks.push false } with hmasked
  have hleaving' : Leaving masked := ⟨⟨hleaving.budget, hleaving.running⟩, rfl⟩
  refine leaving_instruct hleaving h fun w₁ actual h₁ _ => ⟨_, _, rfl, ?_⟩
  have h₂ : Stands f view (w₁.modifyFiber f fun fiber =>
      { fiber with masks := fiber.masks.push false }) masked (Claimable e) s := by
    refine h₁.modify rfl ?_
    rintro _ ⟨ops, token, cell, hcell, rfl⟩
    exact ⟨ops, token, cell, hcell, rfl⟩
  refine leaving_instruct hleaving' h₂ fun w₃ _ h₃ _ => ?_
  obtain ⟨w₄, hclaim, h₄⟩ := h₃.claim
  refine ⟨w₄, _, (congrArg (enter f _) hclaim).trans rfl, ?_⟩
  refine leaving_instruct hleaving' h₄ fun w₅ _ h₅ _ => ⟨w₅, _, rfl, ?_⟩
  refine leaving_succeed hleaving' h₅ fun w₆ h₆ => leaving_value hleaving' h₆ fun w₇ h₇ => ?_
  have h₈ : Stands f view (w₇.publish fiber.scope e) masked (Closed e) s := h₇.publish
  have hend := runs_published b hleaving h₈
  exact ⟨_, _, rfl, hend⟩

/-- Telling a fiber that its scope is closing does not move it. -/
theorem Stands.scopeClosing {w : World σ} (g : Key .fiber) (h : Stands f view w fiber P s) :
    ∃ b, Stands f view (w.scopeClosing g) { fiber with terminating := b } P s := by
  obtain ⟨actual, hget, ops, token, cell, hcell, rfl⟩ := h.actual
  have hscope : (w.scopeClosing g).scopes = w.scopes := scopes_scopeClosing w g
  have hboard : (w.scopeClosing g).board = w.board := board_scopeClosing w g
  by_cases heq : g = f
  · refine ⟨true, ⟨⟨_, ?_, ops, token, cell, hcell, rfl⟩, ?_, ?_⟩⟩
    · rw [get?_scopeClosing, if_pos heq, hget, Option.map_some]
    · rw [hscope]; exact h.scope
    · rw [hboard]; exact h.board
  · refine ⟨fiber.terminating, ⟨⟨_, ?_, ops, token, cell, hcell, rfl⟩, ?_, ?_⟩⟩
    · rw [get?_scopeClosing, if_neg heq, hget]
    · rw [hscope]; exact h.scope
    · rw [hboard]; exact h.board

theorem Stands.tellHooks {w : World σ} (hooks : List (Key .fiber))
    (h : Stands f view w fiber P s) :
    ∃ b, Stands f view (hooks.foldl World.scopeClosing w) { fiber with terminating := b } P s := by
  induction hooks generalizing w fiber with
  | nil => exact ⟨fiber.terminating, h⟩
  | cons g rest ih =>
      obtain ⟨b, h₁⟩ := h.scopeClosing g
      obtain ⟨b', h₂⟩ := ih h₁
      exact ⟨b', h₂⟩

/-- A finalizer of another scope, or of a scope that is no longer open, can be dropped. -/
theorem Stands.cancelFinalizer {w : World σ} (handle : Handle)
    (h : Stands f view w fiber (Claimable e) s) :
    Stands f view (w.cancelFinalizer handle).1 fiber (Claimable e) s := by
  obtain ⟨sc, hsc, hstate, hclosed⟩ := h.scope
  have hget : w.scope fiber.scope = sc := by simp only [World.scope, hsc, Option.getD_some]
  by_cases heq : handle.scope = fiber.scope
  · have hnone : w.cancelFinalizer handle = (w, false) := by
      simp only [World.cancelFinalizer, World.takeFinalizer, heq, hget, Scope.take?, hstate]
      rfl
    rw [hnone]
    exact h
  · refine ⟨?_, ⟨sc, ?_, hstate, hclosed⟩, ?_⟩
    · rw [fibers_cancelFinalizer]; exact h.actual
    · simp only [World.cancelFinalizer, World.takeFinalizer]
      split
      · rw [Store.get?_set, if_neg heq, hsc]
      · exact hsc
    · rw [board_cancelFinalizer]; exact h.board

/-- Asking for the close of an open scope without finalizers. -/
theorem Stands.requestClose {w : World σ} (e : AnyExit) (h : Stands f view w fiber (Holds []) s) :
    ∃ w' b, w.requestClose fiber.scope e = (w', true) ∧
      Stands f view w' { fiber with terminating := b } (Claimable e) s := by
  obtain ⟨sc, hsc, ⟨hooks, next, hstate, -⟩, hclosed⟩ := h.scope
  have hget : w.scope fiber.scope = sc := by simp only [World.scope, hsc, Option.getD_some]
  set closing : Scope (Finalizer σ) :=
    { sc with state := .closing e (some []), parent := none } with hclosing
  set w₁ : World σ := { w with scopes := w.scopes.set fiber.scope closing } with hw₁
  have h₁ : Stands f view w₁ fiber (Claimable e) s := h.setScope closing ⟨rfl, hclosed⟩
  cases hparent : sc.parent with
  | none =>
      obtain ⟨b, h₂⟩ := h₁.tellHooks hooks
      refine ⟨_, b, ?_, h₂⟩
      simp only [World.requestClose, hget, Scope.requestClose?, hstate, hparent]
      rfl
  | some handle =>
      obtain ⟨b, h₂⟩ := (h₁.cancelFinalizer handle).tellHooks hooks
      refine ⟨_, b, ?_, h₂⟩
      simp only [World.requestClose, hget, Scope.requestClose?, hstate, hparent]
      rfl

/-! ## Leaving the program -/

/-- A calm fiber whose program has ended with `e` is done with `e`. -/
theorem runs_leave {w : World σ} {stack : List (Waiting σ)} (hcalm : Calm fiber)
    (h : Stands f view w fiber (Holds []) s) :
    Runs f view e { control := .leave (some e), stack } w := by
  obtain ⟨actual, hget, hvaries⟩ := h.actual
  set out : Fiber σ := { fiber.unwind with masks := fiber.unwind.masks.push false } with hout
  have hscope : actual.scope = fiber.scope := by
    obtain ⟨ops, token, cell, -, rfl⟩ := hvaries
    rfl
  have h₁ : Stands f view (w.modifyFiber f fun fiber =>
      { fiber.unwind with masks := fiber.unwind.masks.push false }) out (Holds []) s := by
    refine h.modify rfl ?_
    rintro _ ⟨ops, token, cell, hcell, rfl⟩
    exact ⟨ops, token, cell, hcell, rfl⟩
  refine runs_of_step hget hvaries (Or.inr hcalm.terminating)
    (by simp only [step, World.leave, hscope]; rfl) ?_
  have hleaving : Leaving out := ⟨⟨hcalm.budget, hcalm.running⟩, rfl⟩
  refine leaving_instruct hleaving h₁ fun w₂ _ h₂ _ => ⟨w₂, _, rfl, ?_⟩
  refine leaving_instruct hleaving h₂ fun w₃ _ h₃ _ => ?_
  obtain ⟨w₄, b, hclose, h₄⟩ := h₃.requestClose e
  have hattend : w₃.attend (.close out.scope e) = (w₄,
      .ok ((Program.finishScope out.scope).andThen (.succeed (.flag true)))) := by
    simp only [attend, hclose]
  refine ⟨w₄, _, (congrArg (enter f _) hattend).trans rfl, ?_⟩
  have hleaving' : Leaving { out with terminating := b } := ⟨⟨hcalm.budget, hcalm.running⟩, rfl⟩
  refine leaving_instruct hleaving' h₄ fun w₅ _ h₅ _ => ⟨w₅, _, rfl, ?_⟩
  have hend := runs_finishScope true hleaving' h₅
  exact hend

/-! ## The whole course -/

/-- The fiber `fiber` will start on the program `p` in its next turn. Nobody has interrupted it,
and its scope is open and without finalizers. -/
structure Fresh (f : Key .fiber) (p : Program σ) (fiber : Fiber σ) (w : World σ) : Prop where
  found : w.fibers.get? f = some fiber
  parked : ∃ token, fiber.phase = .suspended token { control := .start p } ∧
    ∃ t ∈ w.timers.live, t.task = .resume f token .proceed
  pending : fiber.done.isPending = true
  terminating : fiber.terminating = false
  deferred : fiber.deferred = []
  scope : ∃ sc, w.scopes.get? fiber.scope = some sc ∧ Holds [] sc.state sc.closed.outcome?

/-- Starting a fiber that has not run, and whose scope is open and without finalizers, makes it
fresh. -/
theorem fresh_startFiber {p : Program σ} {w : World σ} (hget : w.fibers.get? f = some fiber)
    (hphase : fiber.phase = .notStarted { control := .start p })
    (hpending : fiber.done.isPending = true) (hterminating : fiber.terminating = false)
    (hdeferred : fiber.deferred = [])
    (hscope : ∃ sc, w.scopes.get? fiber.scope = some sc ∧ Holds [] sc.state sc.closed.outcome?) :
    Fresh f p (fiber.park { control := .start p }).1 (w.startFiber f) := by
  have hstart : w.startFiber f =
      World.queue { w with fibers := w.fibers.set f (fiber.park { control := .start p }).1 }
        (.resume f fiber.nextToken .proceed) := by
    simp only [startFiber, hget, hphase, Fiber.park]
  rw [hstart]
  refine ⟨?_, ⟨fiber.nextToken, rfl, ⟨w.timers.now.add 0, w.timers.nextId, _⟩,
    Timers.mem_insert.mpr (Or.inl rfl), rfl⟩, hpending, hterminating, hdeferred, hscope⟩
  show (w.fibers.set f _).get? f = _
  rw [Store.get?_set_of_some hget]

theorem hook_of_holds {w : World σ} {sk : Key .scope} {sc : Scope (Finalizer σ)}
    (f : Key .fiber) (hsc : w.scopes.get? sk = some sc)
    (hholds : Holds [] sc.state sc.closed.outcome?) :
    ∃ sc', (w.hook sk f).fibers = w.fibers ∧ (w.hook sk f).scopes.get? sk = some sc' ∧
      Holds [] sc'.state sc'.closed.outcome? := by
  obtain ⟨⟨hooks, next, hstate, hkeys⟩, hclosed⟩ := hholds
  have hget : w.scope sk = sc := by simp only [World.scope, hsc, Option.getD_some]
  have hhook : w.hook sk f =
      { w with scopes := w.scopes.set sk { sc with state := .opened [] (hooks ++ [f]) next } } := by
    simp only [hook, hget, Scope.hook?, hstate]
  rw [hhook]
  refine ⟨{ sc with state := .opened [] (hooks ++ [f]) next }, rfl, ?_,
    ⟨hooks ++ [f], next, rfl, hkeys⟩, hclosed⟩
  show (w.scopes.set sk _).get? sk = _
  rw [Store.get?_set_of_some hsc]

/-- A fiber that was just started on a program is fresh. -/
theorem fresh_runFiber (w : World σ) (p : Program σ) :
    ∃ fiber, Fresh (w.runFiber p).2 p fiber (w.runFiber p).1 ∧
      fiber.context.limits = w.limits ∧ fiber.services.top = w.services ∧ fiber.frames = [] := by
  set id : FiberId := ⟨w.sequence + 1, w.now⟩ with hid
  set c : Context := .root id w.limits (w.refs.add .empty).2 w.concurrency with hc
  set scope : Key .scope := (w.scopes.add (.new id w.limits.finalization)).2 with hscope
  set fiber : Fiber σ :=
    { context := c, scope, phase := .notStarted { control := .start p }
      semaphores := ⟨(w.semaphores.add (.withPermits c.concurrency)).2, []⟩
      masks := ⟨true, []⟩, services := ⟨w.services, []⟩, inherited := [] } with hfiber
  set f : Key .fiber := (w.fibers.add fiber).2 with hf
  -- the world with the new fiber, before the fiber hangs on its scope
  set w₁ : World σ :=
    { w with
      sequence := w.sequence + 1
      refs := (w.refs.add .empty).1
      scopes := (w.scopes.add (.new id w.limits.finalization)).1
      semaphores := (w.semaphores.add (.withPermits c.concurrency)).1
      fibers := (w.fibers.add fiber).1 } with hw₁
  have hsc : w₁.scopes.get? scope = some (.new id w.limits.finalization) := by
    simp only [hw₁, Store.get?_add, hscope, if_pos]
  obtain ⟨sc, hfibers, hsc', hholds⟩ := hook_of_holds f hsc
    ⟨⟨[], 0, rfl, fun x hx => absurd hx List.not_mem_nil⟩, rfl⟩
  have hget : (w₁.hook scope f).fibers.get? f = some fiber := by
    rw [hfibers]
    simp only [hw₁, Store.get?_add, hf, if_pos]
  set w₂ : World σ := { w₁.hook scope f with roots := (w₁.hook scope f).roots ++ [f] } with hw₂
  have hwatch : (w₂.watchFiber f .root).1 =
      w₂.modifyFiber f fun fiber => { fiber with done := .pending [(0, .root)] 1 } := by
    have hget₂ : w₂.fibers.get? f = some fiber := hget
    simp only [watchFiber, hget₂]
    rfl
  set watched : Fiber σ := { fiber with done := .pending [(0, .root)] 1 } with hwatched
  have hget₃ : (w₂.watchFiber f .root).1.fibers.get? f = some watched := by
    rw [hwatch]
    show ((w₁.hook scope f).fibers.modify f _).get? f = _
    rw [Store.get?_modify, if_pos rfl, hget, Option.map_some]
  have hscopes : (w₂.watchFiber f .root).1.scopes = (w₁.hook scope f).scopes := by rw [hwatch]; rfl
  have hrun : w.runFiber p = ((w₂.watchFiber f .root).1.startFiber f, f) := rfl
  rw [hrun]
  exact ⟨_, fresh_startFiber hget₃ rfl rfl rfl rfl ⟨sc, by rw [hscopes]; exact hsc', hholds⟩,
    rfl, rfl, rfl⟩

/-- A fresh fiber that is left alone will be done with the exit that the evaluator gives its
program, whatever its budget of steps. -/
theorem endsWith_of_evaluates {p : Program σ} {w : World σ}
    (hfresh : Fresh f p fiber w) (hbudget : 0 < fiber.context.limits.maxOps)
    (heval : Evaluates f view fiber.context.limits.maxTrace p fiber.services.top fiber.frames
      (view w.board) e s') :
    EndsWith f view e w := by
  obtain ⟨token, hphase, htask⟩ := hfresh.parked
  set running : Fiber σ := { fiber with phase := .running } with hrunning
  have hcalm : Calm running := ⟨⟨hbudget, rfl⟩, hfresh.terminating, hfresh.deferred⟩
  have hstands : Stands f view w fiber (Holds []) (view w.board) :=
    ⟨⟨fiber, hfresh.found, fiber.ops, fiber.nextToken, fiber.done, hfresh.pending, rfl⟩,
      hfresh.scope, rfl⟩
  -- with nothing left on the stack the program is over, and the fiber leaves it
  have hover : ∀ w₁, Stands f view w₁ running (Holds []) s' → Unwinds f view e false e [] w₁ := by
    intro w₁ h₁
    refine ⟨w₁, { control := .leave (some e) }, ?_, runs_leave hcalm h₁⟩
    cases e with
    | success v => rfl
    | failure c => rfl
  have hruns : ∀ w₁, Stands f view w₁ running (Holds []) (view w.board) →
      Runs f view e { control := .start p } w₁ := by
    intro w₁ h₁
    obtain ⟨actual, hget, hvaries⟩ := h₁.actual
    refine runs_of_step hget hvaries (Or.inr hcalm.terminating) rfl ?_
    exact follows_of_evaluates heval running [] hcalm rfl rfl rfl [] w₁ h₁ hover
  have hresume : ∀ w', LeftAlone f w w' → view w'.board = view w.board →
      ∃ w'', (∃ fuel, w'.resume fuel f token .proceed = (w'', .finished ())) ∧
        EndsWith f view e w'' := by
    intro w' halone hview
    obtain ⟨h', actual, hget, -⟩ := hstands.leftAlone hfresh.found halone hview
    obtain ⟨actual₂, hget₂, hvaries⟩ := h'.actual
    obtain rfl : actual₂ = actual := Option.some.inj (hget₂.symm.trans hget)
    have hphase' : actual₂.phase = .suspended token { control := .start p } := by
      obtain ⟨_, _, _, -, rfl⟩ := hvaries
      exact hphase
    have hback : Stands f view (w'.modifyFiber f fun fiber => { fiber with phase := .running })
        running (Holds []) (view w.board) := by
      refine h'.modify rfl ?_
      rintro _ ⟨ops, token', cell, hcell, rfl⟩
      exact ⟨ops, token', cell, hcell, rfl⟩
    obtain ⟨fuel, w'', hturn, hends⟩ := hruns _ hback
    refine ⟨w'', ⟨fuel, ?_⟩, hends⟩
    simp only [World.resume, hget, hphase', ne_eq, not_true_eq_false, if_false]
    exact hturn
  have : Nonempty (World σ) := ⟨w⟩
  choose! next hnext hends using hresume
  exact .turn hfresh.found hphase htask hnext hends

/-- A program that is cleaned up after a panic in a labelled region. -/
def clumsy : Program (List String) :=
  .ensuring (.addFrame (.flatMap .yieldNow (.apply fun _ => .panic "lost")) (.label "inner"))
    (.apply fun _ => .look fun log => .tell (log ++ ["closed"]) (.program .unit))

/-- A world whose fibers yield after every step. -/
def impatient : World (List String) := .new { Config.standard with maxOps := 1 } .empty []

/-- The cleaned up program ends with its panic under the label, even with a budget of one step. -/
theorem endsWith_clumsy :
    EndsWith ⟨0⟩ (fun log => log) (.failure (.traced (.die ⟨"lost"⟩) ⟨[.label "inner"]⟩))
      (impatient.runFiber clumsy).1 := by
  have hinner : Evaluates ⟨0⟩ (fun log : List String => log) 50
      (.flatMap .yieldNow (.apply fun _ => .panic "lost")) .empty [.label "inner"] []
      (.failure (thrown 50 [.label "inner"] ⟨"lost"⟩)) [] :=
    .flatMap .yieldNow (Or.inr ⟨⟨"lost"⟩, calls_panic _ _ "lost" [], rfl⟩) .failCause
  have hfinal : Calls ⟨0⟩ (fun log : List String => log)
      (fun w => w.finalizeWith
        (.apply fun _ => .look fun log => .tell (log ++ ["closed"]) (.program .unit))
        (.failure (thrown 50 [.label "inner"] ⟨"lost"⟩))) [] (.ok .unit) ["closed"] :=
    calls_look _ _ fun b hb => calls_tell _ _ (by rw [hb]; exact calls_program _ _ .unit ["closed"])
  have heval : Evaluates ⟨0⟩ (fun log : List String => log) 50 clumsy .empty [] []
      (.failure (thrown 50 [.label "inner"] ⟨"lost"⟩)) ["closed"] :=
    .ensuring (.addFrame hinner) (Or.inl hfinal) .succeed
  obtain ⟨fiber, hfresh, hlimits, hservices, hframes⟩ := fresh_runFiber impatient clumsy
  exact endsWith_of_evaluates hfresh (by rw [hlimits]; decide)
    (by rw [hlimits, hservices, hframes]; exact heval)

end Fibers.Direct
