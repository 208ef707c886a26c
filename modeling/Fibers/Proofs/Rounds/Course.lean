import Fibers.Proofs.Rounds.Door

set_option autoImplicit false

/-! # The course of a member

A member of a zip whose program sleeps draws a ticket of the semaphore, takes a permit or queues for one,
sleeps, gives the permit back, and leaves: it closes its scope and ends. `Member.spot` says what it and its scope
are like at each point of this way, and `Member.moves` has the steps that concern the member alone.
-/

namespace Fibers.Rounds

open World Direct

variable {σ : Type}

/-- What is fixed of a member beside its fiber: the semaphore and its ticket there, which is also its place in
the zip and its key in the arena, how long it sleeps, and the tally of the zip. -/
structure Member (σ : Type) extends Walker σ where
  permits : Key .semaphore
  ticket : Nat
  span : Duration
  arena : Key .scope
  tally : Key .tally

namespace Member

variable (k : Member σ)

/-- The record of the start of a member, and its keys, fit together. -/
structure Sound (budget : Nat) : Prop extends k.toWalker.Sound budget where
  scope : k.birth.scope = k.scope
  semaphores : k.birth.semaphores.pushed = []
  services : k.birth.services.pushed = []
  masks : k.birth.masks.pushed = []
  labels : k.birth.labels = []
  parent : k.nest.parent = some ⟨k.arena, k.ticket⟩
  apart : k.arena ≠ k.scope
  watched : k.birth.done = .pending [(0, .member k.tally k.ticket)] 1

/-! ## Its way -/

/-- How a member ends. -/
def ending : AnyExit := .success .unit

/-- The finalizer that gives back what the ticket has. -/
def refund : Finalizer σ := .relinquish k.permits k.ticket

/-- The finalizer as it waits on the stack. -/
def refundFrame : Waiting σ := .finalizer (some ⟨k.scope, 0⟩) k.refund

def restFrame : Waiting σ := .map (.next (.sleep k.span))

def napFrame : Waiting σ := .map (.apply fun _ => .program (.async (Program.asleep k.span)))

/-- What waits while the permit is given back. -/
def givenFrames : List (Waiting σ) := [.restore .interruptible, .resumeWith ending]

def bare : ScopeState (Finalizer σ) := .opened [] [k.fiber] 0

def insured : ScopeState (Finalizer σ) := .opened [(0, k.refund)] [k.fiber] 1

def napping (timer : Nat) : ScopeState (Finalizer σ) :=
  .opened [(0, k.refund), (1, .canceler (.dropTimer timer))] [k.fiber] 2

def free : ScopeState (Finalizer σ) := .opened [] [k.fiber] 2

/-- What a member takes a permit and sleeps with. -/
def body : Program σ := (Program.duty (.take k.permits k.ticket)).andThen (.sleep k.span)

/-- What a member is like while it queues. -/
def queuing (grant : Key .future) : Spot σ :=
  { machine := ⟨.instruct (.wait (.future grant)), [k.restFrame, k.refundFrame], false⟩, state := k.insured }

/-- How a member closes its scope. -/
def closure : Closure σ := ⟨ending, [], [false], true⟩

/-- What the member and its scope are like at the points of the way. -/
def spot : Point → Spot σ
  | .start => { machine := ⟨.start (.duty (.guarded k.permits (.sleep k.span))), [], false⟩, state := k.bare }
  | .guarded => { machine := ⟨.instruct (.duty (.guarded k.permits (.sleep k.span))), [], false⟩, state := k.bare }
  | .ensuring => { machine := ⟨.instruct (.ensuring k.body k.refund), [], false⟩, state := k.bare }
  | .bind => { machine := ⟨.instruct k.body, [k.refundFrame], false⟩, state := k.insured }
  | .take => { machine := ⟨.instruct (.duty (.take k.permits k.ticket)), [k.restFrame, k.refundFrame], false⟩,
               state := k.insured }
  | .queue grant => k.queuing grant
  | .called grant => k.queuing grant
  | .granted => { machine := ⟨.instruct .unit, [k.restFrame, k.refundFrame], false⟩, state := k.insured }
  | .passed => { machine := ⟨.value .unit, [k.restFrame, k.refundFrame], false⟩, state := k.insured }
  | .begun => { machine := ⟨.instruct (.sleep k.span), [k.refundFrame], false⟩, state := k.insured }
  | .asking => { machine := ⟨.instruct .fiberContext, [k.napFrame, k.refundFrame], false⟩, state := k.insured }
  | .told => { machine := ⟨.value (.context k.birth.context), [k.napFrame, k.refundFrame], false⟩,
               state := k.insured }
  | .nap => { machine := ⟨.instruct (.async (Program.asleep k.span)), [k.refundFrame], false⟩, state := k.insured }
  | .awake timer => { machine := ⟨.instruct .unit, [.release ⟨k.scope, 1⟩, k.refundFrame], false⟩,
                      state := k.napping timer }
  | .rising timer => { machine := ⟨.value .unit, [.release ⟨k.scope, 1⟩, k.refundFrame], false⟩,
                       state := k.napping timer }
  | .given => { machine := ⟨.instruct .unit, givenFrames, false⟩, masks := [false], state := k.free }
  | .back => { machine := ⟨.value .unit, givenFrames, false⟩, masks := [false], state := k.free }
  | .finished => { machine := ⟨.value .unit, [], false⟩, state := k.free }
  | .leave => { machine := ⟨.leave (some ending), [], false⟩, state := k.free }
  | .leaving => { machine := ⟨.instruct (Program.closeOrWaitScope k.scope ending), [], true⟩, masks := [false]
                  state := k.free }
  | .close => { machine := ⟨.instruct (Program.closeScope k.scope ending), [Closure.waitFrame k.scope], true⟩
                masks := [false], state := k.free }
  | .door d => closure.spot k.scope d

end Member

/-! ## Private steps -/

namespace Point

/-- The point after a step that concerns the member alone, if the step at the point does. -/
def next? : Point → Option Point
  | .start => some .guarded
  | .ensuring => some .bind
  | .bind => some .take
  | .granted => some .passed
  | .passed => some .begun
  | .begun => some .asking
  | .asking => some .told
  | .told => some .nap
  | .awake timer => some (.rising timer)
  | .given => some .back
  | .back => some .finished
  | .finished => some .leave
  | .leave => some .leaving
  | .leaving => some .close
  | .door .shut => none
  | .door d => some (.door d.next)
  | _ => none

/-- Whether a step counts. -/
def isFree : Point → Bool
  | .start => true
  | .leave => true
  | _ => false

/-- The steps that are done of the budget after a step. -/
def spent (p : Point) (ops : Nat) : Nat :=
  match p with
  | .start => ops
  | .leave => ops
  | .door d => d.spent ops
  | _ => ops + 1

/-- Whether the budget is enough for the step. -/
def Can (budget : Nat) (p : Point) (ops : Nat) : Prop := p.isFree = true ∨ ops < budget

end Point

namespace Member

variable {k : Member σ} {budget : Nat}

theorem stays (p : Point) : Walker.Stays (k.spot p) := by
  cases p <;> first | exact Or.inr rfl | exact Or.inl rfl | exact Closure.stays _ _

/-- A point at which a step counts is one where the member yields once its budget is spent. -/
theorem works {p : Point} (hp : p.isFree = false) :
    (∃ q, (k.spot p).machine.control = .instruct q) ∨ ∃ e, (k.spot p).machine.control = .ofExit e := by
  have hvalue : ∀ v : Value, (∃ q, Control.value v = (.instruct q : Control σ)) ∨
      ∃ e, (Control.value v : Control σ) = .ofExit e := fun v => Or.inr ⟨.success v, rfl⟩
  cases p with
  | door d => cases d <;> first | exact Or.inl ⟨_, rfl⟩ | exact hvalue _
  | start => cases hp
  | leave => cases hp
  | _ => first | exact Or.inl ⟨_, rfl⟩ | exact hvalue _

theorem moves_start (hk : k.Sound budget) :
    Walker.Moves k.toWalker (fun _ => True) id (k.spot .start) (k.spot .guarded) := by
  intro w ops hactive _
  obtain ⟨y, token, rfl, hget, hbudget, hadvance⟩ := hactive.advance hk.toSound (stays .start)
  refine ⟨w, ?_, hactive.shift rfl, .refl w⟩
  rw [hadvance]
  rfl

theorem moves_ensuring (hk : k.Sound budget) :
    Walker.Moves k.toWalker (· < budget) (· + 1) (k.spot .ensuring) (k.spot .bind) := by
  refine Walker.moves_of_instruct hk.toSound rfl (stays .ensuring) fun w ops y hactive _ hscope => ?_
  have hregister : w.register k.scope k.refund =
      ({ w with scopes := w.scopes.set k.scope (k.nestAt (k.spot .bind)) }, some ⟨k.scope, 0⟩) := by
    simp only [World.register, hactive.scope_eq]
    rfl
  refine ⟨_, ?_, hactive.setScope fun _ => rfl, Walker.private_setScope w _⟩
  simp only [World.instruct, hscope.trans hk.scope, hregister]
  rfl

theorem moves_back (hk : k.Sound budget) :
    Walker.Moves k.toWalker (· < budget) (· + 1) (k.spot .back) (k.spot .finished) := by
  refine Walker.moves_of_unwind (e := .success .unit) hk.toSound rfl (stays .back) fun w ops hactive => ?_
  obtain ⟨hrestore, hactive'⟩ :=
    Walker.restore_of_active (k.spot .finished) hk.toSound hactive rfl rfl (Or.inl rfl)
  refine ⟨_, ?_, hactive', Walker.private_modify w _⟩
  show World.unwindValue k.fiber false .unit givenFrames w = _
  simp only [givenFrames, World.unwindValue, hrestore]
  rfl

theorem unwind_of_pushed {α : Type} {s : Stack α} (h : s.pushed = []) : s.unwind = s := by
  cases s
  cases h
  rfl

theorem moves_leave (hk : k.Sound budget) :
    Walker.Moves k.toWalker (fun _ => True) id (k.spot .leave) (k.spot .leaving) := by
  intro w ops hactive _
  obtain ⟨y, token, rfl, hget, hbudget, hadvance⟩ := hactive.advance hk.toSound (stays .leave)
  refine ⟨w.modifyFiber k.fiber fun fiber =>
    { fiber.unwind with masks := fiber.unwind.masks.push false }, ?_, hactive.modify rfl fun token => ⟨token, ?_⟩,
    Walker.private_modify w _⟩
  · rw [hadvance]
    simp only [World.step, spot, World.leave, conclude, Walker.record, hk.scope]
  · simp only [Walker.record, Fiber.unwind, unwind_of_pushed hk.semaphores, unwind_of_pushed hk.services, spot,
      hk.masks]
    rw [← hk.labels]
    rfl

/-- The steps that concern the member alone. -/
theorem moves (hk : k.Sound budget) {p p' : Point} (hp : p.next? = some p') :
    Walker.Moves k.toWalker (p.Can budget) p.spent (k.spot p) (k.spot p') := by
  have hcounts : ∀ {x x' : Spot σ} {can : Nat → Prop}, Walker.Moves k.toWalker (· < budget) (· + 1) x x' →
      (∀ ops, can ops → ops < budget) → Walker.Moves k.toWalker can (· + 1) x x' :=
    fun h hcan w ops hactive hops => h w ops hactive (hcan ops hops)
  have hcan : ∀ {p : Point}, p.isFree = false → ∀ ops, p.Can budget ops → ops < budget :=
    fun hfree ops h => h.resolve_left (by rw [hfree]; exact Bool.false_ne_true)
  have hquiet : ∀ {p p' : Point} {q : Program σ}, p.isFree = false →
      (k.spot p).machine.control = .instruct q → Walker.Shifts (k.spot p) (k.spot p') →
      (∀ (w : World σ) (y : Fiber σ), y.context = k.birth.context →
        w.instruct k.fiber y (k.spot p).machine q = (w, { machine := (k.spot p').machine })) →
      Walker.Moves k.toWalker (p.Can budget) (· + 1) (k.spot p) (k.spot p') :=
    fun hfree hm hshift h => hcounts (Walker.moves_instruct hk.toSound hm (stays _) hshift h) (hcan hfree)
  cases p with
  | start =>
      cases hp
      exact fun w ops hactive _ => moves_start hk w ops hactive trivial
  | ensuring =>
      cases hp
      exact hcounts (moves_ensuring hk) (hcan rfl)
  | bind =>
      cases hp
      exact hquiet rfl rfl rfl fun _ _ _ => rfl
  | granted =>
      cases hp
      exact hquiet rfl rfl rfl fun _ _ _ => rfl
  | passed =>
      cases hp
      exact hcounts (Walker.moves_unwind (e := .success .unit) hk.toSound rfl (stays .passed) rfl fun _ => rfl)
        (hcan rfl)
  | begun =>
      cases hp
      exact hquiet rfl rfl rfl fun _ _ _ => rfl
  | asking =>
      cases hp
      refine hquiet rfl rfl rfl fun w y hy => ?_
      show (w, _) = (w, _)
      rw [hy]
      rfl
  | told =>
      cases hp
      exact hcounts (Walker.moves_unwind (e := .success (.context k.birth.context)) hk.toSound rfl (stays .told) rfl
        fun _ => rfl) (hcan rfl)
  | awake timer =>
      cases hp
      exact hquiet rfl rfl rfl fun _ _ _ => rfl
  | given =>
      cases hp
      exact hquiet rfl rfl rfl fun _ _ _ => rfl
  | back =>
      cases hp
      exact hcounts (moves_back hk) (hcan rfl)
  | finished =>
      cases hp
      exact hcounts (Walker.moves_unwind (e := .success .unit) hk.toSound rfl (stays .finished) rfl fun _ => rfl) (hcan rfl)
  | leave =>
      cases hp
      exact fun w ops hactive _ => moves_leave hk w ops hactive trivial
  | leaving =>
      cases hp
      exact hquiet rfl rfl rfl fun _ _ _ => rfl
  | door d =>
      have hdoor : ∀ d : Door, d.left ≠ 0 →
          Walker.Moves k.toWalker (Point.Can budget (.door d)) d.spent (k.spot (.door d)) (k.spot (.door d.next)) :=
        fun d hd w ops hactive hops =>
          Closure.moves hk.toSound (Or.inr rfl) d hd w ops hactive (hcan rfl ops hops)
      cases d <;> first | cases hp; exact hdoor _ (by simp [Door.left]) | cases hp
  | _ => cases hp

end Member

end Fibers.Rounds
