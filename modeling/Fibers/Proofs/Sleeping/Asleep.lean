import Fibers.Program.Combinators
import Fibers.Proofs.Finalizers.Invocation
import Fibers.Proofs.Run.Summons

set_option autoImplicit false

/-! # What becomes of a sleep

A program that sleeps sets a timer that resolves a future, registers with the scope of its fiber a
finalizer that drops the timer, and waits for the future. From then on, as long as the future is not
resolved, the fiber waits, or it has been told to leave its program and does so; and the finalizer stands
until the scope is asked to close. A fiber whose scope takes no finalizers any more cannot be made to
leave.
-/

namespace Fibers

variable {σ : Type} {r : Run σ}

/-- The program that drops a timer. -/
def Program.dropTimer (id : Nat) : Program σ :=
  .lazy (.call (.cancelTimer id) fun _ => .exit (.success .unit))

/-- What a program that sleeps does with the future that it is going to wait for. -/
def Program.asleep (span : Duration) (f : Key .future) : Act σ .registration :=
  .call (.alarm span f) fun id => .pending (some (.dropTimer id))

theorem Program.licensed_dropTimer (L : Licence) (id : Nat) :
    (Program.dropTimer id : Program σ).Licensed L := .lazy (.call nofun fun _ => .exit)

theorem Program.sleep_eq (span : Duration) : (Program.sleep span : Program σ) =
    Program.fiberContext.bindAny fun _ => .program (.async (Program.asleep span)) := rfl

theorem Program.licensed_sleep (L : Licence) (span : Duration) :
    (Program.sleep span : Program σ).Licensed L := by
  rw [sleep_eq]
  refine .flatMap .fiberContext (.apply fun _ => .program (.async fun f => .call nofun fun id =>
    .pending fun p hp => ?_))
  obtain rfl := Option.some.inj hp
  exact licensed_dropTimer L id

theorem World.futures_park (w : World σ) (f : Key .fiber) (y : Fiber σ) (m : Machine σ) :
    (w.park f y m).1.futures = w.futures := by
  unfold park
  dsimp only
  split
  · rfl
  · rfl

/-- A future stays pending when somebody comes to wait for it. -/
theorem World.isPending_subscribe {w : World σ} {f : Key .future} (h : (w.future f).isPending = true)
    (k : Wake) : ((w.subscribe k (.future f)).future f).isPending = true := by
  cases hcell : w.future f with
  | settled outcome =>
      rw [hcell] at h
      cases h
  | pending os next =>
      have hsubscribe : w.subscribe k (.future f) =
          { w with futures := w.futures.set f (.pending (os ++ [(next, .wake k)]) (next + 1)) } := by
        simp only [subscribe, watchFuture, hcell, Cell.attach?]
      rw [hsubscribe, future, Store.get?_set, if_pos rfl]
      cases w.futures.get? f with
      | none => rfl
      | some cell => rfl

/-- A fiber in a run that works on the instruction to sleep. -/
structure Sleep (r : Run σ) where
  start : Nat
  fiber : Key .fiber
  state : Fiber σ
  machine : Machine σ
  span : Duration
  works : (r.moment start).Works fiber state machine
  instruction : machine.control = .instruct (.async (Program.asleep span))

namespace Sleep

variable (p : Sleep r) {h : Handle} {k : Nat}

/-- The number of the timer. -/
def timer : Nat := (r.moment p.start).world.timers.nextId

/-- The future that the timer resolves. -/
def callback : Key .future := (r.moment p.start).world.newFuture.2

/-- The finalizer that drops the timer. -/
def canceler : Finalizer σ := .canceler (.dropTimer p.timer)

/-- The world in which the timer is set. -/
def armed : World σ :=
  let w := ((r.moment p.start).world.count p.fiber).newFuture.1
  { w with timers := (w.timers.set p.span (.ring p.callback)).1 }

/-- The handle under which the finalizer is registered, if the scope took it. -/
def handle : Option Handle := (p.armed.register p.state.scope p.canceler).2

/-- The world in which the finalizer is registered. -/
def registered : World σ := (p.armed.register p.state.scope p.canceler).1

/-- The machine that waits. -/
def waiting : Machine σ := p.machine.holding p.handle

/-- The world in which the fiber is put aside. -/
def parked : World σ := (p.registered.park p.fiber { p.state with ops := 0 } p.waiting).1

/-- The fiber, and the token under which it waits. -/
def wake : Wake := ⟨p.fiber, p.state.nextToken⟩

/-- The future is not resolved. -/
def Pending (k : Nat) : Prop := ((r.moment k).world.future p.callback).isPending = true

/-- Up to `n` nobody but the timer resolves the future: the fiber has not given its key to anybody else. -/
def Private (n : Nat) : Prop :=
  ∀ k, p.start < k → k < n → p.Pending k → ¬ p.Pending (k + 1) →
    (r.moment k).Begins p.timer (r.moment (k + 1))

/-! ## The start -/

theorem get?_registered : p.registered.fibers.get? p.fiber = some { p.state with ops := p.state.ops + 1 } := by
  have hfibers : p.registered.fibers = p.armed.fibers := (World.parts_register _ _ _).2.2
  rw [hfibers]
  exact World.get?_count p.works.fiber

theorem future_registered : p.registered.future p.callback = .fresh := by
  have hfutures : p.registered.futures = p.armed.futures := (World.parts_register _ _ _).1
  have hnew : p.armed.futures.get? p.callback = some .fresh := by
    show ((r.moment p.start).world.futures.add .fresh).1.get?
      ((r.moment p.start).world.futures.add .fresh).2 = _
    rw [Store.get?_add, if_pos rfl]
  rw [World.future, hfutures, hnew]
  rfl

/-- The timer is set, the finalizer is registered, and the fiber is put aside to wait. -/
theorem next : r.moment (p.start + 1) =
    ⟨p.parked.subscribe p.wake (.future p.callback), none⟩ := by
  have hstep : r.moment (p.start + 1) = World.conclude p.fiber
      (p.registered, ⟨p.machine, .await (.future p.callback) p.handle⟩) := by
    rw [Run.advance_of_turn p.works.turn, World.advance_instruct p.works.here p.instruction]
    rfl
  have hnone : p.registered.settledProgram? (.future p.callback) = none := by
    rw [World.settledProgram?, p.future_registered]
    rfl
  exact hstep.trans (World.conclude_await p.get?_registered hnone _ _)

/-- To wait for something puts nothing back. -/
theorem grows_next : World.Grows none p.parked (r.moment (p.start + 1)).world := by
  rw [p.next]
  exact World.grows_subscribe p.parked p.wake (.future p.callback)

/-- Setting the timer comes down to elementary changes. -/
theorem changes_armed (L : Licence) :
    World.Changes L (some p.fiber) (r.moment p.start).world p.armed := by
  have hcount : World.Changes L (some p.fiber) (r.moment p.start).world
      ((r.moment p.start).world.count p.fiber) := World.changes_own rfl fun x => rfl
  have hfuture : World.Changes L (some p.fiber) ((r.moment p.start).world.count p.fiber)
      ((r.moment p.start).world.count p.fiber).newFuture.1 :=
    World.changes_command _ (c := .newFuture) nofun
  have halarm : World.Changes L (some p.fiber) ((r.moment p.start).world.count p.fiber).newFuture.1
      p.armed := World.changes_command _ (c := .alarm p.span p.callback) nofun
  exact (hcount.trans hfuture).trans halarm

/-- So does registering the finalizer. -/
theorem changes_registered (L : Licence) :
    World.Changes L (some p.fiber) (r.moment p.start).world p.registered :=
  (p.changes_armed L).tail (.register (.canceler (Program.licensed_dropTimer L _)))

/-! ## The timer -/

/-- The queue goes on from the moment after the timer was set. -/
theorem onward (hexact : r.Exact) (hk : p.start < k) :
    p.armed.timers.Onward Task.isOwn (r.moment k).world.timers := by
  have hnext : p.armed.timers.Onward Task.isOwn (r.moment (p.start + 1)).world.timers := by
    rw [p.next, ← World.timers_register p.armed p.state.scope p.canceler]
    exact (World.timers_park p.registered p.fiber _ _).trans (World.timers_subscribe _ _ _)
  exact hnext.trans (hexact.onward hk)

/-- What is in the queue under the number of the timer is one that a program set. -/
theorem isOwn_timer (hexact : r.Exact) (hk : p.start < k) {t : Timer (Task σ)}
    (ht : t ∈ (r.moment k).world.timers.live) (hid : t.id = p.timer) : t.task.isOwn = true := by
  rcases (p.onward hexact hk).live t ht with ht | ⟨hnew, -⟩
  · rcases Timers.mem_insert.mp ht with rfl | ht
    · rfl
    · exact absurd hid (Nat.ne_of_lt ((hexact.numbered p.start).below t ht))
  · have hafter : p.timer < t.id := hnew
    exact absurd hid (Nat.ne_of_gt hafter)

/-- The number of the timer was given out. -/
theorem timer_lt (hexact : r.Exact) (hk : p.start < k) : p.timer < (r.moment k).world.timers.nextId :=
  Nat.lt_of_lt_of_le (Nat.lt_succ_self p.timer) (p.onward hexact hk).nextId

/-! ## Waiting -/

theorem pending_start : p.Pending (p.start + 1) := by
  have hfresh : p.parked.future p.callback = .fresh := by
    rw [← p.future_registered, World.future, World.future, parked, World.futures_park]
  rw [Pending, p.next]
  exact World.isPending_subscribe (hfresh ▸ rfl) p.wake

/-- The fiber waits for the future. -/
structure Waiting (k : Nat) : Prop where
  idle : ∀ m, (r.moment k).active ≠ some (p.fiber, m)
  fiber : ∃ y, (r.moment k).world.fibers.get? p.fiber = some y ∧
    y.phase = .suspended p.state.nextToken p.waiting ∧ y.masks = p.state.masks
  expects : (r.moment k).world.Expects (· = .future p.callback) p.wake

theorem waiting_start : p.Waiting (p.start + 1) := by
  have hchanges := p.changes_registered .none
  refine ⟨fun m heq => ?_, ?_, ?_⟩
  · rw [p.next] at heq
    cases heq
  · have hparked : p.parked.fibers.get? p.fiber = some (({ p.state with ops := 0 } : Fiber σ).park p.waiting).1 :=
      World.get?_park _ _ p.get?_registered
    obtain ⟨y, hy, -⟩ := p.grows_next.fibers p.fiber _ hparked
    rw [p.next] at hy
    obtain ⟨z, hz, heq⟩ := World.fibers_subscribe hy
    obtain rfl := Option.some.inj (hparked.symm.trans hz)
    rw [p.next]
    exact ⟨y, hy, by rw [heq]; rfl, by rw [heq]; rfl⟩
  · rw [p.next]
    exact World.expects_subscribe (y := { p.state with ops := p.state.ops + 1 })
      (hchanges.attentive (r.attentive p.start))
      (World.Changes.addressed hchanges (r.attentive p.start) (r.addressed p.start)) p.get?_registered

/-- A fiber whose scope refuses the finalizer cannot be made to leave. -/
theorem deaf_of_refused (hnone : p.handle = none) :
    p.machine.exiting = true ∨ p.state.interruptible = false := by
  cases hterm : p.state.terminating with
  | true =>
      refine p.works.free.imp_right fun hstay => ?_
      rw [Fiber.mustLeave, hterm, Bool.true_and] at hstay
      exact hstay
  | false =>
      -- a fiber that has not been told of the closing has an open scope, which takes the finalizer
      obtain ⟨sc, fs, hooks, n, hsc, hstate, -⟩ :=
        (r.lawful p.start).hooked p.fiber p.state p.works.fiber id hterm
      have hopened : (p.armed.scope p.state.scope).state = .opened fs hooks n := by
        rw [← hstate]
        exact congrArg Scope.state (World.scope_of_get hsc)
      rw [handle, World.register_of_opened hopened] at hnone
      cases hnone

/-! ## The finalizer -/

/-- From the start on the handle is an old one. -/
theorem issued_after (hh : p.handle = some h) (hk : p.start < k) : (r.moment k).world.Issued h := by
  obtain ⟨-, hissued, -⟩ := World.issued_register hh
  have hparked : p.parked.Issued h := by
    rw [World.Issued, parked, World.scopes_park]
    exact hissued
  exact (hparked.mono p.grows_next.scopes).mono (r.scopesLater hk)

theorem stack_waiting (hh : p.handle = some h) : p.waiting.stack = .release h :: p.machine.stack := by
  rw [waiting, hh]
  rfl

theorem stands_start (hh : p.handle = some h) : (r.moment (p.start + 1)).world.Stands h p.canceler := by
  have hregistered : p.registered.Stands h p.canceler :=
    r.stands_registered (k := p.start) (w := p.armed) rfl hh
  have hparked : p.parked.Stands h p.canceler :=
    hregistered.of_status (World.status_of_eq (World.scopes_park _ _ _ _))
  rw [p.next]
  exact hparked.of_status (World.status_subscribe _ _ _)

/-- Nobody else has the handle when the fiber is put aside. -/
theorem above_start (hh : p.handle = some h) :
    (r.moment (p.start + 1)).Above (.without h) p.fiber p.waiting.stack := by
  have hlawful := (r.lawful_of_turn p.works.turn).licensed
  obtain ⟨-, -, hfresh⟩ := World.issued_register hh
  have hle : (r.moment p.start).world.law ≤ .without h := World.law_le_without hfresh
  have hworld : p.registered.Licensed (.without h) :=
    World.licensed_register ((p.changes_armed _).licensed (fun _ hnew hissued => absurd hissued hnew)
      (hlawful.world.mono hle fun _ => id)) (.canceler (Program.licensed_dropTimer _ _))
  have hparked : p.parked.Licensed ((Licence.without h).sparing p.fiber) :=
    World.licensed_park (hworld.sparing (fun _ => id) p.fiber) fun hf => absurd rfl hf
  obtain ⟨y, hy, hphase, -⟩ := p.waiting_start.fiber
  refine ⟨?_, p.waiting, [], ?_, ?_, rfl, nofun⟩
  · rw [p.next]
    exact ⟨World.licensed_subscribe hparked p.wake (.future p.callback), nofun⟩
  · rw [Moment.machine?_aside p.waiting_start.idle hy, hphase]
    rfl
  · have hcontrol := ((hlawful.active _ _ rfl id).mono hle).control
    rw [waiting, hh]
    exact hcontrol

/-! ## From moment to moment -/

/-- Where the fiber is while the future is not resolved: it waits; or it has been told to end, and is
about to leave its program; or it has left it. The finalizer, if it was registered, stands, and nobody
has its handle but the frame that waits. -/
inductive Stage (k : Nat) : Prop
  | asleep : p.Waiting k → (∀ h, p.handle = some h → (r.moment k).world.Stands h p.canceler ∧
      (r.moment k).Above (.without h) p.fiber p.waiting.stack) → Stage k
  | told {h : Handle} {y : Fiber σ} : p.handle = some h → (r.moment k).world.Stands h p.canceler →
      (r.moment k).Licensed ((Licence.without h).sparing p.fiber) →
      (r.moment k).Leaves p.fiber y p.waiting → Stage k
  | left {h : Handle} : p.handle = some h → (r.moment k).world.Stands h p.canceler →
      (r.moment k).Licensed (.without h) → Stage k

/-- The finalizer stands in every stage. -/
theorem Stage.stands {p : Sleep r} (hstage : p.Stage k) (hh : p.handle = some h) :
    (r.moment k).world.Stands h p.canceler := by
  cases hstage with
  | asleep _ hheld => exact (hheld h hh).1
  | told hh' hstands =>
      obtain rfl := Option.some.inj (hh'.symm.trans hh)
      exact hstands
  | left hh' hstands =>
      obtain rfl := Option.some.inj (hh'.symm.trans hh)
      exact hstands

theorem stage_start : p.Stage (p.start + 1) :=
  .asleep p.waiting_start fun _ hh => ⟨p.stands_start hh, p.above_start hh⟩

/-- A fiber that waits keeps the handle in its frame in every move but its own. -/
theorem Waiting.keeps {p : Sleep r} (hwaiting : p.Waiting k) (hk : p.start < k)
    (hh : p.handle = some h) (hstands : (r.moment k).world.Stands h p.canceler)
    (habove : (r.moment k).Above (.without h) p.fiber p.waiting.stack) :
    (r.moment (k + 1)).world.Stands h p.canceler ∧
      (r.moment (k + 1)).Above (.without h) p.fiber p.waiting.stack := by
  have hstack : p.waiting.stack ≠ [] := by
    rw [p.stack_waiting hh]
    exact List.cons_ne_nil _ _
  obtain ⟨hfares, habove' | ⟨-, y, m, hactive, -⟩⟩ := (r.move k).above (r.lawful k) (r.turned k) habove hstack
    (fun _ => id) (p.issued_after hh hk).holds_new trivial (claimsLicensed_without h _)
    fun m pre e hmeets => by
      obtain ⟨y, hworks⟩ := hmeets.works
      exact hwaiting.idle m hworks.turn
  · exact ⟨hstands.fares rfl hfares, habove'⟩
  · exact absurd hactive (hwaiting.idle m)

/-- As long as the future is not resolved, one stage follows another. -/
theorem Stage.succ {p : Sleep r} (hstage : p.Stage k) (hk : p.start < k) (hpending : p.Pending k) :
    p.Stage (k + 1) := by
  cases hstage with
  | asleep hwaiting hheld =>
      obtain ⟨y, hy, hphase, hmasks⟩ := hwaiting.fiber
      have hheld' := fun h hh => hwaiting.keeps hk hh (hheld h hh).1 (hheld h hh).2
      have hstirs : (r.moment k).Stirs (· = .future p.callback) p.wake y p.waiting (r.moment (k + 1)) :=
        (r.move k).stirs (r.lawful k) (r.turned k) hwaiting.idle hy hphase hwaiting.expects
      cases hstirs with
      | @waits y' hy' hphase' haside _ hidle hexpects =>
          exact .asleep ⟨hidle, ⟨y', hy', hphase', haside.masks.trans hmasks⟩, hexpects⟩ hheld'
      | told ha htells _ =>
          -- who tells that the future is resolved has seen it resolved
          subst ha
          obtain ⟨settled, hsettled, -⟩ := htells
          rw [Pending, World.future, hsettled] at hpending
          cases hpending
      | ends hexiting hleave hrunning hactive =>
          cases hh : p.handle with
          | none =>
              have hinterruptible : y.interruptible = p.state.interruptible := by
                rw [Fiber.interruptible, Fiber.interruptible, hmasks]
              rw [Fiber.mustLeave, hinterruptible, Bool.and_eq_true] at hleave
              rcases p.deaf_of_refused hh with hdeaf | hdeaf
              · rw [waiting, hh] at hexiting
                rw [show (p.machine.holding none).exiting = p.machine.exiting from rfl, hdeaf] at hexiting
                cases hexiting
              · rw [hdeaf] at hleave
                cases hleave.2
          | some h =>
              obtain ⟨hstands, habove⟩ := hheld' h hh
              exact .told hh hstands habove.licensed ⟨hactive, hrunning, hexiting, hleave⟩
  | @told h y hh hstands hlicensed hleaves =>
      have hworld : (r.moment k).world.Licensed (.without h) :=
        hlicensed.world.of_sparing (r.turned k _ _ hleaves.1)
      obtain ⟨hlicensed', hfares⟩ := World.keeps_leaves hworld (p.issued_after hh hk).holds_new ⟨rfl, hleaves.2⟩
      rw [← Run.advance_of_turn hleaves.1] at hlicensed' hfares
      exact .left hh (hstands.fares rfl hfares) hlicensed'
  | @left h hh hstands hlicensed =>
      obtain ⟨hlicensed', hfares⟩ := (r.move k).keeps hlicensed (p.issued_after hh hk).holds_new trivial
        (fun _ _ _ => id) (claimsLicensed_without h _)
      exact .left hh (hstands.fares rfl hfares) hlicensed'

/-- If nobody but the timer resolves the future, the timer is gone, or it is known where the fiber is. -/
theorem gone_or_stage (hexact : r.Exact) {n : Nat} (hprivate : p.Private n) (hk : p.start < k) (hkn : k ≤ n) :
    (r.moment k).world.timers.Gone p.timer ∨ p.Pending k ∧ p.Stage k := by
  induction hk with
  | refl => exact Or.inr ⟨p.pending_start, p.stage_start⟩
  | @step k hk ih =>
      have hk' : p.start < k := hk
      rcases ih (Nat.le_of_succ_le hkn) with hgone | ⟨hpending, hstage⟩
      · exact Or.inl (hgone.onward (hexact.onward (Nat.le_succ k)))
      · by_cases hstill : p.Pending (k + 1)
        · exact Or.inr ⟨hstill, hstage.succ hk' hpending⟩
        · exact Or.inl ((hprivate k hk' hkn hpending hstill).gone (r.lawful k) (hexact.numbered k))

end Sleep

end Fibers
