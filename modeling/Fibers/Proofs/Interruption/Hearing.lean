import Fibers.Proofs.Interruption.Wearing
import Fibers.Proofs.Run.Schedule

set_option autoImplicit false

/-! # Interruptions are heard

Who interrupts a fiber in the middle of its program has its scope closed at once, if it can be
interrupted. A fiber that is masked puts the interruption off and goes on; and from then on, at every
moment, it still owes it, unless in some move before it was unmasked and its scope was asked to close
on behalf of everything it had put off. So a program that comes to its end owes nothing, and if an
interruption was put off on the way its end is not that of the fiber.
-/

namespace Fibers

variable {σ : Type}

/-- The fiber `f` is in the middle of its program: it is not done, and has not left the program. -/
structure Moment.Underway (x : Moment σ) (f : Key .fiber) (y : Fiber σ) (m : Machine σ) : Prop where
  fiber : x.world.fibers.get? f = some y
  machine : x.machine? f = some m
  inside : m.exiting = false

/-! ## One move -/

namespace World

/-- Who interrupts a fiber that can be interrupted asks its scope to close. -/
theorem interruptFiber_of_open {w : World σ} {f : Key .fiber} {z : Fiber σ}
    (hz : w.fibers.get? f = some z) (hpending : z.done.isPending = true)
    (hopen : z.interruptible = true) (id : FiberId) :
    w.interruptFiber f id = (w.requestClose z.scope (.interrupt id)).1 := by
  simp only [interruptFiber, hz, hpending, hopen, Bool.not_true, Bool.false_eq_true, if_false, if_true]

/-- On a fiber that is masked the interruption is put off, and that is all. -/
theorem interruptFiber_of_masked {w : World σ} {f : Key .fiber} {z : Fiber σ}
    (hz : w.fibers.get? f = some z) (hpending : z.done.isPending = true)
    (hmasked : z.interruptible = false) (id : FiberId) :
    w.interruptFiber f id =
      { w with fibers := w.fibers.set f { z with deferred := id.insert z.deferred } } := by
  simp only [interruptFiber, hz, hpending, hmasked, Bool.not_true, Bool.false_eq_true, if_false,
    modifyFiber, Store.modify_eq_set _ hz]

/-- A scope with the same state and the same exit reads as the same. -/
theorem state_of_status {w w' : World σ} {s : Key .scope} (h : w'.status s = w.status s) :
    (w'.scope s).state = (w.scope s).state := by
  unfold status at h
  cases hget : w.scopes.get? s with
  | none =>
      rw [hget] at h
      rw [scope, scope, hget, Option.map_eq_none_iff.mp h]
  | some sc =>
      rw [hget] at h
      obtain ⟨sc', hsc', heq⟩ := Option.map_eq_some_iff.mp h
      rw [scope_of_get hget, scope_of_get hsc']
      exact congrArg Prod.fst heq

/-- The end of a step takes back nothing that the fiber has heard. -/
theorem Hears.conclude {f : Key .fiber} {y : Fiber σ} {w : World σ} {stepped : World σ × Stepped σ}
    (h : Hears f y w stepped.1) : Hears f y w (World.conclude f stepped).world := by
  cases h with
  | @keeps y₁ hy₁ hmasked hids =>
      obtain ⟨y', hy', hmasks, hdeferred, -⟩ := masks_conclude hy₁
      exact .keeps hy' ((congrArg Stack.top hmasks).trans hmasked) (hdeferred ▸ hids)
  | @acts y₁ cause hy₁ hopen hterm hcause hstate =>
      obtain ⟨y', hy', hmasks, -, hterm'⟩ := masks_conclude hy₁
      refine .acts hy' ((congrArg Stack.top hmasks).trans hopen) (hterm'.trans hterm) hcause fun h => ?_
      obtain ⟨fins, hclosing⟩ := hstate h
      exact ⟨fins, (state_of_status (status_conclude f stepped)).trans hclosing⟩

/-- The step of a fiber that works does not end it before it has left its program. -/
theorem decision_of_works {w : World σ} {f : Key .fiber} {y : Fiber σ} {m : Machine σ}
    (hx : Moment.Lawful ⟨w, some (f, m)⟩) (hexiting : (w.step f y m).2.machine.exiting = false)
    (e : AnyExit) : (w.step f y m).2.decision ≠ .done e := by
  -- the law of the moment, with handles left free: what a frame holds has no part in this
  have hle : w.law ≤ { w.law with hold := fun _ => True } :=
    ⟨fun _ h => h, fun _ h => h, fun _ _ => trivial, id⟩
  obtain ⟨exiting, hsound⟩ : ∃ exiting, StepSound { w.law with hold := fun _ => True } (some f) w exiting
      [] (w.step f y m) := stepSound_step ((hx.licensed.active f m rfl id).mono hle)
    (hx.licensed.world.mono hle fun _ h => h).finalizers (fun s _ _ => claimLicensed_law w s)
    fun _ _ _ => trivial
  intro h
  rw [(hsound.done e h).2] at hexiting
  cases hexiting

/-- A masked fiber in the middle of its program takes the step of its own machine, which leaves it
there, and hears of what it has put off. -/
theorem hears_step {w : World σ} {f : Key .fiber} {y : Fiber σ} {m : Machine σ}
    (hx : Moment.Lawful ⟨w, some (f, m)⟩) (hy : w.fibers.get? f = some y) (hfits : y.Fits m.masks)
    (hinside : m.exiting = false) (hmasked : y.interruptible = false) :
    (w.step f y m).2.machine.exiting = false ∧ (∃ y', (w.step f y m).1.fibers.get? f = some y') ∧
      (y.deferred ≠ [] → Hears f y w (w.step f y m).1) := by
  have hmust : y.mustLeave = false := by rw [Fiber.mustLeave, hmasked, Bool.and_false]
  by_cases hworks : Moment.Works ⟨w, some (f, m)⟩ f y m
  · obtain ⟨hexiting, ⟨y', hy', -, -⟩, hhears⟩ := treads_step hx hworks hfits
    exact ⟨hexiting.trans hinside, ⟨y', hy'⟩, hhears⟩
  · have hheed : m.heed y = m := heed_of_free (Or.inr hmust)
    rw [← hheed]
    rcases step_idle hy hworks with ⟨e, ⟨-, hleaves⟩ | hcontrol, -⟩ | ⟨p, hstep⟩ | hstep
    · rw [hmust] at hleaves
      cases hleaves
    · -- at the end of its program a fiber wears no mask
      have hstack : m.stack = [] := (hx.licensed.active f m rfl id).leaving e hcontrol
      have hnone : m.masks = 0 := by
        rw [Machine.masks, hstack, hinside]
        rfl
      rw [hnone] at hfits
      rw [hfits.interruptible] at hmasked
      cases hmasked
    · rw [hstep]
      exact ⟨hinside, ⟨y, hy⟩, fun _ => .keeps hy hmasked fun _ h => h⟩
    · rw [hstep]
      exact ⟨hinside, ⟨_, get?_tired hy⟩, fun _ => .keeps (get?_tired hy) hmasked fun _ h => h⟩

end World

/-- A fiber that is masked, in the middle of its program, stays there in every move, and does not drop
its program. In its turn it takes the step of its own machine; aside it keeps its stacks, and its
machine but for what it goes on with when it is resumed. -/
structure Run.GoesOn (r : Run σ) (k : Nat) (f : Key .fiber) (y : Fiber σ) (m : Machine σ) : Prop where
  underway : ∃ y' m', (r.moment (k + 1)).Underway f y' m'
  turn : (r.moment k).active = some (f, m) →
    r.moment (k + 1) = World.conclude f ((r.moment k).world.step f y m)
  aside : (∀ m', (r.moment k).active ≠ some (f, m')) →
    ∃ y', (r.moment (k + 1)).world.fibers.get? f = some y' ∧ y.Aside y' ∧
      ((r.moment (k + 1)).machine? f = some m ∨ (r.moment k).Resumes (r.moment (k + 1)) f y)

/-- A masked fiber goes on, and hears of what it has put off. -/
theorem Run.goesOn {r : Run σ} {k : Nat} {f : Key .fiber} {y : Fiber σ} {m : Machine σ}
    (h : (r.moment k).Underway f y m) (hmasked : y.interruptible = false) :
    r.GoesOn k f y m ∧
      (y.deferred ≠ [] → World.Hears f y (r.moment k).world (r.moment (k + 1)).world) := by
  have hfits := ((r.fitting k).fits f y m h.fiber h.machine).1
  rcases Moment.machine?_cases h.machine with hactive | ⟨haside, -⟩
  · have hx := r.lawful_of_turn hactive
    have hfree : m.exiting = true ∨ y.mustLeave = false :=
      Or.inr (by rw [Fiber.mustLeave, hmasked, Bool.and_false])
    have hnext : r.moment (k + 1) = World.conclude f ((r.moment k).world.step f y m) := by
      rw [Run.advance_of_turn hactive]
      exact World.advance_of_free h.fiber hfree
    obtain ⟨hinside, ⟨y₁, hy₁⟩, hhears⟩ := World.hears_step hx h.fiber hfits h.inside hmasked
    refine ⟨⟨?_, fun _ => ?_, fun haside => ?_⟩, fun hne => ?_⟩
    · rw [hnext]
      obtain ⟨y', hy', -, ⟨m', hm', -, -, hexiting⟩ | ⟨⟨e, hdone⟩, -⟩⟩ := World.get?_conclude hy₁
      · exact ⟨y', m', hy', hm', hexiting.trans hinside⟩
      · exact absurd hdone (World.decision_of_works hx hinside e)
    · exact hnext
    · exact absurd hactive (haside m)
    · rw [hnext]
      exact (hhears hne).conclude
  · obtain ⟨y', hy', -, hstays, hmachine⟩ := (r.move k).aside (r.lawful k) haside h.fiber
    have hopen : y'.interruptible = y.interruptible := congrArg Stack.top hstays.masks
    refine ⟨⟨?_, fun hactive => absurd hactive (haside m), fun _ => ⟨y', hy', hstays, ?_⟩⟩, fun _ => ?_⟩
    · rcases hmachine with heq | ⟨t, m₀, c, hphase, -, hresumed⟩
      · exact ⟨y', m, hy', heq.trans h.machine, h.inside⟩
      · refine ⟨y', _, hy', Moment.machine?_of_active hresumed, ?_⟩
        have hm₀ : (r.moment k).machine? f = some m₀ := by
          rw [Moment.machine?_aside haside h.fiber, hphase]
          rfl
        rw [← Option.some.inj (h.machine.symm.trans hm₀)]
        exact h.inside
    · exact hmachine.imp_left fun heq => heq.trans h.machine
    · exact .keeps hy' (hopen.trans hmasked) fun _ => hstays.mem_deferred

/-! ## In the course of a run -/

/-- In move `k` somebody interrupts the fiber `f` in the name of `id`, in the world `w`. Whatever was done
in the move before, the rest of it, an act or a race that goes on up to the end of its step, is nothing
that `f` alone could do. -/
structure Run.Interrupts (r : Run σ) (k : Nat) (f : Key .fiber) (id : FiberId) (w : World σ) :
    Prop where
  before : ∃ actor, World.Grows actor (r.moment k).world w
  after : ∃ actor w', actor ≠ some f ∧ World.Grows actor (w.interruptFiber f id) w' ∧
    ((r.moment (k + 1)).world = w' ∨ ∃ g s, r.moment (k + 1) = World.conclude g (w', s))

/-- The fiber `f` is masked, in the middle of its program, and has put off an interruption in the name of
`id`. -/
def Moment.Owes (x : Moment σ) (f : Key .fiber) (id : FiberId) : Prop :=
  ∃ y m, x.Underway f y m ∧ y.interruptible = false ∧ id ∈ y.deferred

/-- Between two moments the fiber `f` is unmasked. Its scope, if it is open, is asked to close on behalf
of all that was put off, side by side in the order of the ids; in any case the fiber has been told. -/
def Moment.Settles (x x' : Moment σ) (f : Key .fiber) (id : FiberId) : Prop :=
  ∃ y y' cause, x.world.fibers.get? f = some y ∧ id ∈ y.deferred ∧
    y.deferred.Pairwise FiberId.Before ∧ Cause.interrupts? y.deferred = some cause ∧
    x'.world.fibers.get? f = some y' ∧ y'.interruptible = true ∧ y'.terminating = true ∧
    ((x.world.scope y.scope).isOpen = true →
      ∃ fins, (x'.world.scope y.scope).state = .closing (.failure cause) (some fins))

/-- What is owed is owed still, or it was settled. -/
theorem Run.owes_or_settles {r : Run σ} {j l : Nat} {f : Key .fiber} {id : FiberId} (hjl : j ≤ l)
    (h : (r.moment j).Owes f id) :
    (∀ i, j ≤ i → i ≤ l → (r.moment i).Owes f id) ∨
      ∃ i, j ≤ i ∧ i < l ∧ (∀ i', j ≤ i' → i' ≤ i → (r.moment i').Owes f id) ∧
        (r.moment i).Settles (r.moment (i + 1)) f id := by
  -- induction on the last moment: the move from there keeps the debt or settles it
  induction hjl with
  | refl =>
      refine Or.inl fun i hji hij => ?_
      rw [Nat.le_antisymm hij hji]
      exact h
  | @step l hjl ih =>
      rcases ih with howes | ⟨i, hji, hil, hbefore, hsettles⟩
      · obtain ⟨y, m, hunderway, hmasked, hid⟩ := howes l hjl (Nat.le_refl l)
        obtain ⟨hgoes, hhears⟩ := Run.goesOn hunderway hmasked
        obtain ⟨y', m', hunderway'⟩ := hgoes.underway
        cases hhears (List.ne_nil_of_mem hid) with
        | @keeps y₁ hy₁ hmasked₁ hids =>
            left
            intro i hji hil
            rcases Nat.le_succ_iff.mp hil with hil | rfl
            · exact howes i hji hil
            · obtain rfl := Option.some.inj (hunderway'.fiber.symm.trans hy₁)
              exact ⟨y', m', hunderway', hmasked₁, hids id hid⟩
        | @acts y₁ cause hy₁ hopen hterm hcause hstate =>
            right
            exact ⟨l, hjl, Nat.lt_succ_self l, howes, y, y₁, cause, hunderway.fiber, hid,
              ((r.fitting l).fits f y m hunderway.fiber hunderway.machine).1.ordered, hcause, hy₁,
              hopen, hterm, hstate⟩
      · exact Or.inr ⟨i, hji, Nat.lt_succ_of_lt hil, hbefore, hsettles⟩

/-- What the fiber `f` hears of its interruptions. -/
structure Run.Hearing (r : Run σ) (f : Key .fiber) : Prop where
  closes : ∀ {k y m id w z}, (r.moment k).Underway f y m → r.Interrupts k f id w →
    w.fibers.get? f = some z → z.interruptible = true → (w.scope z.scope).isOpen = true →
    ∃ fins, ((w.interruptFiber f id).scope z.scope).state = .closing (.interrupt id) (some fins)
  puts_off : ∀ {k y m id w z}, (r.moment k).Underway f y m → r.Interrupts k f id w →
    w.fibers.get? f = some z → z.interruptible = false →
    w.interruptFiber f id =
        { w with fibers := w.fibers.set f { z with deferred := id.insert z.deferred } } ∧
      ∃ y', (r.moment (k + 1)).world.fibers.get? f = some y' ∧ y'.masks = z.masks ∧ id ∈ y'.deferred
  goes_on : ∀ {k y m}, (r.moment k).Underway f y m → y.interruptible = false → r.GoesOn k f y m
  settles : ∀ {j l id}, j ≤ l → (r.moment j).Owes f id →
    (∀ i, j ≤ i → i ≤ l → (r.moment i).Owes f id) ∨
      ∃ i, j ≤ i ∧ i < l ∧ (∀ i', j ≤ i' → i' ≤ i → (r.moment i').Owes f id) ∧
        (r.moment i).Settles (r.moment (i + 1)) f id
  ends : ∀ {l y m e}, (r.moment l).Underway f y m → m.control = .leave (some e) →
    y.deferred = [] ∧ ∀ j id, j ≤ l → (r.moment j).Owes f id → y.mustLeave = true

/-- At the end of its program a fiber wears no mask. -/
theorem Run.fits_of_leave {r : Run σ} {l : Nat} {f : Key .fiber} {y : Fiber σ} {m : Machine σ}
    {e : Option AnyExit} (h : (r.moment l).Underway f y m) (hcontrol : m.control = .leave e) :
    y.Fits 0 := by
  have hfits := ((r.fitting l).fits f y m h.fiber h.machine).1
  have hstack : m.stack = [] := ((r.lawful l).licensed.machine h.machine id).leaving e hcontrol
  rw [Machine.masks, hstack, h.inside] at hfits
  exact hfits

/-- A fiber in the middle of its program is not done, whatever happens in a move up to some point. -/
theorem Run.pending_of_interrupts {r : Run σ} {k : Nat} {f : Key .fiber} {y : Fiber σ}
    {m : Machine σ} {id : FiberId} {w : World σ} {z : Fiber σ} (h : (r.moment k).Underway f y m)
    (hcall : r.Interrupts k f id w) (hz : w.fibers.get? f = some z) : z.done.isPending = true := by
  obtain ⟨actor, hbefore⟩ := hcall.before
  obtain ⟨z', hz', hlater, -⟩ := hbefore.fibers f y h.fiber
  obtain rfl := Option.some.inj (hz.symm.trans hz')
  rw [Cell.isPending, hlater.outcome, ((r.fitting k).fits f y m h.fiber h.machine).2]
  rfl

/-- An interruption that was put off is so at the end of the move, under the same masks. -/
theorem Run.Interrupts.keeps {r : Run σ} {k : Nat} {f : Key .fiber} {id : FiberId} {w : World σ}
    (hcall : r.Interrupts k f id w) {z : Fiber σ} (hz : (w.interruptFiber f id).fibers.get? f = some z)
    (hid : id ∈ z.deferred) :
    ∃ y', (r.moment (k + 1)).world.fibers.get? f = some y' ∧ y'.masks = z.masks ∧ id ∈ y'.deferred := by
  obtain ⟨actor, w', hactor, hgrows, hend⟩ := hcall.after
  obtain ⟨z', hz', -, haside⟩ := hgrows.fibers f z hz
  have hstays := haside hactor
  have hid' := hstays.mem_deferred hid
  rcases hend with heq | ⟨g, s, heq⟩
  · exact ⟨z', heq ▸ hz', hstays.masks, hid'⟩
  · -- the end of a step is another matter for the fiber whose step it is
    rw [heq]
    by_cases hg : g = f
    · subst hg
      have hbefore : (w', s).1.fibers.get? g = some z' := hz'
      obtain ⟨y', hy', hmasks, hdeferred, -⟩ := World.masks_conclude hbefore
      exact ⟨y', hy', hmasks.trans hstays.masks, hdeferred ▸ hid'⟩
    · obtain ⟨y', hy', -, hwaits⟩ := (World.onward_conclude g (w', s)).fibers f z' hz'
      have hrests := (hwaits fun heq => hg (Option.some.inj heq)).aside
      exact ⟨y', hy', hrests.masks.trans hstays.masks, hrests.mem_deferred hid'⟩

/-- Interruptions are never lost, and masks are respected. -/
theorem Run.hearing (r : Run σ) (f : Key .fiber) : r.Hearing f where
  closes := by
    intro k y m id w z h hcall hz hopen hscope
    rw [World.interruptFiber_of_open hz (Run.pending_of_interrupts h hcall hz) hopen]
    exact World.state_requestClose hscope _
  puts_off := by
    intro k y m id w z h hcall hz hmasked
    have hcalled := World.interruptFiber_of_masked hz (Run.pending_of_interrupts h hcall hz) hmasked id
    have hget : (w.interruptFiber f id).fibers.get? f =
        some { z with deferred := id.insert z.deferred } := by
      rw [hcalled, Store.get?_set_of_some hz]
    obtain ⟨y', hy', hmasks, hid⟩ := hcall.keeps hget (FiberId.mem_insert.mpr (Or.inl rfl))
    exact ⟨hcalled, y', hy', hmasks, hid⟩
  goes_on := fun h hmasked => (Run.goesOn h hmasked).1
  settles := fun hjl h => Run.owes_or_settles hjl h
  ends := by
    intro l y m e h hcontrol
    have hfits := Run.fits_of_leave h hcontrol
    refine ⟨hfits.drained hfits.interruptible, fun j id hjl howes => ?_⟩
    rcases Run.owes_or_settles hjl howes with hstill | ⟨i, hji, hil, -, hsettles⟩
    · obtain ⟨y', m', h', hmasked, -⟩ := hstill l hjl (Nat.le_refl l)
      obtain rfl := Option.some.inj (h.fiber.symm.trans h'.fiber)
      rw [hfits.interruptible] at hmasked
      cases hmasked
    · -- it was told when the debt was settled, and whoever was told stays told
      obtain ⟨y₀, y₁, cause, -, -, -, -, hy₁, -, hterm, -⟩ := hsettles
      obtain ⟨y', hy', honward⟩ := r.onward (Nat.succ_le_of_lt hil) hy₁
      obtain rfl := Option.some.inj (h.fiber.symm.trans hy')
      rw [Fiber.mustLeave, honward.terminating hterm, hfits.interruptible]
      rfl

/-- A program that interrupts its own fiber while it is masked. -/
def shy : Program Nat :=
  Program.uninterruptible (.access fun _ =>
    .call (.interruptFiber ⟨0⟩ .nobody) fun _ => .program .unit)

theorem licensed_shy : shy.Licensed .none :=
  .mask (.access fun _ => .call nofun fun _ => .program .succeed)

/-- The run of the program. -/
def shyRun : Run Nat := .inOrder .standard 0 shy licensed_shy

/-- The interruption is put off, and it is heard when the mask comes off. -/
theorem shy_hearing :
    (∃ w, shyRun.Interrupts 4 ⟨0⟩ .nobody w) ∧ (shyRun.moment 5).Owes ⟨0⟩ .nobody ∧
      (shyRun.moment 6).Settles (shyRun.moment 7) ⟨0⟩ .nobody := by
  have hcount : World.Changes .none (some ⟨0⟩) (shyRun.moment 4).world
      ((shyRun.moment 4).world.count ⟨0⟩) := World.changes_own rfl fun _ => rfl
  have hcall : shyRun.Interrupts 4 ⟨0⟩ .nobody ((shyRun.moment 4).world.count ⟨0⟩) :=
    ⟨⟨_, hcount.grows⟩, none, _, nofun, .refl _, Or.inl rfl⟩
  obtain ⟨-, y, hy, -, hid⟩ := (shyRun.hearing ⟨0⟩).puts_off
    ⟨rfl, rfl, rfl⟩ hcall rfl rfl
  have howes : (shyRun.moment 5).Owes ⟨0⟩ .nobody :=
    ⟨y, _, ⟨hy, rfl, rfl⟩, by rw [Option.some.inj (hy.symm.trans rfl)]; rfl, hid⟩
  refine ⟨⟨_, hcall⟩, howes, ?_⟩
  rcases (shyRun.hearing ⟨0⟩).settles (by decide : 5 ≤ 7) howes with hstill | ⟨i, h5, h7, -, hsettles⟩
  · obtain ⟨y, m, hunderway, hmasked, -⟩ := hstill 7 (by decide) (by decide)
    obtain rfl := Option.some.inj (hunderway.fiber.symm.trans rfl)
    cases hmasked
  · have hi : i = 5 ∨ i = 6 := by omega
    rcases hi with rfl | rfl
    · obtain ⟨y, y', cause, -, -, -, -, hy', hopen, -⟩ := hsettles
      obtain rfl := Option.some.inj (hy'.symm.trans rfl)
      cases hopen
    · exact hsettles

end Fibers
