import Fibers.Proofs.Run.Attention
import Fibers.Proofs.Run.Schedule
import Fibers.Proofs.Timers.Driving

set_option autoImplicit false

/-! # The queue in the course of a run

Whatever happens in a run, the queue goes on: time passes, tasks leave it, and tasks come in under new
numbers, the resumptions of fibers to be run at once. If all moves are exact, a task that was begun has
left the queue for good. And the moves that the run loop makes are exact.
-/

namespace Fibers

variable {σ : Type} {L : Licence} {actor : Option (Key .fiber)}

namespace World

/-! ## Elementary changes -/

theorem timers_scopeClosing (w : World σ) (f : Key .fiber) :
    w.timers.Onward Task.isOwn (w.scopeClosing f).timers := by
  unfold scopeClosing
  dsimp only
  split
  · exact .refl _
  · split
    · exact onward_queue _ _
    · exact .refl _

theorem timers_takeFinalizer (w : World σ) (h : Handle) : (w.takeFinalizer h).1.timers = w.timers := by
  unfold takeFinalizer
  split
  · rfl
  · rfl

theorem timers_register (w : World σ) (s : Key .scope) (fin : Finalizer σ) :
    (w.register s fin).1.timers = w.timers := by
  unfold register
  split
  · rfl
  · rfl

theorem timers_requestClose (w : World σ) (s : Key .scope) (e : AnyExit) :
    w.timers.Onward Task.isOwn (w.requestClose s e).1.timers := by
  unfold requestClose
  split
  · exact .refl _
  · rename_i sc closing _
    have hparent : ∀ w' : World σ, w'.timers = w.timers →
        w.timers.Onward Task.isOwn (closing.hooks.foldl scopeClosing w').timers :=
      fun w' heq => heq ▸ onward_foldl timers_scopeClosing closing.hooks w'
    dsimp only
    split
    · exact hparent _ (timers_takeFinalizer _ _)
    · exact hparent _ rfl

theorem timers_hook (w : World σ) (s : Key .scope) (f : Key .fiber) :
    w.timers.Onward Task.isOwn (w.hook s f).timers := by
  unfold hook
  split
  · exact .refl _
  · exact timers_scopeClosing w f

theorem timers_startFiber (w : World σ) (f : Key .fiber) :
    w.timers.Onward Task.isOwn (w.startFiber f).timers := by
  unfold startFiber
  split
  · exact .refl _
  · split
    · exact onward_queue _ _
    · exact .refl _

theorem timers_publish (w : World σ) (s : Key .scope) (e : AnyExit) :
    w.timers.Onward Task.isOwn (w.publish s e).timers :=
  onward_wakeAll ((w.scope s).publish e).2 (.succeed (.exit e))
    { w with scopes := w.scopes.set s ((w.scope s).publish e).1 }

theorem Change.timers {w w' : World σ} (h : Change L actor w w') :
    w.timers.Onward Task.isOwn w'.timers := by
  cases h with
  | elsewhere he => exact he.timers
  | touch => exact .refl _
  | contest _ hthere h =>
      clear hthere
      induction h with
      | refl => exact .refl _
      | tail _ hstep ih =>
          cases hstep with
          | elsewhere he => exact ih.trans he.timers
          | touch => exact ih
  | own => exact .refl _
  | @enlist c s p services inherited =>
      obtain ⟨x, hnew⟩ : ∃ x : Fiber σ, (w.newFiber c s p services inherited).1 =
          hook { (w.newSemaphore c.concurrency).1 with fibers := (w.fibers.add x).1 } s
            (w.fibers.add x).2 := ⟨_, rfl⟩
      rw [hnew]
      exact timers_hook { (w.newSemaphore c.concurrency).1 with fibers := (w.fibers.add x).1 } s _
  | launch => exact timers_startFiber w _
  | newScope => exact .refl _
  | @forkScope s owner =>
      have heq : (w.forkScope s owner).1.timers = w.timers :=
        timers_register (w.newScope owner (w.scope s).strategy).1 s _
      exact heq ▸ .refl _
  | register => exact timers_register w _ _ ▸ .refl _
  | take => exact timers_takeFinalizer w _ ▸ .refl _
  | lent =>
      unfold takeLent
      split
      · exact timers_takeFinalizer w _ ▸ .refl _
      · exact .refl _
  | close => exact timers_requestClose w _ _
  | claim => exact .refl _
  | publish => exact timers_publish w _ _

theorem Changes.timers {w w' : World σ} (h : Changes L actor w w') :
    w.timers.Onward Task.isOwn w'.timers := by
  induction h with
  | refl => exact .refl _
  | tail _ hstep ih => exact ih.trans hstep.timers

/-! ## The end of a step, and of a wait -/

theorem timers_park (w : World σ) (f : Key .fiber) (y : Fiber σ) (m : Machine σ) :
    w.timers.Onward Task.isOwn (w.park f y m).1.timers := by
  unfold park
  dsimp only
  split
  · exact onward_queue _ _
  · exact .refl _

theorem timers_subscribe (w : World σ) (k : Wake) (a : Awaited) :
    w.timers.Onward Task.isOwn (w.subscribe k a).timers := by
  cases a with
  | future f =>
      simp only [subscribe, watchFuture]
      split
      · exact .refl _
      · split
        · exact onward_queue _ _
        · exact .refl _
  | done f =>
      simp only [subscribe, watchFiber]
      split
      · exact .refl _
      · split
        · exact .refl _
        · split
          · exact onward_queue _ _
          · exact .refl _
  | closed s =>
      simp only [subscribe]
      split
      · exact .refl _
      · exact .refl _
  | decided t =>
      simp only [subscribe]
      split
      · exact .refl _
      · exact .refl _

theorem timers_notifyDone (f : Key .fiber) (e : AnyExit) (w : World σ) (o : DoneWatcher σ) :
    w.timers.Onward Task.isOwn (notifyDone f e w o).timers := by
  by_cases hwake : ∃ k, o = .wake k
  · obtain ⟨k, rfl⟩ := hwake
    exact onward_queue w _
  · exact (elsewhere_notifyDone (L := .none) f e w fun k heq => hwake ⟨k, heq⟩).timers

theorem timers_finishFiber (w : World σ) (f : Key .fiber) (e : AnyExit) :
    w.timers.Onward Task.isOwn (w.finishFiber f e).timers := by
  unfold finishFiber
  split
  · exact .refl _
  · split
    · exact .refl _
    · exact onward_foldl (timers_notifyDone f e) _ (w.modifyFiber f _)

theorem timers_conclude (f : Key .fiber) (stepped : World σ × Stepped σ) :
    stepped.1.timers.Onward Task.isOwn (conclude f stepped).world.timers := by
  obtain ⟨w, m, d⟩ := stepped
  cases d with
  | proceed => exact .refl _
  | yield =>
      simp only [conclude]
      split
      · exact .refl _
      · exact (timers_park w f _ m).trans (onward_queue _ _)
  | await a release =>
      simp only [conclude]
      split
      · exact .refl _
      · split
        · exact (timers_park w f _ _).trans (timers_subscribe _ _ a)
        · exact timers_park w f _ _
  | done e => exact timers_finishFiber w f e

theorem timers_awaken (w : World σ) (f : Key .fiber) (token : Nat) (r : Resume σ) :
    (w.awaken f token r).world.timers = w.timers := by
  rcases awaken_cases w f token r with heq | ⟨y, m, c, -, -, -, -, heq⟩
  · rw [heq]
  · rw [heq]

theorem timers_begin {w : World σ} {t : Timer (Task σ)} {timers : Timers (Task σ)}
    (hx : Moment.Lawful ⟨w, none⟩) (hdraws : w.timers.Draws t timers) :
    timers.Onward Task.isOwn (World.begin { w with timers } t.task).world.timers := by
  cases htask : t.task with
  | resume f token r => exact timers_awaken { w with timers } f token r ▸ .refl _
  | ring f => exact (elsewhere_resolve (L := .none) { w with timers } f .succeed).timers
  | run act =>
      have hact : act.Licensed w.law := by
        have hlicensed := hx.licensed.world.tasks t hdraws.mem
        rw [htask] at hlicensed
        exact hlicensed
      have hchanges : Changes w.law none { w with timers } (World.run act { w with timers }).1 :=
        (sound_run hact _).changes
      exact hchanges.timers

end World

/-! ## Moves -/

/-- The task with the number `id` is begun. -/
def Moment.Begins (x : Moment σ) (id : Nat) (x' : Moment σ) : Prop :=
  ∃ t timers, x.active = none ∧ x.world.timers.Draws t timers ∧ t.id = id ∧
    x' = World.begin { x.world with timers } t.task

/-- A task that is begun has left the queue. -/
theorem Moment.Begins.gone {x x' : Moment σ} {id : Nat} (h : x.Begins id x') (hx : x.Lawful)
    (hnumbered : x.world.timers.Numbered) : x'.world.timers.Gone id := by
  obtain ⟨t, timers, hactive, hdraws, rfl, rfl⟩ := h
  obtain ⟨w, active⟩ := x
  obtain rfl : active = none := hactive
  exact (hdraws.gone hnumbered).onward (World.timers_begin hx hdraws)

/-- In every exact move the queue goes on. -/
theorem Exact.timers {x x' : Moment σ} (h : Exact x x') (hx : x.Lawful) :
    x.world.timers.Onward Task.isOwn x'.world.timers := by
  cases h with
  | @advance w f m =>
      unfold World.advance
      split
      · exact .refl _
      · rename_i y _
        exact (World.step_changes hx y).timers.trans (World.timers_conclude f _)
  | task hdraws => exact hdraws.onward.trans (World.timers_begin hx hdraws)
  | pass hpasses => exact hpasses.onward
  | @errand w e others he hothers =>
      exact (World.elsewhere_runErrand (hx.licensed.world.errands e he) hothers).timers
  | @root w p hp =>
      have hchanges : World.Changes .none none w (w.runFiber p).1 := World.changes_runFiber w fun _ => hp
      exact hchanges.timers
  | @act w e a ha =>
      have hchanges : World.Changes .none none w (w.run a).1 := (World.sound_run ha w).changes
      exact hchanges.timers

namespace Run

variable {r : Run σ}

/-- In a run of exact moves the queue goes on. -/
theorem Exact.onward (h : r.Exact) {j k : Nat} (hjk : j ≤ k) :
    (r.moment j).world.timers.Onward Task.isOwn (r.moment k).world.timers := by
  induction hjk with
  | refl => exact .refl _
  | step _ ih => exact ih.trans ((h _).timers (r.lawful _))

theorem timers_start (r : Run σ) : (r.moment 0).world.timers.live = [] := by
  rw [r.start]
  rfl

/-- No two tasks in the queue have one number. -/
theorem Exact.numbered (h : r.Exact) (k : Nat) : (r.moment k).world.timers.Numbered := by
  refine (h.onward (Nat.zero_le k)).numbered ⟨?_, fun t ht => ?_⟩
  · rw [r.timers_start]
    exact List.nodup_nil
  · rw [r.timers_start] at ht
    cases ht

/-- A resumption in the queue is due. -/
theorem Exact.due (h : r.Exact) {k : Nat} {t : Timer (Task σ)}
    (ht : t ∈ (r.moment k).world.timers.live) (hown : t.task.isOwn = false) :
    t.deadline.nanos ≤ (r.moment k).world.timers.now.nanos := by
  rcases (h.onward (Nat.zero_le k)).live t ht with ht | ⟨-, hdue⟩
  · rw [r.timers_start] at ht
    cases ht
  · exact hdue hown

end Run

/-! ## The run loop -/

/-- Tasks in order are begun once. -/
theorem Moment.exact_next (x : Moment σ) : Exact x x.next := by
  obtain ⟨w, active⟩ := x
  cases active with
  | some fm => exact .advance
  | none =>
      simp only [next]
      cases hlive : w.timers.live with
      | nil => exact .pass ⟨rfl, rfl, Nat.le_refl _⟩
      | cons t rest =>
          have hdraws : w.timers.Draws t { w.timers with live := rest } := ⟨⟨[], rest, hlive, rfl⟩, rfl, rfl⟩
          exact .task hdraws

theorem Run.exact_inOrder (config : Config) (board : σ) (p : Program σ) (hp : p.Licensed .none) :
    (Run.inOrder config board p hp).Exact := by
  intro k
  cases k with
  | zero => exact .root hp
  | succ k => exact Moment.exact_next _

/-- The row of moments that is left after `k` for the moment `x`, with the tasks in order from there. -/
def Moment.turnOff (row : Nat → Moment σ) (k : Nat) (x : Moment σ) (j : Nat) : Moment σ :=
  if j ≤ k then row j else x.later (j - (k + 1))

theorem Moment.turnOff_steps {row : Nat → Moment σ} {k : Nat} {x : Moment σ}
    {P : Moment σ → Moment σ → Prop} (hrow : ∀ j, P (row j) (row (j + 1))) (hx : P (row k) x)
    (hnext : ∀ y : Moment σ, P y y.next) (j : Nat) : P (turnOff row k x j) (turnOff row k x (j + 1)) := by
  unfold turnOff
  rcases Nat.lt_trichotomy j k with hlt | rfl | hgt
  · rw [if_pos (Nat.le_of_lt hlt), if_pos (Nat.succ_le_of_lt hlt)]
    exact hrow j
  · rw [if_pos (Nat.le_refl j), if_neg (Nat.not_succ_le_self j), Nat.sub_self]
    exact hx
  · rw [if_neg (Nat.not_le_of_lt hgt), if_neg (by omega), show j + 1 - (k + 1) = j - (k + 1) + 1 by omega]
    exact hnext _

/-- What exact moves make of a moment of an exact run is a moment of one. -/
theorem Run.exists_exact {r : Run σ} (hr : r.Exact) {n : Nat} {x : Moment σ}
    (h : ReachesExactly (r.moment n) x) : ∃ r' : Run σ, r'.Exact ∧ ∃ k, r'.moment k = x := by
  induction h with
  | refl => exact ⟨r, hr, n, rfl⟩
  | @tail y z _ hstep ih =>
      obtain ⟨r', hr', k, rfl⟩ := ih
      refine ⟨{ r' with
        moment := Moment.turnOff r'.moment k z
        start := r'.start
        move := Moment.turnOff_steps r'.move hstep.move Moment.move_next },
        Moment.turnOff_steps hr' hstep Moment.exact_next, k + 1, ?_⟩
      show Moment.turnOff r'.moment k z (k + 1) = z
      rw [Moment.turnOff, if_neg (Nat.not_succ_le_self k), Nat.sub_self]
      rfl

/-- However a system is driven, it comes to moments of exact runs. -/
theorem World.keeps_exact (turns : Nat) : (World.host turns).Keeps fun w : World σ =>
    ∃ r : Run σ, r.Exact ∧ ∃ k, r.moment k = ⟨w, none⟩ where
  run := by
    rintro w w' task rest ⟨r, hr, k, hk⟩ hpop hperform
    obtain ⟨t, rfl, hdraws⟩ := Timers.draws_popDue hpop
    have hcount : w'.timers.Passes w'.timers.countRun := ⟨rfl, rfl, Nat.le_refl _⟩
    have hreaches : ReachesExactly ⟨w, none⟩ ⟨{ w' with timers := w'.timers.countRun }, none⟩ :=
      (World.reaches_perform hdraws hperform).tail (.pass hcount)
    exact Run.exists_exact hr (hk ▸ hreaches)
  wait := by
    rintro w w' limit ⟨r, hr, k, hk⟩ - hawait
    exact Run.exists_exact hr (hk ▸ World.reaches_await hawait)

end Fibers
