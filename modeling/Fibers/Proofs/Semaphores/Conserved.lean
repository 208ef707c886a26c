import Fibers.Proofs.Run.Track
import Fibers.Proofs.Semaphores.Balance

set_option autoImplicit false

/-! # Permits in a run

No move of a run makes or loses a permit: what a move does to the semaphores comes down to what
programs can do to them. So a semaphore keeps its capacity, at every moment its permits are as many as
that, free or held, and a ticket that has been given out is never given out again.
-/

namespace Fibers

variable {σ : Type}

namespace World

/-! ## What leaves the semaphores alone -/

theorem semaphores_register (w : World σ) (s : Key .scope) (fin : Finalizer σ) :
    (w.register s fin).1.semaphores = w.semaphores := by
  unfold register
  split <;> rfl

theorem semaphores_takeFinalizer (w : World σ) (h : Handle) :
    (w.takeFinalizer h).1.semaphores = w.semaphores := by
  unfold takeFinalizer
  split <;> rfl

theorem semaphores_takeLent (w : World σ) (h : Handle) :
    (w.takeLent h).1.semaphores = w.semaphores := by
  unfold takeLent
  split
  · exact semaphores_takeFinalizer w h
  · rfl

theorem semaphores_scopeClosing (w : World σ) (f : Key .fiber) :
    (w.scopeClosing f).semaphores = w.semaphores := by
  unfold scopeClosing
  dsimp only
  split
  · rfl
  · split <;> rfl

theorem semaphores_requestClose (w : World σ) (s : Key .scope) (e : AnyExit) :
    (w.requestClose s e).1.semaphores = w.semaphores := by
  unfold requestClose
  split
  · rfl
  · rw [foldl_keeps semaphores scopeClosing semaphores_scopeClosing]
    split
    · exact semaphores_takeFinalizer _ _
    · rfl

theorem semaphores_hook (w : World σ) (s : Key .scope) (f : Key .fiber) :
    (w.hook s f).semaphores = w.semaphores := by
  unfold hook
  split
  · rfl
  · exact semaphores_scopeClosing w f

theorem semaphores_startFiber (w : World σ) (f : Key .fiber) :
    (w.startFiber f).semaphores = w.semaphores := by
  unfold startFiber
  split
  · rfl
  · split <;> rfl

/-! ## Steps -/

variable {L : Licence} {actor : Option (Key .fiber)}

/-- A new fiber brings a semaphore for its forks. -/
theorem permits_newFiber (w : World σ) (c : Context) (s : Key .scope) (p : Program σ)
    (services : Services) (inherited : List Frame) :
    Permits w (w.newFiber c s p services inherited).1 :=
  (permits_newSemaphore w c.concurrency).trans (.of_eq (semaphores_hook _ s _))

/-- Every elementary change keeps the permits. -/
theorem Change.permits {w w' : World σ} (h : Change L actor w w') : Permits w w' := by
  cases h with
  | elsewhere he => exact he.permits
  | touch => exact .of_eq rfl
  | contest _ hthere h =>
      clear hthere
      induction h with
      | refl => exact .refl w
      | tail _ hstep ih =>
          refine ih.trans ?_
          cases hstep with
          | elsewhere he => exact he.permits
          | touch => exact .of_eq rfl
  | own => exact .of_eq rfl
  | enlist => exact permits_newFiber _ _ _ _ _ _
  | launch => exact .of_eq (semaphores_startFiber _ _)
  | newScope => exact .of_eq rfl
  | forkScope => exact .of_eq (semaphores_register _ _ _)
  | register => exact .of_eq (semaphores_register _ _ _)
  | take => exact .of_eq (semaphores_takeFinalizer _ _)
  | lent => exact .of_eq (semaphores_takeLent _ _)
  | close => exact .of_eq (semaphores_requestClose _ _ _)
  | claim => exact .of_eq rfl
  | publish => exact .of_eq (semaphores_wakeAll _ _ _)

theorem Changes.permits {w w' : World σ} (h : Changes L actor w w') : Permits w w' := by
  induction h with
  | refl => exact .refl w
  | tail _ hstep ih => exact ih.trans hstep.permits

/-! ## The end of a step -/

theorem semaphores_park (w : World σ) (f : Key .fiber) (y : Fiber σ) (m : Machine σ) :
    (w.park f y m).1.semaphores = w.semaphores := by
  unfold park
  dsimp only
  split <;> rfl

theorem semaphores_notifyFuture (settled : Settled (Program σ)) (w : World σ) (o : FutureWatcher σ) :
    (notifyFuture settled w o).semaphores = w.semaphores := by
  cases o <;> rfl

theorem semaphores_watchFuture (w : World σ) (f : Key .future) (o : FutureWatcher σ) :
    (w.watchFuture f o).1.semaphores = w.semaphores := by
  unfold watchFuture
  split
  · rfl
  · split
    · exact semaphores_notifyFuture _ w o
    · rfl

theorem semaphores_decide (w : World σ) (t : Key .tally) (result : Option (Nat × AnyExit)) :
    (w.decide t result).semaphores = w.semaphores := by
  unfold decide
  dsimp only
  split
  · exact semaphores_wakeAll _ _ _
  · rfl

theorem semaphores_notifyDone (f : Key .fiber) (e : AnyExit) (w : World σ) (o : DoneWatcher σ) :
    (notifyDone f e w o).semaphores = w.semaphores := by
  cases o with
  | wake k => rfl
  | racer t place => exact semaphores_decide w t _
  | member t place =>
      simp only [notifyDone, countDown]
      split
      · exact semaphores_decide w t _
      · split
        · exact semaphores_decide _ t _
        · rfl
  | root => rfl
  | react r => rfl

theorem semaphores_watchFiber (w : World σ) (f : Key .fiber) (o : DoneWatcher σ) :
    (w.watchFiber f o).1.semaphores = w.semaphores := by
  unfold watchFiber
  split
  · rfl
  · split
    · rfl
    · split
      · exact semaphores_notifyDone f _ w o
      · rfl

theorem semaphores_subscribe (w : World σ) (k : Wake) (a : Awaited) :
    (w.subscribe k a).semaphores = w.semaphores := by
  cases a with
  | future f => exact semaphores_watchFuture w f _
  | done f => exact semaphores_watchFiber w f _
  | closed s =>
      simp only [subscribe]
      split <;> rfl
  | decided t =>
      simp only [subscribe]
      split <;> rfl

theorem semaphores_finishFiber (w : World σ) (f : Key .fiber) (e : AnyExit) :
    (w.finishFiber f e).semaphores = w.semaphores := by
  unfold finishFiber
  split
  · rfl
  · split
    · rfl
    · exact foldl_keeps semaphores (notifyDone f e) (semaphores_notifyDone f e) _ _

theorem semaphores_conclude (f : Key .fiber) (stepped : World σ × Stepped σ) :
    (conclude f stepped).world.semaphores = stepped.1.semaphores := by
  obtain ⟨w, m, d⟩ := stepped
  cases d with
  | proceed => rfl
  | yield =>
      simp only [conclude]
      split
      · rfl
      · exact semaphores_park w f _ m
  | await a release =>
      simp only [conclude]
      split
      · rfl
      · rename_i y hy
        split
        · exact (semaphores_subscribe _ _ a).trans (semaphores_park w f _ _)
        · exact semaphores_park w f _ _
  | done e => exact semaphores_finishFiber w f e

end World

/-! ## Runs -/

/-- No move makes or loses a permit. -/
theorem Move.permits {x x' : Moment σ} (h : Move x x') (hx : x.Lawful) :
    World.Permits x.world x'.world := by
  obtain ⟨w, active⟩ := x
  cases active with
  | none =>
      obtain ⟨timers, -, ⟨f, token, r, -, rfl⟩ | ⟨w', rfl, hchanges⟩⟩ := World.quiet_cases h
      · -- a resumption touches no semaphore
        rcases World.awaken_cases { w with timers } f token r with heq | ⟨y, m, c, -, -, -, -, heq⟩
        · rw [heq]
          exact .of_eq rfl
        · rw [heq]
          exact .of_eq rfl
      · have hbefore : World.Permits w { w with timers } := .of_eq rfl
        exact hbefore.trans (hchanges w.law trivial hx.licensed.world).permits
  | some fm =>
      obtain ⟨f, m⟩ := fm
      cases h with
      | advance =>
          show World.Permits w (w.advance f m).world
          unfold World.advance
          cases hget : w.fibers.get? f with
          | none => exact .refl w
          | some y =>
              exact (World.step_changes hx y).permits.trans (.of_eq (World.semaphores_conclude f _))

theorem Run.permits (r : Run σ) {i j : Nat} (hij : i ≤ j) :
    World.Permits (r.moment i).world (r.moment j).world := by
  induction hij with
  | refl => exact .refl _
  | @step k _ ih => exact ih.trans ((r.move k).permits (r.lawful k))

end Fibers
