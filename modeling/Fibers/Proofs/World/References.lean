import Fibers.Proofs.Run.Moment

set_option autoImplicit false

/-! # What leaves the maps of references alone

Only acts, forks and joins reach the maps of fiber references. Whatever else a step of a fiber does, down
to the end of the fiber, leaves all of them as they are. The programs that read and set references keep to
every licence.
-/

namespace Fibers

variable {σ : Type} {L : Licence}

theorem Program.licensed_getRef (r : FiberRef) : (Program.getRef r : Program σ).Licensed L :=
  .flatMap .fiberContext (.apply fun v => by
    cases v with
    | context c => exact .ask fun _ => .program .succeed
    | _ => exact .panic)

theorem Program.licensed_setRef (r : FiberRef) (d : Datum) : (Program.setRef r d : Program σ).Licensed L :=
  .flatMap .fiberContext (.apply fun v => by
    cases v with
    | context c => exact .call nofun fun _ => .program .succeed
    | _ => exact .panic)

/-- A program for whose time a reference is set keeps to what the program keeps to. -/
theorem Program.licensed_locally {c : Carrier Datum} {r : FiberRef} {d : Datum} {p : Program σ}
    (hp : p.Licensed L) : (Program.locally c r d p).Licensed L :=
  .flatMap (licensed_getRef r) (.apply fun v => by
    unfold Carrier.expect
    split
    · exact .program (.ensuring (.flatMap (licensed_setRef _ _) (.next hp))
        (.apply fun _ => .program (licensed_setRef _ _)) rfl)
    · exact .program .failCause)

namespace World

@[simp]
theorem refs_wakeAll (w : World σ) (ks : List Wake) (p : Program σ) :
    (w.wakeAll ks p).refs = w.refs :=
  foldl_keeps refs (fun w k => w.wake k p) (fun _ _ => rfl) ks w

@[simp]
theorem refs_publish (w : World σ) (s : Key .scope) (e : AnyExit) : (w.publish s e).refs = w.refs :=
  refs_wakeAll _ _ _

@[simp]
theorem refs_takeFinalizer (w : World σ) (h : Handle) : (w.takeFinalizer h).1.refs = w.refs := by
  unfold takeFinalizer
  split <;> rfl

@[simp]
theorem refs_cancelFinalizer (w : World σ) (h : Handle) : (w.cancelFinalizer h).1.refs = w.refs :=
  refs_takeFinalizer w h

@[simp]
theorem refs_register (w : World σ) (s : Key .scope) (fin : Finalizer σ) :
    (w.register s fin).1.refs = w.refs := by
  unfold register
  split <;> rfl

@[simp]
theorem refs_forkScope (w : World σ) (s : Key .scope) (owner : FiberId) :
    (w.forkScope s owner).1.refs = w.refs :=
  refs_register _ s _

@[simp]
theorem refs_scopeClosing (w : World σ) (f : Key .fiber) : (w.scopeClosing f).refs = w.refs := by
  unfold scopeClosing
  dsimp only
  split
  · rfl
  · split <;> rfl

@[simp]
theorem refs_requestClose (w : World σ) (s : Key .scope) (e : AnyExit) :
    (w.requestClose s e).1.refs = w.refs := by
  unfold requestClose
  split
  · rfl
  · dsimp only
    rw [foldl_keeps refs _ fun w f => refs_scopeClosing w f]
    split
    · exact refs_cancelFinalizer _ _
    · rfl

@[simp]
theorem refs_interruptFiber (w : World σ) (f : Key .fiber) (id : FiberId) :
    (w.interruptFiber f id).refs = w.refs := by
  unfold interruptFiber
  split
  · rfl
  · split
    · rfl
    · split
      · exact refs_requestClose _ _ _
      · rfl

@[simp]
theorem refs_interruptAll (w : World σ) (fs : List (Key .fiber)) (id : FiberId) :
    (w.interruptAll fs id).refs = w.refs :=
  foldl_keeps refs _ (fun w f => refs_interruptFiber w f id) fs w

/-! ## The stack -/

@[simp]
theorem refs_applyDeferred (w : World σ) (f : Key .fiber) : (w.applyDeferred f).refs = w.refs := by
  unfold applyDeferred
  split
  · rfl
  · split
    · split
      · rfl
      · exact refs_requestClose _ _ _
    · rfl

@[simp]
theorem refs_restore (w : World σ) (f : Key .fiber) (r : Restore) :
    (w.restore f r).1.refs = w.refs := by
  cases r with
  | interruptible => exact refs_applyDeferred _ f
  | semaphore => rfl
  | services => rfl
  | label => rfl

@[simp]
theorem refs_claimFinalizer (w : World σ) (ho : Option Handle) :
    (w.claimFinalizer ho).1.refs = w.refs := by
  cases ho with
  | none => rfl
  | some h => exact refs_cancelFinalizer w h

/-- An exit goes down a stack without touching a map. -/
theorem refs_descend (f : Key .fiber) (failed : Bool) (stack : List (Waiting σ)) (w : World σ) :
    (descend f failed stack w).1.refs = w.refs := by
  induction stack generalizing w with
  | nil => rfl
  | cons x rest ih =>
      cases x with
      | map k =>
          cases failed with
          | true => exact ih w
          | false => rfl
      | fold h k => rfl
      | restore r =>
          have hrestore := refs_restore w f r
          simp only [descend]
          split
          · rfl
          · rename_i w' hr
            rw [hr] at hrestore
            exact (ih w').trans hrestore
      | release h => exact (ih _).trans (refs_cancelFinalizer w h)
      | finalizer ho fin =>
          have hclaim := refs_claimFinalizer w ho
          simp only [descend]
          split
          · rfl
          · rename_i w' hc
            rw [hc] at hclaim
            exact (ih w').trans hclaim
      | resumeWith saved => rfl

/-! ## The end of a step -/

@[simp]
theorem refs_decide (w : World σ) (t : Key .tally) (result : Option (Nat × AnyExit)) :
    (w.decide t result).refs = w.refs := by
  unfold decide
  dsimp only
  split
  · exact refs_wakeAll _ _ _
  · rfl

@[simp]
theorem refs_countDown (w : World σ) (t : Key .tally) : (w.countDown t).refs = w.refs := by
  unfold countDown
  dsimp only
  split
  · exact refs_decide _ _ _
  · rfl

@[simp]
theorem refs_notifyDone (f : Key .fiber) (e : AnyExit) (w : World σ) (o : DoneWatcher σ) :
    (notifyDone f e w o).refs = w.refs := by
  cases o with
  | wake k => rfl
  | racer t place => exact refs_decide _ _ _
  | member t place =>
      simp only [notifyDone]
      split
      · exact refs_decide _ _ _
      · exact refs_countDown _ _
  | root => rfl
  | react r => rfl

@[simp]
theorem refs_finishFiber (w : World σ) (f : Key .fiber) (e : AnyExit) :
    (w.finishFiber f e).refs = w.refs := by
  unfold finishFiber
  split
  · rfl
  · split
    · rfl
    · exact foldl_keeps refs _ (fun w o => refs_notifyDone f e w o) _ _

@[simp]
theorem refs_notifyFuture (settled : Settled (Program σ)) (w : World σ) (o : FutureWatcher σ) :
    (notifyFuture settled w o).refs = w.refs := by
  cases o <;> rfl

@[simp]
theorem refs_watchFuture (w : World σ) (f : Key .future) (o : FutureWatcher σ) :
    (w.watchFuture f o).1.refs = w.refs := by
  unfold watchFuture
  split
  · rfl
  · split
    · exact refs_notifyFuture _ w o
    · rfl

@[simp]
theorem refs_watchFiber (w : World σ) (f : Key .fiber) (o : DoneWatcher σ) :
    (w.watchFiber f o).1.refs = w.refs := by
  unfold watchFiber
  split
  · rfl
  · split
    · rfl
    · split
      · exact refs_notifyDone f _ w o
      · rfl

@[simp]
theorem refs_subscribe (w : World σ) (k : Wake) (a : Awaited) :
    (w.subscribe k a).refs = w.refs := by
  cases a with
  | future f => exact refs_watchFuture w f _
  | done f => exact refs_watchFiber w f _
  | closed s =>
      simp only [subscribe]
      split <;> rfl
  | decided t =>
      simp only [subscribe]
      split <;> rfl

@[simp]
theorem refs_park (w : World σ) (f : Key .fiber) (y : Fiber σ) (m : Machine σ) :
    (w.park f y m).1.refs = w.refs := by
  unfold park
  dsimp only
  split <;> rfl

/-- The end of a step touches no map. -/
theorem refs_conclude (f : Key .fiber) (stepped : World σ × Stepped σ) :
    (conclude f stepped).world.refs = stepped.1.refs := by
  obtain ⟨w, m, d⟩ := stepped
  cases d with
  | proceed => rfl
  | yield =>
      simp only [conclude]
      split
      · rfl
      · exact refs_park w f _ m
  | await a release =>
      simp only [conclude]
      split
      · rfl
      · split
        · exact (refs_subscribe _ _ a).trans (refs_park w f _ _)
        · exact refs_park w f _ _
  | done e => exact refs_finishFiber w f e

end World

end Fibers
