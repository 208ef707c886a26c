import Mathlib.Tactic.Common
import Fibers.World.Drive

set_option autoImplicit false

/-! # What an operation leaves alone

Most operations of a world reach into one or two of its parts. The lemmas here name the parts
that an operation does not reach, for the parts that invariants are about: the fibers, the
scopes, the semaphores, the tallies and the board.
-/

namespace Fibers.World

variable {σ : Type}

/-- An operation applied to the members of a list keeps what it keeps for each. -/
theorem foldl_keeps {α β : Type} (part : World σ → β) (g : World σ → α → World σ)
    (h : ∀ w a, part (g w a) = part w) (as : List α) (w : World σ) :
    part (as.foldl g w) = part w := by
  induction as generalizing w with
  | nil => rfl
  | cons a rest ih =>
      rw [List.foldl_cons, ih, h]

/-! ## Tasks -/

@[simp]
theorem fibers_queue (w : World σ) (t : Task σ) : (w.queue t).fibers = w.fibers := rfl

@[simp]
theorem scopes_queue (w : World σ) (t : Task σ) : (w.queue t).scopes = w.scopes := rfl

@[simp]
theorem board_queue (w : World σ) (t : Task σ) : (w.queue t).board = w.board := rfl

@[simp]
theorem fibers_wakeAll (w : World σ) (ks : List Wake) (p : Program σ) :
    (w.wakeAll ks p).fibers = w.fibers :=
  foldl_keeps fibers (fun w k => w.wake k p) (fun _ _ => rfl) ks w

@[simp]
theorem scopes_wakeAll (w : World σ) (ks : List Wake) (p : Program σ) :
    (w.wakeAll ks p).scopes = w.scopes :=
  foldl_keeps scopes (fun w k => w.wake k p) (fun _ _ => rfl) ks w

@[simp]
theorem board_wakeAll (w : World σ) (ks : List Wake) (p : Program σ) :
    (w.wakeAll ks p).board = w.board :=
  foldl_keeps board (fun w k => w.wake k p) (fun _ _ => rfl) ks w

@[simp]
theorem semaphores_wakeAll (w : World σ) (ks : List Wake) (p : Program σ) :
    (w.wakeAll ks p).semaphores = w.semaphores :=
  foldl_keeps semaphores (fun w k => w.wake k p) (fun _ _ => rfl) ks w

@[simp]
theorem tallies_wakeAll (w : World σ) (ks : List Wake) (p : Program σ) :
    (w.wakeAll ks p).tallies = w.tallies :=
  foldl_keeps tallies (fun w k => w.wake k p) (fun _ _ => rfl) ks w

/-! ## Futures, semaphores, references -/

theorem tallies_notifyFuture (settled : Settled (Program σ)) (w : World σ) (o : FutureWatcher σ) :
    (notifyFuture settled w o).tallies = w.tallies := by
  cases o <;> rfl

@[simp]
theorem tallies_settle (w : World σ) (f : Key .future) (settled : Settled (Program σ)) :
    (w.settle f settled).1.tallies = w.tallies := by
  unfold settle
  split
  · exact foldl_keeps tallies _ (tallies_notifyFuture settled) _ _
  · rfl

@[simp]
theorem tallies_watchFuture (w : World σ) (f : Key .future) (o : FutureWatcher σ) :
    (w.watchFuture f o).1.tallies = w.tallies := by
  unfold watchFuture
  split
  · rfl
  · split
    · exact tallies_notifyFuture _ w o
    · rfl

@[simp]
theorem tallies_relinquish (w : World σ) (s : Key .semaphore) (ticket : Nat) :
    (w.relinquish s ticket).tallies = w.tallies := by
  unfold relinquish
  split
  rename_i sem grant _
  cases grant with
  | none => rfl
  | some g => exact tallies_settle _ g _

@[simp]
theorem tallies_joinRefs (w : World σ) (m child : Key .refs) :
    (w.joinRefs m child).1.tallies = w.tallies := by
  unfold joinRefs
  split <;> rfl

@[simp]
theorem tallies_forkRefs (w : World σ) (m : Key .refs) :
    (w.forkRefs m).1.tallies = w.tallies := by
  unfold forkRefs
  split <;> rfl

/-! ## Scopes -/

@[simp]
theorem fibers_publish (w : World σ) (s : Key .scope) (e : AnyExit) :
    (w.publish s e).fibers = w.fibers := fibers_wakeAll _ _ _

@[simp]
theorem scopes_publish (w : World σ) (s : Key .scope) (e : AnyExit) :
    (w.publish s e).scopes = w.scopes.set s ((w.scope s).publish e).1 := scopes_wakeAll _ _ _

@[simp]
theorem board_publish (w : World σ) (s : Key .scope) (e : AnyExit) :
    (w.publish s e).board = w.board := board_wakeAll _ _ _

@[simp]
theorem fibers_takeFinalizer (w : World σ) (h : Handle) :
    (w.takeFinalizer h).1.fibers = w.fibers := by
  unfold takeFinalizer
  split
  · rfl
  · rfl

@[simp]
theorem fibers_cancelFinalizer (w : World σ) (h : Handle) :
    (w.cancelFinalizer h).1.fibers = w.fibers := fibers_takeFinalizer w h

@[simp]
theorem board_takeFinalizer (w : World σ) (h : Handle) :
    (w.takeFinalizer h).1.board = w.board := by
  unfold takeFinalizer
  split
  · rfl
  · rfl

@[simp]
theorem board_cancelFinalizer (w : World σ) (h : Handle) :
    (w.cancelFinalizer h).1.board = w.board := board_takeFinalizer w h

@[simp]
theorem scopes_scopeClosing (w : World σ) (f : Key .fiber) :
    (w.scopeClosing f).scopes = w.scopes := by
  simp only [scopeClosing]
  split
  · rfl
  · split <;> rfl

@[simp]
theorem board_scopeClosing (w : World σ) (f : Key .fiber) :
    (w.scopeClosing f).board = w.board := by
  simp only [scopeClosing]
  split
  · rfl
  · split <;> rfl

/-- Telling a fiber that its scope is closing marks it, and touches no other. -/
theorem get?_scopeClosing (w : World σ) (f g : Key .fiber) :
    (w.scopeClosing f).fibers.get? g =
      if f = g then (w.fibers.get? g).map fun fiber => { fiber with terminating := true }
      else w.fibers.get? g := by
  simp only [scopeClosing]
  have h : (w.modifyFiber f fun fiber => { fiber with terminating := true }).fibers.get? g =
      if f = g then (w.fibers.get? g).map fun fiber => { fiber with terminating := true }
      else w.fibers.get? g := Store.get?_modify _ _ _ _
  split
  · exact h
  · split
    · exact h
    · exact h

/-! ## Contests and the end of a fiber -/

@[simp]
theorem fibers_decide (w : World σ) (t : Key .tally) (r : Option (Nat × AnyExit)) :
    (w.decide t r).fibers = w.fibers := by
  unfold decide
  dsimp only
  split
  · exact fibers_wakeAll _ _ _
  · rfl

@[simp]
theorem scopes_decide (w : World σ) (t : Key .tally) (r : Option (Nat × AnyExit)) :
    (w.decide t r).scopes = w.scopes := by
  unfold decide
  dsimp only
  split
  · exact scopes_wakeAll _ _ _
  · rfl

@[simp]
theorem fibers_countDown (w : World σ) (t : Key .tally) :
    (w.countDown t).fibers = w.fibers := by
  unfold countDown
  dsimp only
  split
  · exact fibers_decide _ _ _
  · rfl

@[simp]
theorem scopes_countDown (w : World σ) (t : Key .tally) :
    (w.countDown t).scopes = w.scopes := by
  unfold countDown
  dsimp only
  split
  · exact scopes_decide _ _ _
  · rfl

@[simp]
theorem fibers_notifyDone (f : Key .fiber) (e : AnyExit) (w : World σ) (o : DoneWatcher σ) :
    (notifyDone f e w o).fibers = w.fibers := by
  cases o with
  | wake k => rfl
  | racer t place => exact fibers_decide _ _ _
  | member t place =>
      simp only [notifyDone]
      split
      · exact fibers_decide _ _ _
      · exact fibers_countDown _ _
  | root => rfl
  | react r => rfl

@[simp]
theorem scopes_notifyDone (f : Key .fiber) (e : AnyExit) (w : World σ) (o : DoneWatcher σ) :
    (notifyDone f e w o).scopes = w.scopes := by
  cases o with
  | wake k => rfl
  | racer t place => exact scopes_decide _ _ _
  | member t place =>
      simp only [notifyDone]
      split
      · exact scopes_decide _ _ _
      · exact scopes_countDown _ _
  | root => rfl
  | react r => rfl

/-- A tally that is there stays there, and none comes of watching. -/
theorem isSome_decide (w : World σ) (t u : Key .tally) (r : Option (Nat × AnyExit)) :
    ((w.decide t r).tallies.get? u).isSome = (w.tallies.get? u).isSome := by
  unfold decide
  dsimp only
  split
  · rw [tallies_wakeAll, Store.get?_set]
    split
    · exact Option.isSome_map
    · rfl
  · rfl

theorem isSome_countDown (w : World σ) (t u : Key .tally) :
    ((w.countDown t).tallies.get? u).isSome = (w.tallies.get? u).isSome := by
  have hcounted : ∀ tally : Tally,
      ((w.tallies.set t tally).get? u).isSome = (w.tallies.get? u).isSome := by
    intro tally
    rw [Store.get?_set]
    split
    · exact Option.isSome_map
    · rfl
  unfold countDown
  dsimp only
  split
  · exact (isSome_decide _ t u none).trans (hcounted _)
  · exact hcounted _

theorem isSome_notifyDone (f : Key .fiber) (e : AnyExit) (w : World σ) (o : DoneWatcher σ)
    (u : Key .tally) : ((notifyDone f e w o).tallies.get? u).isSome = (w.tallies.get? u).isSome := by
  cases o with
  | wake k => rfl
  | racer t place => exact isSome_decide w t u _
  | member t place =>
      simp only [notifyDone]
      split
      · exact isSome_decide w t u _
      · exact isSome_countDown w t u
  | root => rfl
  | react r => rfl

theorem isSome_watchFiber (w : World σ) (f : Key .fiber) (o : DoneWatcher σ) (u : Key .tally) :
    ((w.watchFiber f o).1.tallies.get? u).isSome = (w.tallies.get? u).isSome := by
  unfold watchFiber
  split
  · rfl
  · split
    · rfl
    · split
      · exact isSome_notifyDone f _ w o u
      · rfl

/-- Publishing the exit of a fiber that is pending settles its cell with that exit. -/
theorem get?_finishFiber {w : World σ} {f : Key .fiber} {fiber : Fiber σ} (e : AnyExit)
    (hget : w.fibers.get? f = some fiber) (hpending : fiber.done.isPending = true) :
    (w.finishFiber f e).fibers.get? f =
      some { fiber with phase := .done e, done := .settled (.resolved e) } := by
  cases hdone : fiber.done with
  | settled outcome =>
      rw [hdone] at hpending
      cases hpending
  | pending observers next =>
      simp only [finishFiber, hget, hdone, Cell.settle?]
      rw [foldl_keeps fibers _ (fun w o => fibers_notifyDone f e w o)]
      simp only [modifyFiber, Store.get?_modify, hget, if_pos, Option.map_some]

end Fibers.World
