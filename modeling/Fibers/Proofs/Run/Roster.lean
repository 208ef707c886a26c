import Fibers.Proofs.Run.Queue

set_option autoImplicit false

/-! # The roster of fibers

What a fiber is made with, what it has on its piles and whether it has ended stands on a `Card`. The
cards of all fibers in the order they were made, with the limits of the system, the last number that was
given out and the root fibers, make the `Roster` of a world. Most operations leave all of it alone: a
fiber pushes and pops its own piles, forks add cards, and only its end is written on the card of a fiber
for others. One lemma per operation says so; what becomes of the roster in a step is in the next module.
-/

namespace Fibers

variable {σ : Type}

/-- Whether a watcher is the list of root fibers. -/
def DoneWatcher.isRoot : DoneWatcher σ → Bool
  | .root => true
  | _ => false

/-- What a fiber is made with, what it has on its piles, whether it has not ended, and whether the list of
root fibers waits for that. -/
structure Card where
  context : Context
  scope : Key .scope
  semaphores : Stack (Key .semaphore)
  masks : Stack Bool
  services : Stack Services
  inherited : List Frame
  labels : List Frame
  pending : Bool
  vowed : Bool

/-- The card of a fiber. -/
def Fiber.card (x : Fiber σ) : Card where
  context := x.context
  scope := x.scope
  semaphores := x.semaphores
  masks := x.masks
  services := x.services
  inherited := x.inherited
  labels := x.labels
  pending := x.done.isPending
  vowed := x.done.observers.any fun o => o.2.isRoot

/-- The card of a fiber that has ended. -/
def Card.ended (c : Card) : Card := { c with pending := false, vowed := false }

/-- The fibers of a world. -/
structure Roster where
  limits : Limits
  sequence : Nat
  roots : List (Key .fiber)
  cards : Store .fiber Card

/-- The roster of a world. -/
def World.roster (w : World σ) : Roster where
  limits := w.limits
  sequence := w.sequence
  roots := w.roots
  cards := ⟨w.fibers.items.map Fiber.card⟩

/-- The card of the fiber `f`, put through a function. -/
def Roster.modify (r : Roster) (f : Key .fiber) (g : Card → Card) : Roster :=
  { r with cards := r.cards.modify f g }

/-- A card that is put through a function that does not change it. -/
theorem Roster.modify_eq_self {r : Roster} {f : Key .fiber} {g : Card → Card}
    (h : ∀ c, r.cards.get? f = some c → g c = c) : r.modify f g = r := by
  have hcards : r.cards.modify f g = r.cards := by
    refine Store.ext_get? fun k => ?_
    rw [Store.get?_modify]
    split
    · rename_i heq
      subst heq
      cases hc : r.cards.get? f with
      | none => rfl
      | some c => rw [Option.map_some, h c hc]
    · rfl
  exact congrArg (Roster.mk r.limits r.sequence r.roots) hcards

theorem Roster.modify_modify (r : Roster) (f : Key .fiber) (g h : Card → Card) :
    (r.modify f g).modify f h = r.modify f (h ∘ g) := by
  have hcards : (r.cards.modify f g).modify f h = r.cards.modify f (h ∘ g) := by
    refine Store.ext_get? fun k => ?_
    rw [Store.get?_modify, Store.get?_modify, Store.get?_modify]
    split
    · rw [Option.map_map]
    · rfl
  exact congrArg (Roster.mk r.limits r.sequence r.roots) hcards

namespace World

/-! ## Reading and changing the roster -/

/-- The card of a fiber is in the place of its key. -/
theorem get?_cards (w : World σ) (f : Key .fiber) :
    w.roster.cards.get? f = (w.fibers.get? f).map Fiber.card := Array.getElem?_map

theorem card_of_get {w : World σ} {f : Key .fiber} {x : Fiber σ} (h : w.fibers.get? f = some x) :
    w.roster.cards.get? f = some x.card := by
  rw [get?_cards, h, Option.map_some]

theorem get_of_card {w : World σ} {f : Key .fiber} {c : Card} (h : w.roster.cards.get? f = some c) :
    ∃ x, w.fibers.get? f = some x ∧ x.card = c := by
  rw [get?_cards] at h
  exact Option.map_eq_some_iff.mp h

/-- The fibers of a world are changed in one place. -/
theorem roster_modifyFiber_of {w : World σ} {f : Key .fiber} {g : Fiber σ → Fiber σ} {G : Card → Card}
    (h : ∀ x, w.fibers.get? f = some x → (g x).card = G x.card) :
    (w.modifyFiber f g).roster = w.roster.modify f G := by
  have hcards : (w.modifyFiber f g).roster.cards = w.roster.cards.modify f G := by
    refine Store.ext_get? fun k => ?_
    rw [get?_cards, Store.get?_modify, get?_cards, modifyFiber, Store.get?_modify]
    split
    · rename_i heq
      subst heq
      cases hx : w.fibers.get? f with
      | none => rfl
      | some x => exact congrArg some (h x hx)
    · rfl
  exact congrArg (Roster.mk w.limits w.sequence w.roots) hcards

/-- A change that does not show on the card. -/
theorem roster_modifyFiber {w : World σ} {f : Key .fiber} {g : Fiber σ → Fiber σ}
    (h : ∀ x, w.fibers.get? f = some x → (g x).card = x.card) : (w.modifyFiber f g).roster = w.roster :=
  (roster_modifyFiber_of (G := id) h).trans (Roster.modify_eq_self fun _ _ => rfl)

theorem roster_set_fiber {w : World σ} {f : Key .fiber} {x y : Fiber σ} (hx : w.fibers.get? f = some x)
    (h : y.card = x.card) : ({ w with fibers := w.fibers.set f y } : World σ).roster = w.roster := by
  have hset : w.fibers.modify f (fun _ => y) = w.fibers.set f y := Store.modify_eq_set _ hx
  rw [← hset]
  refine roster_modifyFiber fun z hz => ?_
  rw [h, Option.some.inj (hx.symm.trans hz)]

/-! ## Tasks, futures, semaphores and references -/

theorem roster_queue (w : World σ) (t : Task σ) : (w.queue t).roster = w.roster := rfl

theorem roster_wakeAll (w : World σ) (ks : List Wake) (p : Program σ) :
    (w.wakeAll ks p).roster = w.roster :=
  foldl_keeps roster (fun w k => w.wake k p) (fun _ _ => rfl) ks w

theorem roster_notifyFuture (settled : Settled (Program σ)) (w : World σ) (o : FutureWatcher σ) :
    (notifyFuture settled w o).roster = w.roster := by
  cases o <;> rfl

theorem roster_settle (w : World σ) (f : Key .future) (settled : Settled (Program σ)) :
    (w.settle f settled).1.roster = w.roster := by
  unfold settle
  split
  · exact foldl_keeps roster _ (roster_notifyFuture settled) _ _
  · rfl

theorem roster_watchFuture (w : World σ) (f : Key .future) (o : FutureWatcher σ) :
    (w.watchFuture f o).1.roster = w.roster := by
  unfold watchFuture
  split
  · rfl
  · split
    · exact roster_notifyFuture _ w o
    · rfl

theorem roster_relinquish (w : World σ) (s : Key .semaphore) (ticket : Nat) :
    (w.relinquish s ticket).roster = w.roster := by
  unfold relinquish
  split
  rename_i sem grant _
  cases grant with
  | none => rfl
  | some g => exact roster_settle _ g _

theorem roster_joinRefs (w : World σ) (m child : Key .refs) : (w.joinRefs m child).1.roster = w.roster := by
  unfold joinRefs
  split <;> rfl

theorem roster_forkRefs (w : World σ) (m : Key .refs) : (w.forkRefs m).1.roster = w.roster := by
  unfold forkRefs
  split <;> rfl

/-! ## Scopes -/

theorem roster_register (w : World σ) (s : Key .scope) (fin : Finalizer σ) :
    (w.register s fin).1.roster = w.roster := by
  unfold register
  split <;> rfl

theorem roster_takeFinalizer (w : World σ) (h : Handle) : (w.takeFinalizer h).1.roster = w.roster := by
  unfold takeFinalizer
  split <;> rfl

theorem roster_takeLent (w : World σ) (h : Handle) : (w.takeLent h).1.roster = w.roster := by
  unfold takeLent
  split
  · exact roster_takeFinalizer w h
  · rfl

theorem roster_scopeClosing (w : World σ) (f : Key .fiber) : (w.scopeClosing f).roster = w.roster := by
  have hmark : (w.modifyFiber f fun fiber => { fiber with terminating := true }).roster = w.roster :=
    roster_modifyFiber fun _ _ => rfl
  unfold scopeClosing
  dsimp only
  split
  · exact hmark
  · split <;> exact hmark

theorem roster_requestClose (w : World σ) (s : Key .scope) (e : AnyExit) :
    (w.requestClose s e).1.roster = w.roster := by
  unfold requestClose
  split
  · rfl
  · rw [foldl_keeps roster scopeClosing roster_scopeClosing]
    split
    · exact roster_takeFinalizer _ _
    · rfl

theorem roster_publish (w : World σ) (s : Key .scope) (e : AnyExit) : (w.publish s e).roster = w.roster :=
  roster_wakeAll _ _ _

theorem roster_forkScope (w : World σ) (s : Key .scope) (owner : FiberId) :
    (w.forkScope s owner).1.roster = w.roster :=
  roster_register (w.newScope owner (w.scope s).strategy).1 s _

theorem roster_hook (w : World σ) (s : Key .scope) (f : Key .fiber) : (w.hook s f).roster = w.roster := by
  unfold hook
  split
  · rfl
  · exact roster_scopeClosing w f

/-! ## The end of a fiber -/

theorem roster_decide (w : World σ) (t : Key .tally) (result : Option (Nat × AnyExit)) :
    (w.decide t result).roster = w.roster := by
  unfold decide
  dsimp only
  split
  · exact roster_wakeAll _ _ _
  · rfl

theorem roster_countDown (w : World σ) (t : Key .tally) : (w.countDown t).roster = w.roster := by
  unfold countDown
  dsimp only
  split
  · exact roster_decide _ _ _
  · rfl

/-- Of all watchers of a fiber that ends only the list of root fibers shows on the roster. -/
theorem roster_notifyDone (f : Key .fiber) (e : AnyExit) (w : World σ) (o : DoneWatcher σ) :
    (notifyDone f e w o).roster =
      { w.roster with roots := if o.isRoot then w.roots.filter (· != f) else w.roots } := by
  cases o with
  | wake k => rfl
  | racer t place => exact roster_decide w t _
  | member t place =>
      simp only [notifyDone]
      split
      · exact roster_decide w t _
      · exact roster_countDown w t
  | root => rfl
  | react r => rfl

theorem roster_notifyAll (f : Key .fiber) (e : AnyExit) (os : List (DoneWatcher σ)) (w : World σ) :
    (os.foldl (notifyDone f e) w).roster =
      { w.roster with roots := if os.any (·.isRoot) then w.roots.filter (· != f) else w.roots } := by
  induction os generalizing w with
  | nil => rfl
  | cons o os ih =>
      have hroots : (notifyDone f e w o).roots = if o.isRoot then w.roots.filter (· != f) else w.roots :=
        congrArg Roster.roots (roster_notifyDone f e w o)
      rw [List.foldl_cons, ih, roster_notifyDone, hroots, List.any_cons]
      by_cases ho : o.isRoot = true
      · simp only [ho, if_true, Bool.true_or, List.filter_filter, Bool.and_self, ite_self]
      · simp only [Bool.not_eq_true] at ho
        simp only [ho, Bool.false_eq_true, if_false, Bool.false_or]

/-- The end of a fiber that had not ended is written on its card, and takes it off the list of root fibers if
that waits for it. -/
theorem roster_finishFiber {w : World σ} {f : Key .fiber} {x : Fiber σ} (hx : w.fibers.get? f = some x)
    (hpending : x.done.isPending = true) (e : AnyExit) :
    (w.finishFiber f e).roster =
      { w.roster.modify f Card.ended with
        roots := if x.card.vowed then w.roots.filter (· != f) else w.roots } := by
  cases hdone : x.done with
  | settled outcome =>
      rw [hdone] at hpending
      cases hpending
  | pending os next =>
      have hended : (w.modifyFiber f fun fiber =>
          { fiber with phase := .done e, done := .settled (.resolved e) }).roster =
            w.roster.modify f Card.ended := roster_modifyFiber_of fun _ _ => rfl
      simp only [finishFiber, hx, hdone, Cell.settle?]
      rw [roster_notifyAll, hended, List.any_map]
      simp only [Fiber.card, hdone, Cell.observers]
      rfl

/-- A watcher that is not the list of root fibers does not show. -/
theorem card_watched {x : Fiber σ} {os : List (Nat × DoneWatcher σ)} {n : Nat} {o : DoneWatcher σ}
    (hdone : x.done = .pending os n) (ho : o.isRoot = false) :
    ({ x with done := .pending (os ++ [(n, o)]) (n + 1) } : Fiber σ).card = x.card := by
  simp only [Fiber.card, hdone, Cell.observers, List.any_append, List.any_cons, List.any_nil, ho,
    Bool.or_false]
  rfl

theorem roster_watchFiber (w : World σ) (f : Key .fiber) {o : DoneWatcher σ} (ho : o.isRoot = false) :
    (w.watchFiber f o).1.roster = w.roster := by
  unfold watchFiber
  cases hx : w.fibers.get? f with
  | none => rfl
  | some x =>
      dsimp only
      cases hdone : x.done with
      | pending os n =>
          refine roster_modifyFiber fun y hy => ?_
          obtain rfl : x = y := Option.some.inj (hx.symm.trans hy)
          exact card_watched hdone ho
      | settled outcome =>
          simp only [Cell.attach?]
          cases x.exit? with
          | none => rfl
          | some e =>
              refine (roster_notifyDone f e w o).trans ?_
              rw [ho]
              rfl

theorem roster_interruptFiber (w : World σ) (f : Key .fiber) (id : FiberId) :
    (w.interruptFiber f id).roster = w.roster := by
  unfold interruptFiber
  split
  · rfl
  · split
    · rfl
    · split
      · exact roster_requestClose w _ _
      · exact roster_modifyFiber fun _ _ => rfl

theorem roster_interruptAll (w : World σ) (fs : List (Key .fiber)) (id : FiberId) :
    (w.interruptAll fs id).roster = w.roster :=
  foldl_keeps roster _ (fun w f => roster_interruptFiber w f id) fs w

/-! ## Acts -/

/-- A program can stop its own watchers of a fiber, and the list of root fibers is none of them. -/
theorem roster_unwatchFiber (w : World σ) (f : Key .fiber) (key : Nat) :
    (w.command (.unwatchFiber f key)).1.roster = w.roster := by
  simp only [command]
  cases hx : w.fibers.get? f with
  | none => rfl
  | some x =>
      dsimp only
      cases hcell : x.done.forgetIf? DoneWatcher.isOwn key with
      | none => rfl
      | some cell =>
          refine roster_modifyFiber fun y hy => ?_
          obtain rfl : x = y := Option.some.inj (hx.symm.trans hy)
          cases hdone : x.done with
          | settled outcome =>
              rw [hdone] at hcell
              cases hcell
          | pending os n =>
              rw [hdone] at hcell
              simp only [Cell.forgetIf?, Option.ite_none_right_eq_some, Option.some.injEq] at hcell
              obtain ⟨-, rfl⟩ := hcell
              have hroot : (os.filter fun o => !(o.1 == key && o.2.isOwn)).any (fun o => o.2.isRoot) =
                  os.any fun o => o.2.isRoot := by
                rw [List.any_filter]
                refine congrArg (fun g => os.any g) (funext fun o => ?_)
                obtain ⟨n, o⟩ := o
                cases o <;> simp [DoneWatcher.isOwn, DoneWatcher.isRoot]
              simp only [Fiber.card, hdone, Cell.observers, hroot]
              rfl

theorem roster_command (w : World σ) (c : Call) : (w.command c).1.roster = w.roster := by
  cases c with
  | interruptFiber f id => exact roster_interruptFiber w f id
  | unwatchFiber f key => exact roster_unwatchFiber w f key
  | newFuture => rfl
  | interruptFuture f id => exact roster_settle w f _
  | unwatchFuture f key =>
      simp only [command]
      split <;> rfl
  | newSemaphore permits => rfl
  | tryAcquire s =>
      simp only [command]
      split <;> rfl
  | relinquish s ticket => exact roster_relinquish w s ticket
  | newScope owner strategy => rfl
  | forkScope s owner => exact roster_forkScope w s owner
  | cancelFinalizer h => exact roster_takeLent w h
  | newRef initial policy => rfl
  | newRefs => rfl
  | forkRefs m => exact roster_forkRefs w m
  | joinRefs m child => exact roster_joinRefs w m child
  | writeRef m r value => rfl
  | alarm delay f => rfl
  | cancelTimer id =>
      simp only [command]
      split <;> rfl

/-- An act makes no fiber and ends none. -/
theorem roster_run {e : Ending} (a : Act σ e) (w : World σ) : (w.run a).1.roster = w.roster :=
  match a, w with
  | .program _, _ => rfl
  | .exit _, _ => rfl
  | .done, _ => rfl
  | .ready _, _ => rfl
  | .pending _, _ => rfl
  | .panic _, _ => rfl
  | .look k, w => roster_run (k w.board) w
  | .tell b k, w => roster_run k { w with board := b }
  | .ask q k, w => roster_run (k (w.answer q)) w
  | .call c k, w => by
      have hcommand := roster_command w c
      simp only [run]
      split
      · rename_i w' reply heq
        rw [heq] at hcommand
        exact (roster_run (k reply) w').trans hcommand
      · rename_i w' d heq
        rw [heq] at hcommand
        exact hcommand
  | .resolve f p k, w => (roster_run (k _) _).trans (roster_settle w f (.resolved p))
  | .register s g k, w => (roster_run (k _) _).trans (roster_register w s (.lent g))
  | .after _ _ k, _ => roster_run (k _) _
  | .watchFiber f r k, w => (roster_run (k _) _).trans (roster_watchFiber w f (o := .react r) rfl)
  | .watchFuture f r k, w => (roster_run (k _) _).trans (roster_watchFuture w f (.react r))
  | .elsewhere _ _ _ k, _ => roster_run k _

/-! ## Calls of a step -/

theorem roster_finalizeWith (w : World σ) (fin : Finalizer σ) (e : AnyExit) :
    (w.finalizeWith fin e).1.roster = w.roster := by
  cases fin with
  | apply f => exact roster_run (f e) w
  | lent f => exact roster_run (f e) w
  | canceler p => rfl
  | closeChild child parent => rfl
  | relinquish s ticket => exact roster_relinquish w s ticket
  | relinquishOnFailure s ticket =>
      simp only [finalizeWith]
      split
      · exact roster_relinquish w s ticket
      · rfl

theorem roster_attend (w : World σ) (d : Duty σ) : (w.attend d).1.roster = w.roster := by
  cases d with
  | guarded s p => rfl
  | acquire s => rfl
  | take s ticket =>
      simp only [attend]
      split <;> rfl
  | close s e => exact roster_requestClose w s e
  | finish s =>
      simp only [attend]
      split <;> rfl
  | release h e =>
      have htake := roster_takeLent w h
      simp only [attend]
      split
      · rename_i w' heq
        rw [heq] at htake
        exact htake
      · rename_i w' fin heq
        rw [heq] at htake
        have hfinalize := roster_finalizeWith w' fin e
        split
        · rename_i w'' p heq'
          rw [heq'] at hfinalize
          exact hfinalize.trans htake
        · rename_i w'' d heq'
          rw [heq'] at hfinalize
          exact hfinalize.trans htake
  | finalize h fin e => exact roster_finalizeWith w fin e

theorem roster_collect (w : World σ) (refs : Key .refs) (fs : List (Key .fiber)) (values : List Value) :
    (w.collect refs fs values).1.roster = w.roster := by
  induction fs generalizing w values with
  | nil => rfl
  | cons f rest ih =>
      simp only [collect]
      split
      · have hjoin := roster_joinRefs w refs (w.refsOf f)
        split
        · rename_i w' heq
          rw [heq] at hjoin
          exact (ih w' _).trans hjoin
        · rename_i w' d heq
          rw [heq] at hjoin
          exact hjoin
      · rfl

theorem roster_follow (w : World σ) (s : Sequel σ) (v : Value) : (w.follow s v).1.roster = w.roster := by
  cases s with
  | captured => rfl
  | publish s => exact roster_publish w s _
  | runNext p => rfl
  | combine e => rfl
  | combineAll e => rfl
  | joined ours theirs =>
      have hjoin := roster_joinRefs w ours theirs
      simp only [follow]
      split
      · rename_i w' heq
        rw [heq] at hjoin
        exact hjoin
      · rename_i w' d heq
        rw [heq] at hjoin
        exact hjoin
  | raceDecided c =>
      simp only [follow]
      split
      · exact roster_interruptAll w _ _
      · rfl
  | raceDrained c winner e =>
      simp only [follow]
      split
      · rfl
      · rename_i f _
        have hjoin := roster_joinRefs w c.refs (w.refsOf f)
        split
        · rename_i w' heq
          rw [heq] at hjoin
          exact hjoin
        · rename_i w' d heq
          rw [heq] at hjoin
          exact hjoin
  | zipDecided c =>
      simp only [follow]
      split
      · have hcollect := roster_collect w c.refs c.members []
        split
        · rename_i w' values heq
          rw [heq] at hcollect
          exact hcollect
        · rename_i w' message heq
          rw [heq] at hcollect
          exact hcollect
        · rename_i w' d heq
          rw [heq] at hcollect
          exact hcollect
      · exact roster_interruptAll w _ _
      · rfl
  | zipDrained c first => rfl
  | awaitNext f => rfl
  | awaited es => rfl

theorem roster_proceedWith (w : World σ) (k : Cont σ) (v : Value) :
    (w.proceedWith k v).1.roster = w.roster := by
  cases k with
  | apply f => exact roster_run (f v) w
  | next p => rfl
  | sequel s => exact roster_follow w s v

theorem roster_recoverWith (w : World σ) (h : Handler σ) (c : AnyCause) :
    (w.recoverWith h c).1.roster = w.roster := by
  cases h with
  | apply f => exact roster_run (f c) w
  | capture => rfl

/-! ## Turns -/

theorem roster_park {w : World σ} {f : Key .fiber} {x y : Fiber σ} (hx : w.fibers.get? f = some x)
    (hy : y.card = x.card) (m : Machine σ) : (w.park f y m).1.roster = w.roster := by
  have hset : ({ w with fibers := w.fibers.set f (y.park m).1 } : World σ).roster = w.roster :=
    roster_set_fiber hx hy
  unfold park
  dsimp only
  split <;> exact hset

theorem roster_subscribe (w : World σ) (k : Wake) (a : Awaited) : (w.subscribe k a).roster = w.roster := by
  cases a with
  | future f => exact roster_watchFuture w f _
  | done f => exact roster_watchFiber w f rfl
  | closed s =>
      simp only [subscribe]
      split <;> rfl
  | decided t =>
      simp only [subscribe]
      split <;> rfl

theorem roster_awaken (w : World σ) (f : Key .fiber) (token : Nat) (r : Resume σ) :
    (w.awaken f token r).world.roster = w.roster := by
  have hrunning : (w.modifyFiber f fun fiber => { fiber with phase := .running }).roster = w.roster :=
    roster_modifyFiber fun _ _ => rfl
  unfold awaken
  split
  · rfl
  · split
    · split
      · rfl
      · cases r with
        | proceed => exact hrunning
        | program p => exact hrunning
        | terminate =>
            dsimp only
            split
            · rfl
            · exact hrunning
    · rfl

/-- A task of the queue makes no fiber, and no fiber ends before its turn does. -/
theorem roster_begin (w : World σ) (t : Task σ) : (w.begin t).world.roster = w.roster := by
  cases t with
  | resume f token r => exact roster_awaken w f token r
  | ring f => exact roster_settle w f _
  | run act => exact roster_run act w

theorem roster_runErrand (w : World σ) (e : Errand σ) (others : List (Errand σ)) :
    (w.runErrand e others).roster = w.roster := roster_settle _ _ _

/-- What a turn does after a step shows on the roster only if the fiber has ended. -/
theorem roster_conclude {f : Key .fiber} {w : World σ} {s : Stepped σ}
    (h : ∀ e, s.decision ≠ .done e) : (conclude f (w, s)).world.roster = w.roster := by
  obtain ⟨m, d⟩ := s
  cases d with
  | proceed => rfl
  | yield =>
      simp only [conclude]
      split
      · rfl
      · rename_i x hx
        exact roster_park hx rfl m
  | await a release =>
      simp only [conclude]
      split
      · rfl
      · rename_i x hx
        have hpark := roster_park (y := { x with ops := 0 }) hx rfl (m.holding release)
        split
        · exact (roster_subscribe _ _ a).trans hpark
        · have hrunning : ∀ w' : World σ, (w'.modifyFiber f fun fiber =>
              { fiber with phase := .running }).roster = w'.roster :=
            fun w' => roster_modifyFiber fun _ _ => rfl
          exact (hrunning _).trans hpark
  | done e => exact absurd rfl (h e)

end World

end Fibers
