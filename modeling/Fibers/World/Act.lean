import Fibers.Program.Combinators
import Fibers.World

set_option autoImplicit false

/-! # Running acts

An act runs at once, from its first question to its end. It may panic: what it did before stays
done. The continuations that the library supplies are run here too, so that from outside there is
one way to go on with a value (`proceedWith`), with a failure (`recoverWith`) and with an exit
(`finalizeWith`).
-/

namespace Fibers

/-- How an asynchronous registration ended: with a program to go on with, or with the wait for a
callback, with a program that cancels it. -/
inductive Registration (σ : Type) where
  | ready (p : Program σ)
  | pending (canceler : Option (Program σ))

/-- What an act of each ending gives back. -/
def Ending.Result (σ : Type) : Ending → Type
  | .program => Program σ
  | .exit => AnyExit
  | .unit => Unit
  | .registration => Registration σ

namespace World

variable {σ : Type}

/-- Answers a question. -/
def answer (w : World σ) : (q : Query) → q.Reply
  | .survey => w.survey
  | .fiber f => ((w.fibers.get? f).map Fiber.view).getD default
  | .future f => w.viewFuture f
  | .scope s => w.viewScope s
  | .semaphore s => w.semaphore s
  | .refs m => w.refMap m

/-- Carries out a command. A program stops a timer or a watcher of a fiber by a number that it was
given when it set it, and it was given the numbers of no others. A future does not look whose
number it is. -/
def command (w : World σ) : (c : Call) → World σ × Except Defect c.Reply
  | .interruptFiber f id => (w.interruptFiber f id, .ok ())
  | .unwatchFiber f key =>
      match w.fibers.get? f with
      | none => (w, .ok false)
      | some fiber =>
          match fiber.done.forgetIf? DoneWatcher.isOwn key with
          | some cell => (w.modifyFiber f fun fiber => { fiber with done := cell }, .ok true)
          | none => (w, .ok false)
  | .newFuture =>
      let (w, f) := w.newFuture
      (w, .ok f)
  | .interruptFuture f id =>
      let (w, first) := w.settle f (.interrupted id)
      (w, .ok first)
  | .unwatchFuture f key =>
      match (w.future f).forget? key with
      | some cell => ({ w with futures := w.futures.set f cell }, .ok true)
      | none => (w, .ok false)
  | .newSemaphore permits =>
      let (w, s) := w.newSemaphore permits
      (w, .ok s)
  | .tryAcquire s =>
      match (w.semaphore s).tryTake? with
      | some (sem, ticket) => ({ w with semaphores := w.semaphores.set s sem }, .ok (some ticket))
      | none => (w, .ok none)
  | .relinquish s ticket => (w.relinquish s ticket, .ok ())
  | .newScope owner strategy =>
      let (w, s) := w.newScope owner strategy
      (w, .ok s)
  | .forkScope s owner =>
      let (w, child) := w.forkScope s owner
      (w, .ok child)
  | .cancelFinalizer h =>
      let (w, fin) := w.takeLent h
      (w, .ok fin.isSome)
  | .newRef initial policy =>
      ({ w with refCount := w.refCount + 1 }, .ok ⟨w.refCount + 1, initial, policy⟩)
  | .newRefs =>
      let (w, m) := w.newRefs .empty
      (w, .ok m)
  | .forkRefs m => w.forkRefs m
  | .joinRefs m child => w.joinRefs m child
  | .writeRef m r value => ({ w with refs := w.refs.modify m (·.write r value) }, .ok ())
  | .alarm delay f =>
      let (timers, id) := w.timers.set delay (.ring f)
      ({ w with timers }, .ok id)
  | .cancelTimer id =>
      match w.timers.cancelIf? Task.isOwn id with
      | some timers => ({ w with timers }, .ok true)
      | none => (w, .ok false)

/-- Runs an act. -/
def run {e : Ending} : Act σ e → World σ → World σ × Except Defect (e.Result σ)
  | .program p, w => (w, .ok p)
  | .exit e, w => (w, .ok e)
  | .done, w => (w, .ok ())
  | .ready p, w => (w, .ok (.ready p))
  | .pending canceler, w => (w, .ok (.pending canceler))
  | .panic message, w => (w, .error ⟨message⟩)
  | .look k, w => run (k w.board) w
  | .tell board k, w => run k { w with board }
  | .ask q k, w => run (k (w.answer q)) w
  | .call c k, w =>
      match w.command c with
      | (w, .ok reply) => run (k reply) w
      | (w, .error d) => (w, .error d)
  | .resolve f p k, w =>
      let (w, first) := w.resolve f p
      run (k first) w
  | .register s f k, w =>
      let (w, handle) := w.register s (.lent f)
      run (k handle) w
  | .after delay task k, w =>
      let (timers, id) := w.timers.set delay (.run task)
      run (k id) { w with timers }
  | .watchFiber f r k, w =>
      let (w, key) := w.watchFiber f (.react r)
      run (k key) w
  | .watchFuture f r k, w =>
      let (w, key) := w.watchFuture f (.react r)
      run (k key) w
  | .elsewhere delay f p k, w =>
      run k { w with errands := w.errands ++ [⟨w.now.add delay, f, p⟩] }

/-! ## Finalizers -/

/-- The program of a finalizer for an exit. -/
def finalizeWith (w : World σ) (fin : Finalizer σ) (exit : AnyExit) :
    World σ × Except Defect (Program σ) :=
  match fin with
  | .apply f => w.run (f exit)
  | .lent f => w.run (f exit)
  | .canceler p => (w, .ok p)
  | .closeChild child parent =>
      (w, .ok ((Program.closeOrWaitScope child (.interrupt parent)).andThen .unit))
  | .relinquish s ticket => (w.relinquish s ticket, .ok .unit)
  | .relinquishOnFailure s ticket =>
      (if exit.isFailure then w.relinquish s ticket else w, .ok .unit)

/-- An exit followed by the failure of a finalizer, if it failed. -/
def combine (soFar outcome : AnyExit) : AnyExit := soFar.thenCause outcome.cause?

/-- The program that runs finalizers for an exit, the last registered first, and gives the exit
followed by their failures. Run side by side, they do not queue at the semaphore of the fiber
that closes the scope: the fibers being closed may hold its permits. -/
def finalizers (exit : AnyExit) (fins : List (Handle × Finalizer σ)) (strategy : Strategy) :
    Program σ :=
  if fins.isEmpty then .succeed (.exit exit)
  else
    let runs := fins.reverse.map fun fin => (Program.duty (.finalize fin.1 fin.2 exit)).captured
    let sideBySide (level : Nat) : Program σ :=
      .flatMap (.withConcurrency (.zipAll runs) level) (.sequel (.combineAll exit))
    Program.uninterruptible <|
      match strategy with
      | .sequential =>
          runs.foldl (fun acc run => .flatMap acc (.sequel (.runNext run))) (.succeed (.exit exit))
      | .concurrent => sideBySide unbounded
      | .bounded n => sideBySide (max 1 n)

/-! ## Duties -/

/-- The program that a duty comes to when it is reached. -/
def attend (w : World σ) : Duty σ → World σ × Except Defect (Program σ)
  | .guarded s p =>
      let (sem, ticket) := (w.semaphore s).ticket
      ({ w with semaphores := w.semaphores.set s sem },
        .ok (.ensuring ((Program.duty (.take s ticket)).andThen p) (.relinquish s ticket)))
  | .acquire s =>
      let (sem, ticket) := (w.semaphore s).ticket
      ({ w with semaphores := w.semaphores.set s sem },
        .ok ((Program.ensuring (.duty (.take s ticket)) (.relinquishOnFailure s ticket)).andThen
          (.succeed (.permit s ticket))))
  | .take s ticket =>
      match (w.semaphore s).take? ticket with
      | some sem => ({ w with semaphores := w.semaphores.set s sem }, .ok .unit)
      | none =>
          let (w, grant) := w.newFuture
          ({ w with semaphores := w.semaphores.modify s (·.enqueue ticket grant) },
            .ok (.wait (.future grant)))
  | .close s exit =>
      let (w, first) := w.requestClose s exit
      (w, .ok ((Program.finishScope s).andThen (.succeed (.flag first))))
  | .finish s =>
      match (w.scope s).claim? with
      | none => (w, .ok .unit)
      | some (sc, exit, fins) =>
          ({ w with scopes := w.scopes.set s sc },
            .ok (.flatMap (finalizers exit (fins.map fun fin => (⟨s, fin.1⟩, fin.2)) sc.strategy)
              (.sequel (.publish s))))
  | .release h exit =>
      match w.takeLent h with
      | (w, none) => (w, .ok (.succeed (.flag false)))
      | (w, some fin) =>
          match w.finalizeWith fin exit with
          | (w, .ok p) => (w, .ok (p.andThen (.succeed (.flag true))))
          | (w, .error d) => (w, .error d)
  | .finalize _ fin exit => w.finalizeWith fin exit

/-! ## Sequels -/

/-- The program that waits for fibers in order and gives their exits. -/
def awaitExits (fs : List (Key .fiber)) : Program σ :=
  fs.foldl (fun acc f => .flatMap acc (.sequel (.awaitNext f))) (.succeed (.exits []))

/-- Interrupts several fibers in the name of one. -/
def interruptAll (w : World σ) (fs : List (Key .fiber)) (id : FiberId) : World σ :=
  fs.foldl (fun w f => w.interruptFiber f id) w

/-- The map of references of a fiber. -/
def refsOf (w : World σ) (f : Key .fiber) : Key .refs :=
  ((w.fibers.get? f).map (·.context.refs)).getD default

/-- Merges the references of the members of a zip and collects their values, in order. -/
def collect (w : World σ) (refs : Key .refs) : List (Key .fiber) → List Value →
    World σ × Except Defect (Except String (List Value))
  | [], values => (w, .ok (.ok values.reverse))
  | f :: rest, values =>
      match (w.fibers.get? f).bind Fiber.exit? with
      | some (.success v) =>
          match w.joinRefs refs (w.refsOf f) with
          | (w, .ok ()) => w.collect refs rest (v :: values)
          | (w, .error d) => (w, .error d)
      | _ => (w, .ok (.error "zip member ended without a value"))

/-- The members of a contest but for one. -/
def Contest.others (c : Contest) (place : Nat) : List (Key .fiber) := c.members.eraseIdx place

/-- Closes the arena of a contest, then ends with `p`. -/
def leaveArena (c : Contest) (p : Program σ) : Program σ :=
  (Program.closeOrWaitScope c.arena (.interrupt c.owner)).andThen p

/-- How a race ends: with the exit of the winner, a failure of which is followed by the failures
of the losers that are more than the interruption by the race itself. -/
def raceOutcome (owner : FiberId) (winner : AnyExit) (losers : List AnyExit) : AnyExit :=
  match winner with
  | .success v => .success v
  | .failure c =>
      .failure (c.andThenAll (losers.filterMap fun e =>
        e.cause?.filter fun c => !c.isInterruptedOnlyBy owner))

/-- The program that a continuation of the library's own makes from a value. -/
def follow (w : World σ) (s : Sequel σ) (v : Value) : World σ × Except Defect (Program σ) :=
  match s with
  | .captured => (w, .ok (.succeed (.exit (.success v))))
  | .publish s => (w.publish s v.asExit, .ok .unit)
  | .runNext p => (w, .ok (.flatMap p (.sequel (.combine v.asExit))))
  | .combine soFar => (w, .ok (.succeed (.exit (combine soFar v.asExit))))
  | .combineAll exit =>
      (w, .ok (.succeed (.exit (v.asList.foldl (fun acc o => combine acc o.asExit) exit))))
  | .joined ours theirs =>
      match w.joinRefs ours theirs with
      | (w, .ok ()) => (w, .ok (.ofExit v.asExit))
      | (w, .error d) => (w, .error d)
  | .raceDecided c =>
      match v with
      | .decided (some (winner, exit)) =>
          let losers := Contest.others c winner
          (w.interruptAll losers c.owner,
            .ok (.flatMap (awaitExits losers) (.sequel (.raceDrained c winner exit))))
      | _ => (w, .ok (.die "race ended without a winner"))
  | .raceDrained c winner exit =>
      let outcome := raceOutcome c.owner exit v.asExits
      match c.members[winner]? with
      | none => (w, .ok (leaveArena c (.ofExit outcome)))
      | some f =>
          match w.joinRefs c.refs (w.refsOf f) with
          | (w, .ok ()) => (w, .ok (leaveArena c (.ofExit outcome)))
          | (w, .error d) => (w, .error d)
  | .zipDecided c =>
      match v with
      | .decided none =>
          match w.collect c.refs c.members [] with
          | (w, .ok (.ok values)) => (w, .ok (leaveArena c (.succeed (.list values))))
          | (w, .ok (.error message)) => (w, .ok (.die message))
          | (w, .error d) => (w, .error d)
      | .decided (some (place, .failure first)) =>
          let others := Contest.others c place
          (w.interruptAll others c.owner,
            .ok (.flatMap (awaitExits others) (.sequel (.zipDrained c first))))
      | _ => (w, .ok (.die "zip failure without a cause"))
  | .zipDrained c first =>
      (w, .ok (leaveArena c (.failCause (first.andThenAll (v.asExits.filterMap Exit.cause?)))))
  | .awaitNext f => (w, .ok (.flatMap (.wait (.done f)) (.sequel (.awaited v.asExits))))
  | .awaited exits => (w, .ok (.succeed (.exits (exits ++ [v.asExit]))))

/-! ## Going on -/

/-- The program that follows a value. -/
def proceedWith (w : World σ) (k : Cont σ) (v : Value) : World σ × Except Defect (Program σ) :=
  match k with
  | .apply f => w.run (f v)
  | .next p => (w, .ok p)
  | .sequel s => w.follow s v

/-- The program that follows a failure. -/
def recoverWith (w : World σ) (h : Handler σ) (c : AnyCause) :
    World σ × Except Defect (Program σ) :=
  match h with
  | .apply f => w.run (f c)
  | .capture => (w, .ok (.succeed (.exit (.failure c))))

end World

end Fibers
