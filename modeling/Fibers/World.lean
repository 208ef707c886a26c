import Fibers.Fiber

set_option autoImplicit false

/-! # Worlds

A `World` is the whole of a running system: its limits, its clock with the queue of tasks, the
stores of fibers, scopes, futures and the rest, and the board of the user. This module has what
happens between the parts. Settling a future or a scope queues a task for every fiber that waits
for it; asking a scope to close tells the fibers that hang on it. Nothing here runs a program:
a fiber makes progress only from a task of the queue.
-/

namespace Fibers

/-- What decides a race or a zip: the first exit that settles it, if any does, and how many
members a zip still waits for. -/
structure Tally where
  decided : Cell (Option (Nat × AnyExit)) Wake := .fresh
  remaining : Nat

instance : Inhabited Tally := ⟨{ remaining := 0 }⟩

/-- Who watches a future: a fiber that waits for it, or an observer of the program's. -/
inductive FutureWatcher (σ : Type) where
  | wake (w : Wake)
  | react (r : Outcome → Reaction σ)

/-- A task of the queue: resuming a fiber, resolving the future of a sleep, or an act of the
program's. -/
inductive Task (σ : Type) where
  | resume (f : Key .fiber) (token : Nat) (r : Resume σ)
  | ring (f : Key .future)
  | run (act : Act σ .unit)

/-- Whether a task is one that a program set. -/
def Task.isOwn {σ : Type} : Task σ → Bool
  | .resume _ _ _ => false
  | .ring _ => true
  | .run _ => true

/-- A future that something outside the queue resolves at an instant. -/
structure Errand (σ : Type) where
  due : Time
  future : Key .future
  program : Program σ

/-- A running system with a board of type `σ`. -/
structure World (σ : Type) where
  limits : Limits
  concurrency : Nat
  services : Services
  sequence : Nat := 0
  refCount : Nat := 0
  timers : Timers (Task σ)
  errands : List (Errand σ) := []
  fibers : Store .fiber (Fiber σ) := .empty
  scopes : Store .scope (Scope (Finalizer σ)) := .empty
  futures : Store .future (Cell (Program σ) (FutureWatcher σ)) := .empty
  semaphores : Store .semaphore (Semaphore (Key .future)) := .empty
  refs : Store .refs FiberRefs := .empty
  tallies : Store .tally Tally := .empty
  roots : List (Key .fiber) := []
  board : σ

namespace World

variable {σ : Type}

/-! ## Making and reading -/

/-- A world in which nothing has happened. -/
def new (config : Config) (services : Services) (board : σ) : World σ :=
  { limits := .ofConfig config, concurrency := config.concurrency, services
    timers := .on ⟨config.clock, .zero⟩, board }

/-- What the clock shows. -/
def now (w : World σ) : Time := w.timers.now

/-- A scope; one that was never made reads as one that is closed. -/
def scope (w : World σ) (s : Key .scope) : Scope (Finalizer σ) := (w.scopes.get? s).getD default

/-- A future. -/
def future (w : World σ) (f : Key .future) : Cell (Program σ) (FutureWatcher σ) :=
  (w.futures.get? f).getD default

/-- A semaphore. -/
def semaphore (w : World σ) (s : Key .semaphore) : Semaphore (Key .future) :=
  (w.semaphores.get? s).getD default

/-- A map of fiber references. -/
def refMap (w : World σ) (m : Key .refs) : FiberRefs := (w.refs.get? m).getD default

/-- What decides a race or a zip. -/
def tally (w : World σ) (t : Key .tally) : Tally := (w.tallies.get? t).getD default

/-- The fiber `f`, put through a function. -/
def modifyFiber (w : World σ) (f : Key .fiber) (g : Fiber σ → Fiber σ) : World σ :=
  { w with fibers := w.fibers.modify f g }

/-- The id of the next fiber. -/
def nextId (w : World σ) : World σ × FiberId :=
  ({ w with sequence := w.sequence + 1 }, ⟨w.sequence + 1, w.now⟩)

/-- The trace of a fiber. -/
def traceOf (w : World σ) (f : Key .fiber) : Trace :=
  ((w.fibers.get? f).map Fiber.trace).getD .empty

/-- Adds a future that is pending. -/
def newFuture (w : World σ) : World σ × Key .future :=
  let (store, key) := w.futures.add .fresh
  ({ w with futures := store }, key)

/-- Adds a semaphore. -/
def newSemaphore (w : World σ) (permits : Nat) : World σ × Key .semaphore :=
  let (store, key) := w.semaphores.add (.withPermits permits)
  ({ w with semaphores := store }, key)

/-- Adds a map of fiber references. -/
def newRefs (w : World σ) (m : FiberRefs) : World σ × Key .refs :=
  let (store, key) := w.refs.add m
  ({ w with refs := store }, key)

/-- Adds an open scope. -/
def newScope (w : World σ) (owner : FiberId) (strategy : Strategy) : World σ × Key .scope :=
  let (store, key) := w.scopes.add (.new owner strategy)
  ({ w with scopes := store }, key)

/-! ## Tasks -/

/-- Queues a task for the present instant. -/
def queue (w : World σ) (task : Task σ) : World σ := { w with timers := (w.timers.set 0 task).1 }

/-- Queues the resumption of a waiting fiber with a program. -/
def wake (w : World σ) (k : Wake) (p : Program σ) : World σ :=
  w.queue (.resume k.fiber k.token (.program p))

/-- Queues the resumption of several waiting fibers with one program. -/
def wakeAll (w : World σ) (ks : List Wake) (p : Program σ) : World σ :=
  ks.foldl (fun w k => w.wake k p) w

/-! ## Futures -/

/-- The program that a fiber goes on with when the future it waited for has settled. -/
def settledProgram : Settled (Program σ) → Program σ
  | .resolved p => p
  | .interrupted id => .failCause (.interrupt id)

/-- How a future settled, without its program. -/
def outcomeOf : Settled (Program σ) → Outcome
  | .resolved _ => .resolved
  | .interrupted id => .interrupted id

/-- Serves one observer of a future that has settled. -/
def notifyFuture (settled : Settled (Program σ)) (w : World σ) : FutureWatcher σ → World σ
  | .wake k => w.wake k (settledProgram settled)
  | .react r => { w with board := (r (outcomeOf settled)).run w.board }

/-- Settles a future; tells whether this was the first time. -/
def settle (w : World σ) (f : Key .future) (settled : Settled (Program σ)) : World σ × Bool :=
  match (w.future f).settle? settled with
  | some (cell, watchers) =>
      (watchers.foldl (notifyFuture settled) { w with futures := w.futures.set f cell }, true)
  | none => (w, false)

/-- Resolves a future with a program. -/
def resolve (w : World σ) (f : Key .future) (p : Program σ) : World σ × Bool :=
  w.settle f (.resolved p)

/-- Adds an observer to a future, or serves it at once if the future has settled. -/
def watchFuture (w : World σ) (f : Key .future) (o : FutureWatcher σ) : World σ × Option Nat :=
  match (w.future f).attach? o with
  | some (cell, key) => ({ w with futures := w.futures.set f cell }, some key)
  | none =>
      match (w.future f).outcome? with
      | some settled => (notifyFuture settled w o, none)
      | none => (w, none)

/-- What acts can see of a future. -/
def viewFuture (w : World σ) (f : Key .future) : FutureView :=
  let cell := w.future f
  { observers := cell.observers.length, outcome := cell.outcome?.map outcomeOf }

/-! ## Semaphores -/

/-- Gives up what a ticket has; the ticket that gets the permit is told by its grant. -/
def relinquish (w : World σ) (s : Key .semaphore) (ticket : Nat) : World σ :=
  let (sem, grant) := (w.semaphore s).relinquish ticket
  let w := { w with semaphores := w.semaphores.set s sem }
  match grant with
  | none => w
  | some g => (w.resolve g (.succeed .unit)).1

/-! ## Scopes -/

/-- Registers a finalizer; gives its handle if the scope is open. -/
def register (w : World σ) (s : Key .scope) (fin : Finalizer σ) : World σ × Option Handle :=
  match (w.scope s).register? fin with
  | some (sc, key) => ({ w with scopes := w.scopes.set s sc }, some ⟨s, key⟩)
  | none => (w, none)

/-- Takes a finalizer out of its scope, if it is still there. -/
def takeFinalizer (w : World σ) (h : Handle) : World σ × Option (Finalizer σ) :=
  match (w.scope h.scope).take? h.key with
  | some (sc, fin) => ({ w with scopes := w.scopes.set h.scope sc }, some fin)
  | none => (w, none)

/-- Takes a finalizer that a program registered for itself out of its scope. Programs have the
handles of no others. -/
def takeLent (w : World σ) (h : Handle) : World σ × Option (Finalizer σ) :=
  match (w.scope h.scope).find? h.key with
  | some (.lent _) => w.takeFinalizer h
  | _ => (w, none)

/-- Drops a finalizer; tells whether it was still there. -/
def cancelFinalizer (w : World σ) (h : Handle) : World σ × Bool :=
  let (w, fin) := w.takeFinalizer h
  (w, fin.isSome)

/-- Tells a fiber that its scope is closing. A fiber that waits is resumed; a fiber that runs
finds out by itself. -/
def scopeClosing (w : World σ) (f : Key .fiber) : World σ :=
  let w := w.modifyFiber f fun fiber => { fiber with terminating := true }
  match w.fibers.get? f with
  | none => w
  | some fiber =>
      match fiber.phase with
      | .suspended token _ => w.queue (.resume f token .terminate)
      | _ => w

/-- Asks a scope to close; tells whether this was the first request. The first request takes the
scope out of its parent and tells the fibers that hang on it. -/
def requestClose (w : World σ) (s : Key .scope) (exit : AnyExit) : World σ × Bool :=
  match (w.scope s).requestClose? exit with
  | none => (w, false)
  | some (sc, closing) =>
      let w := { w with scopes := w.scopes.set s sc }
      let w := match closing.parent with
        | some h => (w.cancelFinalizer h).1
        | none => w
      (closing.hooks.foldl scopeClosing w, true)

/-- Publishes the final exit of a scope. -/
def publish (w : World σ) (s : Key .scope) (exit : AnyExit) : World σ :=
  let (sc, wakes) := (w.scope s).publish exit
  { w with scopes := w.scopes.set s sc }.wakeAll wakes (.succeed (.exit exit))

/-- A scope within a scope. Closing the parent closes the child in the name of the parent's
owner; the child of a scope that is not open stands alone. -/
def forkScope (w : World σ) (s : Key .scope) (owner : FiberId) : World σ × Key .scope :=
  let parent := w.scope s
  let (w, child) := w.newScope owner parent.strategy
  let (w, handle) := w.register s (.closeChild child parent.owner)
  ({ w with scopes := w.scopes.modify child fun sc => { sc with parent := handle } }, child)

/-- Hangs a fiber on a scope; if the scope is closing the fiber is told at once. -/
def hook (w : World σ) (s : Key .scope) (f : Key .fiber) : World σ :=
  match (w.scope s).hook? f with
  | some sc => { w with scopes := w.scopes.set s sc }
  | none => w.scopeClosing f

/-- What acts can see of a scope. -/
def viewScope (w : World σ) (s : Key .scope) : ScopeView :=
  let sc := w.scope s
  { owner := sc.owner, strategy := sc.strategy, isOpen := sc.isOpen, isClosed := sc.isClosed
    finalizers := sc.size, exit := sc.exit?, state := sc.inspectState }

/-! ## Maps of fiber references -/

/-- Merges what a child wrote; a map merged with itself stays as it is. -/
def joinRefs (w : World σ) (m child : Key .refs) : World σ × Except Defect Unit :=
  if m = child then (w, .ok ())
  else
    let (merged, result) := (w.refMap m).join (w.refMap child)
    ({ w with refs := w.refs.set m merged }, result)

/-- The map of a child. -/
def forkRefs (w : World σ) (m : Key .refs) : World σ × Except Defect (Key .refs) :=
  match (w.refMap m).fork with
  | .ok copy =>
      let (w, key) := w.newRefs copy
      (w, .ok key)
  | .error d => (w, .error d)

/-! ## The end of a fiber -/

/-- Decides a race or a zip, unless it is decided. -/
def decide (w : World σ) (t : Key .tally) (result : Option (Nat × AnyExit)) : World σ :=
  let tally := w.tally t
  match tally.decided.settle? (.resolved result) with
  | some (cell, wakes) =>
      { w with tallies := w.tallies.set t { tally with decided := cell } }.wakeAll wakes
        (.succeed (.decided result))
  | none => w

/-- Counts a member of a zip that ended with a value; the last one decides the zip. -/
def countDown (w : World σ) (t : Key .tally) : World σ :=
  let tally := w.tally t
  let w := { w with tallies := w.tallies.set t { tally with remaining := tally.remaining - 1 } }
  if tally.remaining = 1 then w.decide t none else w

/-- Serves one watcher of a fiber that is done. -/
def notifyDone (f : Key .fiber) (exit : AnyExit) (w : World σ) : DoneWatcher σ → World σ
  | .wake k => w.wake k (.succeed (.exit exit))
  | .racer t place => w.decide t (some (place, exit))
  | .member t place => if exit.isFailure then w.decide t (some (place, exit)) else w.countDown t
  | .root => { w with roots := w.roots.filter (· != f) }
  | .react r => { w with board := (r exit).run w.board }

/-- Publishes the exit of a fiber. -/
def finishFiber (w : World σ) (f : Key .fiber) (exit : AnyExit) : World σ :=
  match w.fibers.get? f with
  | none => w
  | some fiber =>
      match fiber.done.settle? (.resolved exit) with
      | none => w.modifyFiber f fun fiber => { fiber with phase := .done exit }
      | some (cell, watchers) =>
          watchers.foldl (notifyDone f exit)
            (w.modifyFiber f fun fiber => { fiber with phase := .done exit, done := cell })

/-- Adds a watcher to a fiber, or serves it at once if the fiber is done. -/
def watchFiber (w : World σ) (f : Key .fiber) (o : DoneWatcher σ) : World σ × Option Nat :=
  match w.fibers.get? f with
  | none => (w, none)
  | some fiber =>
      match fiber.done.attach? o with
      | some (cell, key) => (w.modifyFiber f fun fiber => { fiber with done := cell }, some key)
      | none =>
          match fiber.exit? with
          | some exit => (notifyDone f exit w o, none)
          | none => (w, none)

/-- Interrupts a fiber in the name of another. A fiber that can be interrupted has its scope
closed; otherwise the name is kept until it can. A fiber that is done is left alone. -/
def interruptFiber (w : World σ) (f : Key .fiber) (id : FiberId) : World σ :=
  match w.fibers.get? f with
  | none => w
  | some fiber =>
      if !fiber.done.isPending then w
      else if fiber.interruptible then (w.requestClose fiber.scope (.interrupt id)).1
      else w.modifyFiber f fun fiber => { fiber with deferred := id.insert fiber.deferred }

/-- The system as a whole. -/
def survey (w : World σ) : Survey :=
  { limits := w.limits, allocated := w.sequence, concurrency := w.concurrency
    clock := w.timers.clock, pending := w.timers.pending, roots := w.roots.length }

end World

end Fibers
