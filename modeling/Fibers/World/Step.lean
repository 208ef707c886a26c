import Fibers.World.Act

set_option autoImplicit false

/-! # One step of a fiber

A step takes the control of a machine and gives the next one, or tells that the fiber yields,
waits or is done. A value unwinds the stack to the first frame that goes on with it, a failure to
the first frame that recovers it; on the way, finalizers are run and the stacks of the fiber are
restored. With nothing left on the stack the program has ended: the fiber then closes its scope
and ends with what the scope publishes.

A user's function that panics fails the fiber with a defect that carries the trace of the
point.
-/

namespace Fibers

/-- What becomes of a fiber after a step. -/
inductive Decision where
  | proceed
  | yield
  | await (a : Awaited) (release : Option Handle)
  | done (exit : AnyExit)

/-- A step's outcome: the machine, and what becomes of its fiber. -/
structure Stepped (σ : Type) where
  machine : Machine σ
  decision : Decision := .proceed

namespace World

variable {σ : Type}

/-! ## Starting fibers -/

/-- Adds a fiber that will run a program once it is started. -/
def newFiber (w : World σ) (context : Context) (scope : Key .scope) (program : Program σ)
    (services : Services) (inherited : List Frame) : World σ × Key .fiber :=
  let (w, semaphore) := w.newSemaphore context.concurrency
  let (store, f) := w.fibers.add
    { context, scope
      phase := .notStarted { control := .start program }
      semaphores := ⟨semaphore, []⟩
      masks := ⟨context.interruptible, []⟩
      services := ⟨services, []⟩
      inherited }
  ({ w with fibers := store }.hook scope f, f)

/-- Queues the first turn of a fiber that has not started. -/
def startFiber (w : World σ) (f : Key .fiber) : World σ :=
  match w.fibers.get? f with
  | none => w
  | some fiber =>
      match fiber.phase with
      | .notStarted m =>
          let (fiber, token) := fiber.park m
          { w with fibers := w.fibers.set f fiber }.queue (.resume f token .proceed)
      | _ => w

/-- The map of references of a child: the one it is given, or a fork of its parent's. -/
def childRefs (w : World σ) (parent : Key .refs) (given : Option (Key .refs)) :
    World σ × Except Defect (Key .refs) :=
  match given with
  | some m => (w, .ok m)
  | none => w.forkRefs parent

/-- Starts a child of a fiber. The child has a scope within that of its parent, a fork of its
references, its services and its trace, and it runs with a permit of the semaphore that bounds
the forks of its parent. -/
def forkChild (w : World σ) (f : Key .fiber) (program : Program σ) (params : ForkParams) :
    World σ × Except Defect (Key .fiber) :=
  match w.fibers.get? f with
  | none => (w, .error ⟨"no such fiber"⟩)
  | some parent =>
      let (w, id) := w.nextId
      let (w, scope) := w.forkScope (params.scope.getD parent.scope) id
      match w.childRefs parent.context.refs params.refs with
      | (w, .error d) => (w, .error d)
      | (w, .ok refs) =>
          let frames := newest parent.context.limits.maxTrace parent.frames
          let (w, child) := w.newFiber (parent.context.child id refs params.concurrency) scope
            (.duty (.guarded parent.semaphores.top program)) parent.services.top
            (frames ++ [.fork parent.context.id])
          (w.startFiber child, .ok child)

/-- Starts children one after the other in one scope, up to the first panic. -/
def forkAll (w : World σ) (f : Key .fiber) (arena : Key .scope) :
    List (Program σ) → List (Key .fiber) → World σ × Except Defect (List (Key .fiber))
  | [], children => (w, .ok children.reverse)
  | p :: rest, children =>
      match w.forkChild f p { scope := some arena } with
      | (w, .ok child) => w.forkAll f arena rest (child :: children)
      | (w, .error d) => (w, .error d)

/-- Adds watchers to the members of a contest, each told its place. -/
def watchAll (w : World σ) (watcher : Nat → DoneWatcher σ) (members : List (Key .fiber)) :
    World σ :=
  members.zipIdx.foldl (fun w m => (w.watchFiber m.1 (watcher m.2)).1) w

/-- Starts the members of a contest in a fresh arena and gives the program that waits for the
decision and goes on with it. -/
def contest (w : World σ) (f : Key .fiber) (ps : List (Program σ))
    (watcher : Key .tally → Nat → DoneWatcher σ) (decided : Contest → Sequel σ) :
    World σ × Except Defect (Program σ) :=
  match w.fibers.get? f with
  | none => (w, .error ⟨"no such fiber"⟩)
  | some fiber =>
      let (w, arena) := w.forkScope fiber.scope fiber.context.id
      match w.forkAll f arena ps [] with
      | (w, .error d) => (w, .error d)
      | (w, .ok members) =>
          let (store, t) := w.tallies.add { remaining := members.length }
          let w := { w with tallies := store }.watchAll (watcher t) members
          (w, .ok (.flatMap (.wait (.decided t))
            (.sequel (decided ⟨fiber.context.id, members, fiber.context.refs, arena⟩))))

/-! ## Interruptions that were put off -/

/-- Closes the scope of a fiber on behalf of the interruptions that were put off, if the fiber can
be interrupted again. -/
def applyDeferred (w : World σ) (f : Key .fiber) : World σ :=
  match w.fibers.get? f with
  | none => w
  | some fiber =>
      if fiber.interruptible then
        match Cause.interrupts? fiber.deferred with
        | none => w
        | some cause =>
            let w := w.modifyFiber f fun fiber => { fiber with deferred := [] }
            (w.requestClose fiber.scope (.failure cause)).1
      else w

/-- Whether a fiber has to leave its program. -/
def mustLeave (w : World σ) (f : Key .fiber) : Bool :=
  ((w.fibers.get? f).map Fiber.mustLeave).getD false

/-- Pops one stack of a fiber. Tells whether that lets a close of the scope take effect, in which
case unwinding has to stop: the finalizers further down are the scope's business now. -/
def restore (w : World σ) (f : Key .fiber) (r : Restore) : World σ × Bool :=
  let w := w.modifyFiber f (·.restore r)
  match r with
  | .interruptible =>
      let w := w.applyDeferred f
      (w, w.mustLeave f)
  | _ => (w, false)

/-! ## The step -/

/-- Goes on with what a function gave back; a panic fails the fiber. -/
def enter (f : Key .fiber) (m : Machine σ) (called : World σ × Except Defect (Program σ)) :
    World σ × Stepped σ :=
  match called with
  | (w, .ok p) => (w, { machine := { m with control := .instruct p } })
  | (w, .error d) =>
      (w, { machine := { m with control := .failure ((Cause.die d).withTrace (w.traceOf f)) } })

/-- Ends the program of a fiber with an exit; a fiber that is exiting is done. -/
def endWith (m : Machine σ) (exit : AnyExit) : Stepped σ :=
  if m.exiting then { machine := m, decision := .done exit }
  else { machine := { m with control := .leave (some exit) } }

/-- Runs a finalizer on the way out, with interruption put off, and goes on with the exit
afterwards. -/
def enterFinalizer (w : World σ) (f : Key .fiber) (m : Machine σ) (fin : Finalizer σ)
    (exit : AnyExit) : World σ × Stepped σ :=
  let m := { m with stack := .restore .interruptible :: .resumeWith exit :: m.stack }
  let w := w.modifyFiber f fun fiber => { fiber with masks := fiber.masks.push false }
  enter f m (w.finalizeWith fin exit)

/-- Takes the finalizer of a frame out of the scope; tells whether the frame has to run it. A
finalizer that was never registered is run by its frame. -/
def claimFinalizer (w : World σ) : Option Handle → World σ × Bool
  | none => (w, true)
  | some h => w.cancelFinalizer h

/-- Unwinds the stack with a value. -/
def unwindValue (f : Key .fiber) (exiting : Bool) (v : Value) :
    List (Waiting σ) → World σ → World σ × Stepped σ
  | [], w =>
      (w, endWith { control := .value v, exiting } (if exiting then v.asExit else .success v))
  | .map k :: rest, w => enter f { control := .value v, stack := rest, exiting } (w.proceedWith k v)
  | .fold _ k :: rest, w =>
      enter f { control := .value v, stack := rest, exiting } (w.proceedWith k v)
  | .restore r :: rest, w =>
      match w.restore f r with
      | (w, true) => (w, { machine := { control := .value v, stack := rest, exiting } })
      | (w, false) => unwindValue f exiting v rest w
  | .release h :: rest, w => unwindValue f exiting v rest (w.cancelFinalizer h).1
  | .finalizer h fin :: rest, w =>
      match w.claimFinalizer h with
      | (w, true) =>
          w.enterFinalizer f { control := .value v, stack := rest, exiting } fin (.success v)
      | (w, false) => unwindValue f exiting v rest w
  | .resumeWith saved :: rest, w =>
      (w, { machine := { control := .ofExit saved, stack := rest, exiting } })

/-- Unwinds the stack with a failure. -/
def unwindFailure (f : Key .fiber) (exiting : Bool) (c : AnyCause) :
    List (Waiting σ) → World σ → World σ × Stepped σ
  | [], w => (w, endWith { control := .failure c, exiting } (.failure c))
  | .map _ :: rest, w => unwindFailure f exiting c rest w
  | .fold h _ :: rest, w =>
      enter f { control := .failure c, stack := rest, exiting } (w.recoverWith h c)
  | .restore r :: rest, w =>
      match w.restore f r with
      | (w, true) => (w, { machine := { control := .failure c, stack := rest, exiting } })
      | (w, false) => unwindFailure f exiting c rest w
  | .release h :: rest, w => unwindFailure f exiting c rest (w.cancelFinalizer h).1
  | .finalizer h fin :: rest, w =>
      match w.claimFinalizer h with
      | (w, true) =>
          w.enterFinalizer f { control := .failure c, stack := rest, exiting } fin (.failure c)
      | (w, false) => unwindFailure f exiting c rest w
  | .resumeWith saved :: rest, w =>
      (w, { machine :=
        { control := .ofExit (saved.thenCause (some c)), stack := rest, exiting } })

/-- Works on the instruction at the root of a program. -/
def instruct (w : World σ) (f : Key .fiber) (fiber : Fiber σ) (m : Machine σ) (p : Program σ) :
    World σ × Stepped σ :=
  let go (w : World σ) (control : Control σ) : World σ × Stepped σ :=
    (w, { machine := { m with control } })
  let region (w : World σ) (r : Restore) (p : Program σ) : World σ × Stepped σ :=
    (w, { machine := { m with control := .instruct p, stack := .restore r :: m.stack } })
  match p with
  | .succeed v => go w (.value v)
  | .failCause c => go w (.failure c)
  | .lazy thunk =>
      match w.run thunk with
      | (w, .ok exit) => go w (.ofExit exit)
      | (w, .error d) => enter f m (w, .error d)
  | .defer make => enter f m (w.run make)
  | .flatMap p k =>
      (w, { machine := { m with control := .instruct p, stack := .map k :: m.stack } })
  | .fold p h k =>
      (w, { machine := { m with control := .instruct p, stack := .fold h k :: m.stack } })
  | .access g => enter f m (w.run (g fiber.services.top))
  | .provide p s =>
      region (w.modifyFiber f fun fiber =>
        { fiber with services := fiber.services.push (fiber.services.top.union s) }) .services p
  | .async reg =>
      let (w, callback) := w.newFuture
      match w.run (reg callback) with
      | (w, .ok (.ready p)) => go w (.instruct p)
      | (w, .ok (.pending none)) =>
          (w, { machine := m, decision := .await (.future callback) none })
      | (w, .ok (.pending (some canceler))) =>
          let (w, handle) := w.register fiber.scope (.canceler canceler)
          (w, { machine := m, decision := .await (.future callback) handle })
      | (w, .error d) => enter f m (w, .error d)
  | .ensuring p fin =>
      let (w, handle) := w.register fiber.scope fin
      (w, { machine :=
        { m with control := .instruct p, stack := .finalizer handle fin :: m.stack } })
  | .fork p params =>
      match w.forkChild f p params with
      | (w, .ok child) => go w (.value (.fiber child))
      | (w, .error d) => enter f m (w, .error d)
  | .fiberContext => go w (.value (.context fiber.context))
  | .fiberScope => go w (.value (.scope fiber.scope))
  | .fiberTrace => go w (.value (.trace fiber.trace))
  | .join child =>
      go w (.instruct (.flatMap (.wait (.done child))
        (.sequel (.joined fiber.context.refs (w.refsOf child)))))
  | .raceAll [] => go w (.instruct (.die "race of zero programs"))
  | .raceAll ps => enter f m (w.contest f ps .racer .raceDecided)
  | .zipAll [] => go w (.instruct (.succeed (.list [])))
  | .zipAll ps => enter f m (w.contest f ps .member .zipDecided)
  | .mask p interruptible =>
      let w := w.modifyFiber f fun fiber => { fiber with masks := fiber.masks.push interruptible }
      region (if interruptible then w.applyDeferred f else w) .interruptible p
  | .withConcurrency p level =>
      let (w, s) := w.newSemaphore level
      region (w.modifyFiber f fun fiber => { fiber with semaphores := fiber.semaphores.push s })
        .semaphore p
  | .addFrame p frame =>
      region (w.modifyFiber f fun fiber => { fiber with labels := frame :: fiber.labels }) .label p
  | .wait a => (w, { machine := m, decision := .await a none })
  | .yieldNow => (w, { machine := { m with control := .value .unit }, decision := .yield })
  | .duty d => enter f m (w.attend d)

/-- Leaves the program of a fiber: drops what it has on its stacks and goes on with the close of
its scope, masked. -/
def leave (w : World σ) (f : Key .fiber) (fiber : Fiber σ) (exit : Option AnyExit) :
    World σ × Stepped σ :=
  let w := w.modifyFiber f fun fiber =>
    let fiber := fiber.unwind
    { fiber with masks := fiber.masks.push false }
  let close := match exit with
    | some exit => Program.closeOrWaitScope fiber.scope exit
    | none => Program.awaitScope fiber.scope
  (w, { machine := { control := .instruct close, exiting := true } })

/-- One step. A fiber that has done its number of steps yields first. -/
def step (w : World σ) (f : Key .fiber) (fiber : Fiber σ) (m : Machine σ) : World σ × Stepped σ :=
  match m.control with
  | .start p => (w, { machine := { m with control := .instruct p } })
  | .leave exit => w.leave f fiber exit
  | control =>
      if fiber.context.limits.maxOps ≤ fiber.ops then
        (w.modifyFiber f fun fiber => { fiber with ops := 0 }, { machine := m, decision := .yield })
      else
        let w := w.modifyFiber f fun fiber => { fiber with ops := fiber.ops + 1 }
        match control with
        | .value v => unwindValue f m.exiting v m.stack w
        | .failure c => unwindFailure f m.exiting c m.stack w
        | .instruct p => w.instruct f fiber m p
        | _ => (w, { machine := m })

end World

end Fibers
