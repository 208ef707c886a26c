import Fibers.Timers.Drive
import Fibers.World.Step

set_option autoImplicit false

/-! # Running fibers

A turn of a fiber is the run of steps from its resumption to the next point where it yields,
waits or is done. Turns are started by tasks of the queue only. Every suspension has a token of
its own, and a resumption that shows an old token does nothing, so of several resumptions of one
suspension the first counts.
-/

namespace Fibers.World

variable {σ : Type}

/-! ## Waiting -/

/-- The program that a wait goes on with, if what it waits for has happened. -/
def settledProgram? (w : World σ) : Awaited → Option (Program σ)
  | .future f => (w.future f).outcome?.map settledProgram
  | .done f => ((w.fibers.get? f).bind Fiber.exit?).map fun e => .succeed (.exit e)
  | .closed s =>
      match (w.scope s).closed.outcome? with
      | some (.resolved e) => some (.succeed (.exit e))
      | some (.interrupted id) => some (.failCause (.interrupt id))
      | none => none
  | .decided t =>
      match (w.tally t).decided.outcome? with
      | some (.resolved r) => some (.succeed (.decided r))
      | some (.interrupted id) => some (.failCause (.interrupt id))
      | none => none

/-- Makes a fiber wait for something that has not happened yet. -/
def subscribe (w : World σ) (k : Wake) : Awaited → World σ
  | .future f => (w.watchFuture f (.wake k)).1
  | .done f => (w.watchFiber f (.wake k)).1
  | .closed s =>
      let sc := w.scope s
      match sc.closed.attach? k with
      | some (cell, _) => { w with scopes := w.scopes.set s { sc with closed := cell } }
      | none => w
  | .decided t =>
      let tally := w.tally t
      match tally.decided.attach? k with
      | some (cell, _) => { w with tallies := w.tallies.set t { tally with decided := cell } }
      | none => w

/-- Puts a machine aside and gives the token that resumes it. If the scope of the fiber began to
close while the fiber was running, the resumption that ends it is queued now. -/
def park (w : World σ) (f : Key .fiber) (fiber : Fiber σ) (m : Machine σ) : World σ × Nat :=
  let (parked, token) := fiber.park m
  let w := { w with fibers := w.fibers.set f parked }
  if !m.exiting && fiber.terminating then (w.queue (.resume f token .terminate), token)
  else (w, token)

/-! ## Turns -/

/-- Runs a fiber from a machine to the end of its turn. -/
def turn : Nat → Key .fiber → Machine σ → World σ → World σ × Verdict Unit
  | 0, _, _, w => (w, .unfinished)
  | fuel + 1, f, m, w =>
      match w.fibers.get? f with
      | none => (w, .finished ())
      | some fiber =>
          let m := if !m.exiting && fiber.mustLeave then
            { m with control := .leave none, stack := [] } else m
          match w.step f fiber m with
          | (w, ⟨m, .proceed⟩) => turn fuel f m w
          | (w, ⟨m, .yield⟩) =>
              match w.fibers.get? f with
              | none => (w, .finished ())
              | some fiber =>
                  let (w, token) := w.park f fiber m
                  (w.queue (.resume f token .proceed), .finished ())
          | (w, ⟨m, .await a release⟩) =>
              match w.fibers.get? f with
              | none => (w, .finished ())
              | some fiber =>
                  let m := match release with
                    | some h => { m with stack := .release h :: m.stack }
                    | none => m
                  let (w, token) := w.park f { fiber with ops := 0 } m
                  match w.settledProgram? a with
                  | none => (w.subscribe ⟨f, token⟩ a, .finished ())
                  | some p =>
                      turn fuel f { m with control := .instruct p }
                        (w.modifyFiber f fun fiber => { fiber with phase := .running })
          | (w, ⟨_, .done exit⟩) => (w.finishFiber f exit, .finished ())

/-- Resumes a fiber that waits under a token. A resumption under another token does nothing, and
neither does one that would end a fiber that is masked or on its way out. -/
def resume (fuel : Nat) (w : World σ) (f : Key .fiber) (token : Nat) (r : Resume σ) :
    World σ × Verdict Unit :=
  match w.fibers.get? f with
  | none => (w, .finished ())
  | some fiber =>
      match fiber.phase with
      | .suspended current m =>
          if current ≠ token then (w, .finished ())
          else
            let running := w.modifyFiber f fun fiber => { fiber with phase := .running }
            match r with
            | .proceed => turn fuel f m running
            | .program p => turn fuel f { m with control := .instruct p } running
            | .terminate =>
                if m.exiting || !fiber.interruptible then (w, .finished ())
                else turn fuel f m running
      | _ => (w, .finished ())

/-- Runs a task of the queue. -/
def perform (fuel : Nat) (task : Task σ) (w : World σ) : World σ × Verdict Unit :=
  match task with
  | .resume f token r => w.resume fuel f token r
  | .ring f => ((w.resolve f .unit).1, .finished ())
  | .run act =>
      match w.run act with
      | (w, .ok ()) => (w, .finished ())
      | (w, .error d) => (w, .panicked d)

/-! ## Letting time pass -/

/-- The errand that is due first, and the others. -/
def firstErrand : List (Errand σ) → Option (Errand σ × List (Errand σ))
  | [] => none
  | e :: rest =>
      match firstErrand rest with
      | none => some (e, [])
      | some (g, others) =>
          if g.due.nanos < e.due.nanos then some (g, e :: others) else some (e, rest)

/-- Runs the errand `e` at the instant it is due. -/
def runErrand (w : World σ) (e : Errand σ) (others : List (Errand σ)) : World σ :=
  ({ w with timers := w.timers.advanceTo e.due, errands := others }.resolve e.future e.program).1

/-- Lets time pass. A virtual clock jumps. On a wall clock an errand that is due by then ends the
wait early; a wait without end and without an errand never ends. -/
def await (deadline : Option Time) (w : World σ) : Option (World σ) :=
  if w.timers.clock.isVirtual then
    match deadline with
    | some t => some { w with timers := w.timers.advanceTo t }
    | none => some w
  else
    match firstErrand w.errands, deadline with
    | none, none => none
    | none, some t => some { w with timers := w.timers.advanceTo t }
    | some (e, others), none => some (w.runErrand e others)
    | some (e, others), some t =>
        if e.due.nanos ≤ t.nanos then some (w.runErrand e others)
        else some { w with timers := w.timers.advanceTo t }

/-- A world as a system to drive. -/
def host (fuel : Nat) : Host (World σ) (Task σ) :=
  { timers := World.timers
    withTimers := fun w timers => { w with timers }
    perform := perform fuel
    await := await }

/-! ## Root fibers -/

/-- Starts a program in a root fiber. -/
def runFiber (w : World σ) (p : Program σ) : World σ × Key .fiber :=
  let (w, id) := w.nextId
  let (w, refs) := w.newRefs .empty
  let (w, scope) := w.newScope id w.limits.finalization
  let (w, f) := w.newFiber (.root id w.limits refs w.concurrency) scope p w.services []
  let (w, _) := { w with roots := w.roots ++ [f] }.watchFiber f .root
  (w.startFiber f, f)

/-- The published exit of a fiber. -/
def exitOf (w : World σ) (f : Key .fiber) : Option AnyExit := (w.fibers.get? f).bind Fiber.exit?

/-- Runs a program in a root fiber until it is done. If the tasks run out first, on virtual time,
the program has stalled, and that is a defect. -/
def runExit (fuel : Nat) (w : World σ) (p : Program σ) : World σ × Verdict AnyExit :=
  let (w, f) := w.runFiber p
  match (host fuel).driveUntil fuel (fun w => (w.exitOf f).isSome) w with
  | (w, .finished true) =>
      (w, .finished ((w.exitOf f).getD (.die "fiber finished without an exit")))
  | (w, .finished false) =>
      (w, .finished (.die "fiber is suspended and no task can resume it"))
  | (w, .panicked d) => (w, .panicked d)
  | (w, .unfinished) => (w, .unfinished)

/-- Interrupts every root fiber and runs tasks until all have ended; gives their number. -/
def shutdown (fuel : Nat) (w : World σ) : World σ × Verdict Nat :=
  let live := w.roots
  match (host fuel).driveUntil fuel (fun w => w.roots.isEmpty) (w.interruptAll live .nobody) with
  | (w, .finished _) => (w, .finished live.length)
  | (w, .panicked d) => (w, .panicked d)
  | (w, .unfinished) => (w, .unfinished)

end Fibers.World
