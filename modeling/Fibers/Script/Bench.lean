import Fibers.Script.Inquiry

set_option autoImplicit false

/-! # Parts on a bench

Scripts that work with single parts of the library and no programs: environments, counters,
clocks and queues of tasks. A queue's tasks are themselves steps of such a script, and they may
drive queues in their turn, so these steps take fuel.
-/

namespace Fibers.Script

open Fibers.Notation

/-- The answers to steps that are taken one after the other. -/
def answersFrom {S : Type} (step : S → Datum → S × Datum) (s : S) : List Datum → List Datum
  | [] => []
  | d :: rest =>
      let (s, answer) := step s d
      answer :: answersFrom step s rest

/-! ## Environments -/

/-- Takes a step with environments. -/
def servicesStep (t : Table Services) (d : Datum) : Table Services × Datum :=
  let known (i : Nat) : Services := (t.get? (toName (d.item i))).getD .empty
  let keep (i : Nat) (s : Services) : Table Services × Datum :=
    (t.put (toName (d.item i)) s, .list [servicesSummary s, .text s.inspect])
  match (d.item 0).asText with
  | "get" => keep 1 (known 1)
  | "with" =>
      match toServiceKey? (d.item 3).asText with
      | some key => keep 1 (withService (known 2) key (d.item 4))
      | none => keep 1 (known 2)
  | "union" => keep 1 ((known 2).union (known 3))
  | _ => (t, .null)

/-- Answers a script on environments. -/
def answerServices (request : Datum) : Datum :=
  .list (answersFrom servicesStep {} (request.field "steps").items)

/-! ## Counters of fiber numbers -/

/-- Counters that may be shared: the counts, and which of them each name stands for. -/
structure Counters where
  counts : List Nat := [0]
  names : List Nat := [0]

/-- Takes a step with counters. -/
def countersStep (c : Counters) (d : Datum) : Counters × Datum :=
  let place := c.names.getD (d.item 1).asNat 0
  let count := c.counts.getD place 0
  match (d.item 0).asText with
  | "inc" => ({ c with counts := c.counts.set place (count + 1) }, .nat (count + 1))
  | "current" => (c, .nat count)
  | "clone" => ({ c with names := c.names ++ [place] }, .nat (c.names.length + 1))
  | "new" =>
      ({ counts := c.counts ++ [0], names := c.names ++ [c.counts.length] },
        .nat (c.names.length + 1))
  | _ => (c, .null)

/-- Answers a script on counters. -/
def answerCounters (request : Datum) : Datum :=
  .list (answersFrom countersStep {} (request.field "calls").items)

/-! ## Clocks -/

/-- Takes a step with clocks. -/
def clocksStep (clocks : List Clock) (d : Datum) : List Clock × Datum :=
  let i := (d.item 1).asNat
  let (clocks, result) : List Clock × Datum := match clocks[i]? with
    | none => (clocks, .null)
    | some clock =>
        match (d.item 0).asText with
        | "advance_to" => (clocks.set i (clock.advanceTo (.ofNanos (d.item 2).asNat)), .bool true)
        | "fork" => (clocks ++ [clock], .null)
        | "is_virtual" => (clocks, .bool clock.isVirtual)
        | "debug" => (clocks, .text clock.inspect)
        | _ => (clocks, .null)
  (clocks, .list [result, .list (clocks.map fun c => .nat c.now.nanos)])

/-- Answers a script on clocks. -/
def answerClocks (request : Datum) : Datum :=
  let start := (request.field "start").items.map fun d => ⟨.virtual, .ofNanos d.asNat⟩
  .list (answersFrom clocksStep start (request.field "calls").items)

/-! ## Queues -/

/-- A task: the queue it was set on, and its steps. -/
structure BenchTask where
  queue : Nat
  steps : List Datum

/-- Queues by name, timers by name, and the log of the present step, the latest entry first. -/
structure Bench where
  queues : List (Timers BenchTask) := []
  names : Table Nat := {}
  handles : Table (Nat × Nat) := {}
  log : List Datum := []

namespace Bench

/-- The queue at a place. -/
def queue (b : Bench) (q : Nat) : Timers BenchTask := b.queues.getD q default

/-- Puts a queue at a place. -/
def setQueue (b : Bench) (q : Nat) (timers : Timers BenchTask) : Bench :=
  { b with queues := b.queues.set q timers }

/-- Adds a queue under a name. -/
def addQueue (b : Bench) (name : Name) (timers : Timers BenchTask) : Bench :=
  { b with queues := b.queues ++ [timers], names := b.names.put name b.queues.length }

/-- Adds an entry to the log. -/
def note (b : Bench) (d : Datum) : Bench := { b with log := d :: b.log }

/-- The bench as a system to drive by one of its queues. -/
def host (perform : BenchTask → Bench → Bench × Verdict Unit) (q : Nat) : Host Bench BenchTask :=
  { timers := fun b => b.queue q
    withTimers := fun b timers => b.setQueue q timers
    perform
    await := fun deadline b =>
      match deadline with
      | some t => some (b.setQueue q ((b.queue q).advanceTo t))
      | none => if (b.queue q).clock.isVirtual then some b else none }

/-- Takes the steps of a task: notes each result, and stops at a panic. -/
def runSteps (step : Bench → Datum → Bench × Verdict Datum) :
    List Datum → Bench → Bench × Verdict Unit
  | [], b => (b, .finished ())
  | d :: rest, b =>
      match step b d with
      | (b, .finished result) =>
          runSteps step rest (if result == .null then b else b.note (tagged "r" result))
      | (b, .panicked d) => (b, .panicked d)
      | (b, .unfinished) => (b, .unfinished)

/-- Runs a task: notes the time if it is virtual, then takes the task's steps. -/
def perform (step : Bench → Datum → Bench × Verdict Datum) (task : BenchTask) (b : Bench) :
    Bench × Verdict Unit :=
  let clock := (b.queue task.queue).clock
  runSteps step task.steps <|
    if clock.isVirtual then b.note (tagged "at" (.nat clock.now.nanos)) else b

/-- The result of a run of tasks. -/
def shown {α : Type} (show_ : α → Datum) (result : Bench × Verdict α) : Bench × Verdict Datum :=
  match result with
  | (b, .finished a) => (b, .finished (show_ a))
  | (b, .panicked d) => (b, .panicked d)
  | (b, .unfinished) => (b, .unfinished)

/-- Takes a step. The fuel bounds how deep tasks that drive queues are nested. -/
def step : Nat → Bench → Datum → Bench × Verdict Datum
  | 0, b, _ => (b, .unfinished)
  | fuel + 1, b, d =>
      let name (i : Nat) : Name := toName (d.item i)
      let quiet (b : Bench) : Bench × Verdict Datum := (b, .finished .null)
      let give (result : Datum) : Bench × Verdict Datum := (b, .finished result)
      let onQueue (k : Nat → Timers BenchTask → Bench × Verdict Datum) : Bench × Verdict Datum :=
        match b.names.get? (name 1) with
        | some q => k q (b.queue q)
        | none => give (.text "unknown scheduler")
      let host := host (perform (step fuel))
      let limit := Session.fuel
      match (d.item 0).asText with
      | "new" => quiet (b.addQueue (name 1) (.on ⟨.virtual, .zero⟩))
      | "new_at" => quiet (b.addQueue (name 1) (.on ⟨.virtual, .ofNanos (d.item 2).asNat⟩))
      | "wall" => quiet (b.addQueue (name 1) (.on ⟨.wall, .zero⟩))
      | "fork" => onQueue fun _ timers => quiet (b.addQueue (name 2) timers.fork)
      | "timer" => onQueue fun q timers =>
          match toDuration (d.item 3) with
          | .error defect => (b, .panicked defect)
          | .ok delay =>
              let (timers, id) := timers.set delay ⟨q, (d.item 4).items⟩
              let b := b.setQueue q timers
              quiet { b with handles := b.handles.put (name 2) (q, id) }
      | "cancel" =>
          match b.handles.get? (name 1) with
          | none => give .null
          | some (q, id) =>
              match (b.queue q).cancel? id with
              | some timers => (b.setQueue q timers, .finished (.bool true))
              | none => give (.bool false)
      | "log" => quiet (b.note (d.item 1))
      | "panic" => (b, .panicked ⟨(d.item 1).asText⟩)
      | "run_ready" => onQueue fun q _ => shown .nat ((host q).runReady limit b)
      | "advance" => onQueue fun q _ =>
          match toDuration (d.item 2) with
          | .error defect => (b, .panicked defect)
          | .ok span => shown .nat ((host q).advance limit span b)
      | "run_until_idle" => onQueue fun q _ => shown .nat ((host q).runUntilIdle limit b)
      | "drive_until" => onQueue fun q _ =>
          shown .bool ((host q).driveUntil limit (fun b => (d.item 2).asNat ≤ b.log.length) b)
      | "is_virtual" => onQueue fun _ timers => give (.bool timers.clock.isVirtual)
      | "state" => onQueue fun _ timers =>
          give (.list [.nat timers.now.nanos, .nat timers.pending, .nat timers.executed,
            .ofOption (timers.nextDeadline?.map fun t => .nat t.nanos)])
      | "counts" => onQueue fun _ timers =>
          give (.list [.nat timers.pending, .nat timers.executed,
            .bool timers.nextDeadline?.isSome])
      | "debug" => onQueue fun _ timers => give (.text timers.inspect)
      | _ => give (.text "bad step")

/-- Takes a step of the script and gives its answer: the result and the log. -/
def answerStep (b : Bench) (d : Datum) : Bench × Datum :=
  let (b, verdict) := b.step Session.fuel d
  ({ b with log := [] }, .list [Session.shown id verdict, .list b.log.reverse])

end Bench

/-- Answers a script on queues. -/
def answerQueues (request : Datum) : Datum :=
  .list (answersFrom Bench.answerStep {} (request.field "steps").items)

/-! ## Contexts -/

/-- A platform: its limits, the place of its counter of fiber numbers, and its queue. -/
structure Platform where
  limits : Limits
  counter : Nat
  timers : Timers Unit

/-- Platforms, contexts and maps of references by name, and the counters of fiber numbers. -/
structure ContextBench where
  platforms : Table Platform := {}
  contexts : Table Context := {}
  counters : List Nat := []
  refs : Store .refs FiberRefs := .empty

namespace ContextBench

/-- What is shown of a context. -/
def summary (b : ContextBench) (c : Context) : Datum :=
  contextSummary true c ((b.refs.get? c.refs).getD .empty).size

/-- Keeps a context under a name and shows it. -/
def keep (b : ContextBench) (name : Name) (c : Context) : ContextBench × Datum :=
  ({ b with contexts := b.contexts.put name c }, b.summary c)

/-- The limits that options ask for. -/
def limits (options : Datum) : Limits :=
  let standard := Limits.standard
  { maxOps := ((options.field? "max_op_count").map fun d => max 1 d.asNat).getD standard.maxOps
    maxTrace := ((options.field? "max_trace_count").map (·.asNat)).getD standard.maxTrace
    finalization := ((options.field? "finalization").map toStrategy).getD standard.finalization }

/-- Takes a step. -/
def step (b : ContextBench) (d : Datum) : Except Defect (ContextBench × Datum) :=
  let name (i : Nat) : Name := toName (d.item i)
  match (d.item 0).asText with
  | "platform" =>
      let options := d.item 2
      let limits := limits options
      let shared := (b.platforms.get? (toName (options.field "sequence_of"))).map (·.counter)
      let counter := shared.getD b.counters.length
      let b := if shared.isSome then b else { b with counters := b.counters ++ [0] }
      .ok
        ({ b with platforms := b.platforms.put (name 1) ⟨limits, counter, .on ⟨.virtual, .zero⟩⟩ },
          .list [.nat limits.maxOps, .nat limits.maxTrace, .text limits.finalization.display,
            .text (limits.inspect (b.counters.getD counter 0))])
  | "advance" =>
      match b.platforms.get? (name 1) with
      | none => .ok (b, .null)
      | some p =>
          (toDuration (d.item 2)).map fun span =>
            let timers := p.timers.advanceTo (p.timers.now.add span)
            ({ b with platforms := b.platforms.put (name 1) { p with timers } }, .nat 0)
  | "next_id" =>
      match b.platforms.get? (name 1) with
      | none => .ok (b, .null)
      | some p =>
          let next := b.counters.getD p.counter 0 + 1
          .ok ({ b with counters := b.counters.set p.counter next },
            .list [ofId true ⟨next, p.timers.now⟩, .nat next])
  | "root" =>
      match b.platforms.get? (name 2) with
      | none => .ok (b, .null)
      | some p =>
          let (refs, m) := b.refs.add .empty
          .ok ({ b with refs }.keep (name 1)
            (.root (toId (d.item 3)) p.limits m (d.item 4).asNat))
  | "child" =>
      match b.contexts.get? (name 2) with
      | none => .ok (b, .null)
      | some parent =>
          ((b.refs.get? parent.refs).getD .empty).fork.map fun copy =>
            let (refs, m) := b.refs.add copy
            { b with refs }.keep (name 1) (parent.child (toId (d.item 3)) m (d.item 4).asNat?)
  | "info" =>
      match b.contexts.get? (name 1) with
      | none => .ok (b, .null)
      | some c =>
          .ok (b, .list [b.summary c, .ofOption (c.parent.map (ofId true)), .text c.inspect])
  | _ => .ok (b, .null)

/-- The answers to steps that are taken one after the other, if none of them panics. -/
def answers (b : ContextBench) : List Datum → Except Defect (List Datum)
  | [] => .ok []
  | d :: rest => do
      let (b, answer) ← b.step d
      return answer :: (← b.answers rest)

end ContextBench

/-- Answers a script on contexts; a panic of one step is the whole answer. -/
def answerContexts (request : Datum) : Datum :=
  match ContextBench.answers {} (request.field "steps").items with
  | .ok answers => .list answers
  | .error d => panicked d

end Fibers.Script
