import Fibers.Fiber.Inspect
import Fibers.Script.Reader

set_option autoImplicit false

/-! # What scripts mean

`Prog.build` makes the program that a part of a script stands for, out of the combinators of the
library, and `Action.perform` does what an action stands for. Names are looked up on the board: a
program that works with a named thing looks it up when it is run, and dies if there is none; an
action on an unknown name does nothing and gives null.

Building is where a span of time is read, and a span too long for any duration is a defect: whoever
builds the program panics.
-/

namespace Fibers.Script

open Fibers.Notation

/-! ## Summaries -/

/-- What is shown of a context; `size` is the number of references with a value. -/
def contextSummary (stamped : Bool) (c : Context) (size : Nat) : Datum :=
  .object
    [("id", ofId stamped c.id), ("concurrency", .nat c.concurrency),
      ("interrupt_status", .bool c.interruptible), ("refs", .nat size),
      ("max_op_count", .nat c.limits.maxOps), ("max_trace_count", .nat c.limits.maxTrace)]

/-- What is shown of an environment. -/
def servicesSummary (s : Services) : Datum :=
  .object
    [("len", .nat s.size), ("empty", .bool s.isEmpty),
      ("int", .ofOption (s.int.map .int)), ("str", .ofOption (s.text.map .text)),
      ("bool", .ofOption (s.flag.map .bool)), ("byte", .ofOption (s.byte.map .nat)),
      ("has_str", .bool (s.contains .text))]

/-- What is shown of a scope. -/
def scopeSummary (stamped : Bool) (v : ScopeView) : Datum :=
  .object
    [("owner", ofId stamped v.owner), ("strategy", .text v.strategy.display),
      ("open", .bool v.isOpen), ("closed", .bool v.isClosed), ("finalizers", .nat v.finalizers),
      ("exit", .ofOption (v.exit.map (ofAnyExit stamped)))]

/-- What is shown of a status. -/
def statusSummary (stamped : Bool) (status : FiberStatus) : Datum :=
  let (name, interruptible, exit) : String × Option Bool × Option AnyExit := match status with
    | .notStarted => ("not_started", none, none)
    | .running b => ("running", some b, none)
    | .suspended b => ("suspended", some b, none)
    | .done e => ("done", none, some e)
  .list
    [.text name, .ofOption (interruptible.map .bool), .bool (name == "done"),
      .bool (name == "running"), .bool (name == "suspended"),
      .ofOption (exit.map (ofAnyExit stamped))]

/-- What is shown of the outcome of a future. -/
def outcomeSummary (stamped : Bool) : Outcome → Datum
  | .resolved => .text "resolved"
  | .interrupted id => tagged "interrupted" (ofId stamped id)

/-- An exit whose value and errors are data. -/
def ofDatumExit (stamped : Bool) (e : Exit Datum Datum) : Datum := ofExit stamped id id e

/-- The datum of a name. -/
def ofName (n : Name) : Datum := .ofOption (n.map .text)

/-! ## Services -/

/-- `s` with the service of a type read from a datum. -/
def withService (s : Services) (key : ServiceKey) (d : Datum) : Services :=
  match key with
  | .int => { s with int := some d.asInt }
  | .text => { s with text := some d.asText }
  | .flag => { s with flag := some d.isTrue }
  | .byte => { s with byte := some (if d.asNat < 256 then d.asNat else 0) }

/-- The datum of a value that is a service. -/
def ofService : Value → Datum
  | .int n => .int n
  | .text s => .text s
  | .flag b => .bool b
  | .byte n => .nat n
  | _ => .null

/-! ## Parts of programs -/

/-- The value of a datum, as what an act ends in. -/
def Proc.datum (m : Proc Board Datum) : Act Board .program := Proc.value (Value.datum <$> m)

/-- Replaces the value of a program by a datum made from it. -/
def lift (p : Program Board) (f : Value → Proc Board Datum) : Program Board :=
  p.bindAny fun v => Proc.datum (f v)

/-- Replaces the value of a program by null. -/
def quiet (p : Program Board) : Program Board := lift p fun _ => pure .null

/-- A program that does something when it is run and gives the result. -/
def doing (m : Proc Board Datum) : Program Board := .lazy (Proc.thunk (Value.datum <$> m))

/-- A program about a named thing, which is looked up when the program is run. -/
def named {α : Type} (n : Name) (get : Board → Option α) (k : α → Program Board) : Program Board :=
  .defer <| .look fun b =>
    match get b with
    | some a => .program (k a)
    | none => .program (.die ("unknown name " ++ n.getD ""))

/-- A program made from the board of the moment. -/
def late (make : Board → Except Defect (Program Board)) : Act Board .program :=
  Proc.program do Proc.ofExcept (make (← Proc.look))

/-- A cleanup program: its value is dropped and its typed errors are defects. -/
def cleanup (p : Program Board) : Program Board :=
  p.foldCause datum
    (fun cause => .program (.failCause (cause.tryMap fun e => .error ⟨e.display⟩)))
    (fun _ => .program .unit)

/-- Shows the exit that a program gives. -/
def showingExit (stamped : Bool) (p : Program Board) : Program Board :=
  lift p fun v => pure (ofAnyExit stamped v.asExit)

/-- Puts a fiber that a program gives into the table and gives its id. -/
def namingFiber (stamped : Bool) (name : Name) (p : Program Board) : Program Board :=
  lift p fun v =>
    match v with
    | .fiber f => do
        Proc.write fun b => { b with fibers := b.fibers.put name f }
        let view ← Proc.ask (.fiber f)
        pure (ofId stamped (FiberView.context view).id)
    | _ => pure .null

/-- Adds one to a program's value a number of times, each by a function. -/
def mapChain : Nat → Program Board
  | 0 => .succeed (.datum (.int 0))
  | n + 1 => (mapChain n).bind datum fun x => Proc.datum ((Fn.add 1).call x)

/-- Adds one to a program's value a number of times, each by a program. -/
def flatChain : Nat → Program Board
  | 0 => .succeed (.datum (.int 0))
  | n + 1 => (flatChain n).bind datum fun x => Proc.datum ((Fn.add 1).call x)

/-- A number of values one before the other, the greatest first, before the end. -/
def rightChain : Nat → Program Board
  | 0 => .succeed (.datum (.text "end"))
  | n + 1 => (Program.succeed (.datum (.nat n))).andThen (rightChain n)

/-- Runs a program a number of times, made anew each time. -/
def loop (make : Board → Except Defect (Program Board)) : Nat → Program Board
  | 0 => .defer (.program (.succeed (.datum (.text "looped"))))
  | n + 1 =>
      .defer (late fun b => (make b).map fun p => p.bind datum fun _ => .program (loop make n))

/-- What an observer of a fiber does. -/
def fiberReaction (stamped : Bool) (name : Name) (mode : ObserverMode) (e : AnyExit) :
    Reaction Board :=
  let exit := ofDatumExit stamped (datum.castExit e)
  .note (Board.note (.list [.text "observed", ofName name, exit])) <|
    match mode with
    | .panic => .panic "observer"
    | _ => .stop

/-- What an observer of a future does. -/
def futureReaction (stamped : Bool) (tag : Datum) (mode : ObserverMode) (o : Outcome) :
    Reaction Board :=
  .note (Board.note (.list [tag, outcomeSummary stamped o])) <|
    match mode with
    | .quiet => .stop
    | .panic => .panic "observer"
    | .reenter =>
        .settle fun again => .look fun pending observers =>
          .note (Board.note (.list [tag, .bool pending, .nat observers, .bool again])) <|
            .observe (.note (Board.note (.list [tag, .text "inner"])) .stop) fun _ => .stop

/-- Does something with a named thing; gives null if there is none. -/
def withNamed {α : Type} (get : Board → Option α) (k : α → Proc Board Datum) :
    Proc Board Datum := do
  match get (← Proc.look) with
  | some a => k a
  | none => pure .null

/-- Gives a text. -/
def giveText (s : String) : Proc Board Datum := pure (.text s)

/-- The text about a part of the system. -/
def inspectSubject : Subject → Proc Board Datum
  | .fiber f => withNamed (·.fibers.get? f) fun f => do
      giveText (FiberView.inspect (← Proc.ask (.fiber f)))
  | .context f => withNamed (·.fibers.get? f) fun f => do
      giveText (FiberView.context (← Proc.ask (.fiber f))).inspect
  | .callback c => withNamed (·.callbacks.get? c) fun f => do
      giveText (FutureView.inspectCallback (← Proc.ask (.future f)))
  | .future f => withNamed (·.futures.get? f) fun f => do
      giveText (FutureView.inspect (← Proc.ask (.future f)))
  | .semaphore s => withNamed (·.semaphores.get? s) fun s => do
      giveText (Semaphore.inspect (← Proc.ask (.semaphore s)))
  | .permit p => withNamed (·.permits.get? p) fun p => do
      giveText (inspectPermit p.ticket
        (Semaphore.isHeld (← Proc.ask (.semaphore p.semaphore)) p.ticket))
  | .scope s => withNamed (·.scopes.get? s) fun s => do
      giveText (ScopeView.inspect (← Proc.ask (.scope s)))
  | .handle h => withNamed (·.handles.get? h) fun h => giveText h.inspect
  | .refs m => withNamed (·.refMaps.get? m) fun m => do
      giveText (FiberRefs.inspect (← Proc.ask (.refs m)))
  | .ref r => withNamed (·.refs.get? r) fun _ => giveText "FiberRef \x7b id: FiberRefId(#) \x7d"
  | .runtime => do giveText (Survey.inspect (← Proc.ask .survey))
  | .platform => do
      let s : Survey ← Proc.ask .survey
      giveText (s.limits.inspect s.allocated)
  | .scheduler => do
      let s : Survey ← Proc.ask .survey
      giveText (s.clock.inspectQueue s.pending)
  | .pending => giveText "Pending(false)"
  | .pendingWith => giveText "Pending(true)"
  | .instruction tag => giveText (inspectTag tag)
  | .joining f => withNamed (·.fibers.get? f) fun _ => giveText (inspectTag "Join")
  | .waiting f => withNamed (·.futures.get? f) fun _ => giveText (inspectTag "Wait")
  | .unknown => pure .null

/-! ## Programs and actions -/

mutual

/-- The program that a part of a script stands for. -/
def Prog.build (vars : Vars) (b : Board) : Prog → Except Defect (Program Board)
  | .succeed v => return .succeed (.datum (eval vars v))
  | .fail v => return .failCause (.fail (.datum (eval vars v)))
  | .die message => return .die message
  | .unit => return quiet .unit
  | .failCause c => return .failCause ((toCause (eval vars) c).map .datum)
  | .ofExit e => return .ofExit (((toExit (eval vars) e).map Value.datum).mapError Value.datum)
  | .log v =>
      let entry := eval vars v
      return doing do
        note entry
        pure .null
  | .panic message => return .lazy (.panic message)
  | .attempt ok v =>
      let d := Value.datum (eval vars v)
      return .lazy (.exit (if ok then .success d else .fail d))
  | .act a => return doing (a.perform vars)
  | .bump counter n =>
      return doing do
        let count := wrap64 (((← Proc.look).counters.get? counter).getD 0 + n)
        Proc.write fun b => { b with counters := b.counters.put counter count }
        pure (.int count)
  | .defer p => return .defer (late fun b => p.build vars b)
  | .map p f => do
      let f := f.eval vars
      return (← p.build vars b).bind datum fun x => Proc.datum (f.call x)
  | .mapError p f => do
      let f := f.eval vars
      return .fold (← p.build vars b)
        (.apply fun cause => Proc.program <| Program.failCause <$>
          cause.tryMapM fun e =>
            match datum.cast e with
            | .ok x => do pure (.ok (.datum (← f.call x)))
            | .error d => pure (.error d))
        (.apply .value)
  | .flatMap p x q => do
      return (← p.build vars b).bind datum fun v => late fun b => q.build ((x, v) :: vars) b
  | .andThen p q => do
      return (← p.build vars b).andThen (← q.build vars b)
  | .seq ps => do
      match ← buildAll vars b ps with
      | [] => return .succeed (.datum .null)
      | p :: rest => return rest.foldl Program.andThen p
  | .asUnit p => do
      return quiet ((← p.build vars b).bind datum fun _ => .value .unit)
  | .fold p c q x r => do
      return (← p.build vars b).foldCause datum
        (fun cause => late fun b' => q.build ((c, ofCause b.stamped id cause) :: vars) b')
        (fun v => late fun b => r.build ((x, v) :: vars) b)
  | .catchCause p c q => do
      return (← p.build vars b).catchCause datum fun cause =>
        late fun b' => q.build ((c, ofCause b.stamped id cause) :: vars) b'
  | .recover p e q => do
      return (← p.build vars b).recover datum fun d => late fun b => q.build ((e, d) :: vars) b
  | .exit p => do
      return showingExit b.stamped ((← p.build vars b).exit datum)
  | .ensuring p e q => do
      return (← p.build vars b).cleanup fun exit => late fun b' =>
        (q.build ((e, ofAnyExit b.stamped exit) :: vars) b').map cleanup
  | .ifEqual v w p q =>
      if eval vars v == eval vars w then p.build vars b else q.build vars b
  | .fork name p => do
      return namingFiber b.stamped name ((← p.build vars b).forkWith {})
  | .forkDaemon name p => do
      return namingFiber b.stamped name (← p.build vars b).forkDaemon
  | .forkWith name p scope refs concurrency => do
      return namingFiber b.stamped name <| (← p.build vars b).forkWith
        { scope := b.scopes.get? scope, refs := b.refMaps.get? refs, concurrency }
  | .join f => return named f (·.fibers.get? f) .join
  | .await f =>
      return named f (·.fibers.get? f) fun f => showingExit b.stamped (Program.awaitExit datum f)
  | .interrupt f =>
      return named f (·.fibers.get? f) fun f => showingExit b.stamped (Program.interrupt datum f)
  | .raceAll ps => return .raceAll (← buildAll vars b ps)
  | .zipAll ps => do
      return lift (Program.zipAllOf datum (← buildAll vars b ps)) fun v =>
        pure (.list (v.asList.map ofValue))
  | .withConcurrency level p => return (← p.build vars b).bounded level
  | .mask interruptible p => return .mask (← p.build vars b) interruptible
  | .asyncReady p =>
      return .async fun _ => (do
        Proc.ofExcept (p.build vars (← Proc.look)) : Proc Board _) _ .ready
  | .async name c =>
      return .async fun f => (do
        Proc.write fun b => { b with callbacks := b.callbacks.put name f }
        Proc.ofExcept (buildCanceler vars (← Proc.look) c) : Proc Board _) _ .pending
  | .asyncNow p c =>
      return .async fun f => (do
        let program ← Proc.ofExcept (p.build vars (← Proc.look))
        note (.bool (← Proc.resolve f program))
        Proc.ofExcept (buildCanceler vars (← Proc.look) c) : Proc Board _) _ .pending
  | .asyncAfter delay p => do
      let delay ← toDuration delay
      return Program.fiberContext.bindAny fun _ => .program <| .async fun f =>
        .after delay
          (Proc.task do
            let program ← Proc.ofExcept (p.build vars (← Proc.look))
            let _ ← Proc.resolve f program
            pure ())
          fun _ => .pending none
  | .asyncElsewhere delay p => do
      let program ← p.build vars b
      return .async fun f => .elsewhere delay f program (.pending none)
  | .wait f => return named f (·.futures.get? f) fun f => .wait (.future f)
  | .timeout span p => do
      return ((← p.build vars b).timeout datum (← toDuration span)).bind optionalDatum fun d =>
        .value (.datum (match d with
          | some d => tagged "some" d
          | none => .text "timed out"))
  | .sleep span => return quiet (.sleep (← toDuration span))
  | .yieldNow => return quiet .yieldNow
  | .access => return .access fun s => .value (.datum (servicesSummary s))
  | .service key => return lift (.service key) fun v => pure (ofService v)
  | .provide services p => do
      return .provide (← p.build vars b)
        (services.foldl (fun s f => withService s f.1 (eval vars f.2)) .empty)
  | .traced frame p => return .addFrame (← p.build vars b) frame
  | .trace =>
      return lift .fiberTrace fun v =>
        match v with
        | .trace t => pure (ofTrace t)
        | _ => pure .null
  | .context =>
      return Program.fiberContext.bindAny fun v => .withContext v fun cx =>
        .ask (.refs cx.refs) fun m =>
          .value (.datum (contextSummary b.stamped cx (FiberRefs.size m)))
  | .parent =>
      return Program.fiberContext.bindAny fun v => .withContext v fun cx =>
        .value (.datum (.ofOption (cx.parent.map (ofId b.stamped))))
  | .now =>
      return lift .fiberContext fun _ => do
        let s : Survey ← Proc.ask .survey
        pure (.nat s.clock.now.nanos)
  | .scope name =>
      return Program.fiberScope.bindAny fun v => .withScope v fun s => Proc.datum do
        Proc.write fun b => { b with scopes := b.scopes.put name s }
        pure (scopeSummary b.stamped (← Proc.ask (.scope s)))
  | .saveRefs name =>
      return Program.fiberContext.bindAny fun v => .withContext v fun cx => Proc.datum do
        Proc.write fun b => { b with refMaps := b.refMaps.put name cx.refs }
        pure .null
  | .scopeClose s x =>
      let exit := toAnyExit (eval vars) x
      return named s (·.scopes.get? s) fun s =>
        lift (.closeScope s exit) fun v => pure (ofService v)
  | .scopeCloseOrWait s x =>
      let exit := toAnyExit (eval vars) x
      return named s (·.scopes.get? s) fun s => showingExit b.stamped (.closeOrWaitScope s exit)
  | .scopeWait s => return named s (·.scopes.get? s) fun s => showingExit b.stamped (.waitScope s)
  | .release h x =>
      let exit := toAnyExit (eval vars) x
      return named h (·.handles.get? h) fun h => lift (.release h exit) fun v => pure (ofService v)
  | .refGet r =>
      return named r (·.refs.get? r) fun r =>
        (Program.getRef r).bind datum fun d => .value (.datum d)
  | .refSet r v =>
      let d := eval vars v
      return named r (·.refs.get? r) fun r => quiet (.setRef r d)
  | .refUpdate r f =>
      let f := f.eval vars
      return named r (·.refs.get? r) fun r => quiet (.updateRef r fun x k => f.call x _ k)
  | .locally r v p => do
      let d := eval vars v
      let program ← p.build vars b
      return named r (·.refs.get? r) fun r => .locally datum r d program
  | .withPermit s p => do
      let program ← p.build vars b
      return named s (·.semaphores.get? s) fun s => program.withPermit s
  | .acquire s name =>
      return named s (·.semaphores.get? s) fun s =>
        lift (.acquire s) fun v =>
          match v with
          | .permit s ticket => do
              let held := Semaphore.isHeld (← Proc.ask (.semaphore s)) ticket
              Proc.write fun b => { b with permits := b.permits.put name ⟨s, ticket⟩ }
              pure (.bool held)
          | _ => pure .null
  | .mapChain n => return Script.mapChain n
  | .flatChain n => return Script.flatChain n
  | .rightChain n => return Script.rightChain n
  | .loop n p => return Script.loop (fun b => p.build vars b) n
  | .bad name => return .die ("bad program " ++ name)

/-- The programs that the parts of a script stand for. -/
def buildAll (vars : Vars) (b : Board) : List Prog → Except Defect (List (Program Board))
  | [] => return []
  | p :: rest => return (← p.build vars b) :: (← buildAll vars b rest)

/-- The canceler that a part of a script stands for. -/
def buildCanceler (vars : Vars) (b : Board) :
    Option Prog → Except Defect (Option (Program Board))
  | none => return none
  | some p => return some (cleanup (← p.build vars b))

/-- Does what an action stands for and gives its result. -/
def Action.perform (vars : Vars) : Action → Proc Board Datum
  | .interruptAs f id => withNamed (·.fibers.get? f) fun f => do
      Proc.call (.interruptFiber f id)
      pure (.bool true)
  | .status f => withNamed (·.fibers.get? f) fun f => do
      let view : FiberView ← Proc.ask (.fiber f)
      pure (statusSummary (← Proc.look).stamped view.status)
  | .poll f => withNamed (·.fibers.get? f) fun f => do
      let view : FiberView ← Proc.ask (.fiber f)
      let stamped := (← Proc.look).stamped
      pure (match view.exit with
        | some e => ofDatumExit stamped (datum.castExit e)
        | none => .text "pending")
  | .isDone f => withNamed (·.fibers.get? f) fun f => do
      let view : FiberView ← Proc.ask (.fiber f)
      pure (.bool view.exit.isSome)
  | .fiberTrace f => withNamed (·.fibers.get? f) fun f => do
      let view : FiberView ← Proc.ask (.fiber f)
      pure (ofTrace view.trace)
  | .fiberContext f => withNamed (·.fibers.get? f) fun f => do
      let view : FiberView ← Proc.ask (.fiber f)
      let m : FiberRefs ← Proc.ask (.refs view.context.refs)
      pure (contextSummary (← Proc.look).stamped view.context m.size)
  | .observe f name mode => withNamed (·.fibers.get? f) fun f => do
      let stamped := (← Proc.look).stamped
      let key ← Proc.watchFiber f (fiberReaction stamped name mode)
      Proc.write fun b => { b with observers := b.observers.put name ⟨f, key⟩ }
      giveText (inspectObserver key)
  | .unobserve name => withNamed (·.observers.get? name) fun o => do
      Proc.write fun b => { b with observers := b.observers.remove name }
      match o.key with
      | some key => do pure (.bool (← Proc.call (.unwatchFiber o.fiber key)))
      | none => pure (.bool false)
  | .complete c p => withNamed (·.callbacks.get? c) fun f => do
      let program ← Proc.ofExcept (p.build vars (← Proc.look))
      pure (.bool (← Proc.resolve f program))
  | .callbackSucceed c v => withNamed (·.callbacks.get? c) fun f => do
      pure (.bool (← Proc.resolve f (.succeed (.datum (eval vars v)))))
  | .callbackFail c v => withNamed (·.callbacks.get? c) fun f => do
      pure (.bool (← Proc.resolve f (.failCause (.fail (.datum (eval vars v))))))
  | .callbackPending c => withNamed (·.callbacks.get? c) fun f => do
      let view : FutureView ← Proc.ask (.future f)
      pure (.bool view.outcome.isNone)
  | .futureNew name => do
      let f : Key .future ← Proc.call .newFuture
      Proc.write fun b => { b with futures := b.futures.put name f }
      pure .null
  | .futureResolved name p => do
      let program ← Proc.ofExcept (p.build vars (← Proc.look))
      let f : Key .future ← Proc.call .newFuture
      let _ ← Proc.resolve f program
      Proc.write fun b => { b with futures := b.futures.put name f }
      pure .null
  | .resolve f p => withNamed (·.futures.get? f) fun f => do
      let program ← Proc.ofExcept (p.build vars (← Proc.look))
      pure (.bool (← Proc.resolve f program))
  | .futureInterrupt f id => withNamed (·.futures.get? f) fun f => do
      pure (.bool (← Proc.call (.interruptFuture f id)))
  | .futureState f => withNamed (·.futures.get? f) fun f => do
      let view : FutureView ← Proc.ask (.future f)
      let stamped := (← Proc.look).stamped
      pure (.list [.bool view.outcome.isNone, .nat view.observers,
        .ofOption (view.outcome.map (outcomeSummary stamped))])
  | .futureObserve f tag mode => withNamed (·.futures.get? f) fun f => do
      let stamped := (← Proc.look).stamped
      match ← Proc.watchFuture f (futureReaction stamped tag mode) with
      | some key => do
          Proc.write fun b => { b with observerKeys := b.observerKeys.put (toName tag) key }
          pure (.bool true)
      | none => pure (.bool false)
  | .futureUnobserve f tag => withNamed (·.futures.get? f) fun f =>
      withNamed (·.observerKeys.get? tag) fun key => do
        pure (.bool (← Proc.call (.unwatchFuture f key)))
  | .semaphoreNew name permits => do
      let s : Key .semaphore ← Proc.call (.newSemaphore permits)
      Proc.write fun b => { b with semaphores := b.semaphores.put name s }
      pure .null
  | .semaphoreState s => withNamed (·.semaphores.get? s) fun s => do
      let sem : Semaphore (Key .future) ← Proc.ask (.semaphore s)
      pure (.list [.nat sem.available, .nat sem.capacity, .nat sem.waiting])
  | .tryAcquire s name => withNamed (·.semaphores.get? s) fun s => do
      let got : Option Nat ← Proc.call (.tryAcquire s)
      match got with
      | some ticket => do
          Proc.write fun b => { b with permits := b.permits.put name ⟨s, ticket⟩ }
          giveText "acquired"
      | none =>
          pure (.object [("error", .text "TryAcquireError"),
            ("message", .text "no semaphore permits available")])
  | .permitRelease p => withNamed (·.permits.get? p) fun p => do
      Proc.call (.relinquish p.semaphore p.ticket)
      pure (.bool true)
  | .permitClone p name => withNamed (·.permits.get? p) fun p => do
      Proc.write fun b => { b with permits := b.permits.put name p }
      pure (.bool true)
  | .permitHeld p => withNamed (·.permits.get? p) fun p => do
      let sem : Semaphore (Key .future) ← Proc.ask (.semaphore p.semaphore)
      pure (.bool (sem.isHeld p.ticket))
  | .scopeNew name owner strategy => do
      let s : Key .scope ← Proc.call (.newScope owner strategy)
      Proc.write fun b => { b with scopes := b.scopes.put name s }
      pure .null
  | .scopeFork s name owner => withNamed (·.scopes.get? s) fun s => do
      let child : Key .scope ← Proc.call (.forkScope s owner)
      Proc.write fun b => { b with scopes := b.scopes.put name child }
      pure (.bool true)
  | .scopeEnsuring s name e q => withNamed (·.scopes.get? s) fun s => do
      let stamped := (← Proc.look).stamped
      let handle ← Proc.register s fun exit => late fun b =>
        (q.build ((e, ofAnyExit stamped exit) :: vars) b).map cleanup
      match handle with
      | some h => do
          Proc.write fun b => { b with handles := b.handles.put name h }
          pure (.bool true)
      | none => pure (.bool false)
  | .scopeState s => withNamed (·.scopes.get? s) fun s => do
      let view : ScopeView ← Proc.ask (.scope s)
      pure (scopeSummary (← Proc.look).stamped view)
  | .handleCancel h => withNamed (·.handles.get? h) fun h => do
      pure (.bool (← Proc.call (.cancelFinalizer h)))
  | .refNew name initial policy => do
      let r : FiberRef ← Proc.call (.newRef (eval vars initial) policy.policy)
      Proc.write fun b => { b with refs := b.refs.put name r }
      pure .null
  | .refSameId r q => withNamed (·.refs.get? r) fun r => withNamed (·.refs.get? q) fun q =>
      pure (.bool (r.id == q.id))
  | .refsNew name => do
      let m : Key .refs ← Proc.call .newRefs
      Proc.write fun b => { b with refMaps := b.refMaps.put name m }
      pure .null
  | .refsFork m name => withNamed (·.refMaps.get? m) fun m => do
      let copy : Key .refs ← Proc.call (.forkRefs m)
      Proc.write fun b => { b with refMaps := b.refMaps.put name copy }
      pure (.bool true)
  | .refsJoin m child => withNamed (·.refMaps.get? m) fun m =>
      withNamed (·.refMaps.get? child) fun child => do
        Proc.call (.joinRefs m child)
        pure (.bool true)
  | .refsClone m name => withNamed (·.refMaps.get? m) fun m => do
      Proc.write fun b => { b with refMaps := b.refMaps.put name m }
      pure (.bool true)
  | .refsOf m f => withNamed (·.fibers.get? f) fun f => do
      let view : FiberView ← Proc.ask (.fiber f)
      Proc.write fun b => { b with refMaps := b.refMaps.put m view.context.refs }
      pure (.bool true)
  | .refsSize m => withNamed (·.refMaps.get? m) fun m => do
      let refs : FiberRefs ← Proc.ask (.refs m)
      pure (.list [.nat refs.size, .bool (refs.size == 0)])
  | .refGetIn r m => withNamed (·.refs.get? r) fun r => withNamed (·.refMaps.get? m) fun m => do
      let refs : FiberRefs ← Proc.ask (.refs m)
      pure (refs.read r)
  | .refSetIn r m v => withNamed (·.refs.get? r) fun r => withNamed (·.refMaps.get? m) fun m => do
      Proc.call (.writeRef m r (eval vars v))
      pure (.bool true)
  | .counter name => do pure (.int (((← Proc.look).counters.get? name).getD 0))
  | .inspect subject => inspectSubject subject
  | .inspectProgram p ready => do
      let program ← Proc.ofExcept (p.build vars (← Proc.look))
      let text := inspectTag program.tag
      giveText (if ready then "Ready(" ++ text ++ ")" else text)
  | .bad name => giveText ("bad action " ++ name)

end

end Fibers.Script
