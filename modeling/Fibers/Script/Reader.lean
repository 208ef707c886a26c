import Fibers.Script.Syntax

set_option autoImplicit false

/-! # Reading scripts

A program or an action is a list that starts with its name, followed by its arguments. An
argument that is missing or of another type than expected reads as the empty value of that type,
so everything is a program: a list with another name is a bad one, which dies when it is run.
-/

namespace Fibers.Script

/-- The name in a datum. -/
def toName : Datum → Name
  | .text s => some s
  | _ => none

/-- The service type in a datum. -/
def toServiceKey? : String → Option ServiceKey
  | "int" => some .int
  | "str" => some .text
  | "bool" => some .flag
  | "byte" => some .byte
  | _ => none

/-- The services in a record, in the order of their names. -/
def toServices : Datum → List (ServiceKey × Datum)
  | .record fields => fields.filterMap fun f => (toServiceKey? f.1).map fun key => (key, f.2)
  | _ => []

/-- The function in a datum. -/
def toFn (d : Datum) : Fn :=
  let arg := d.item 1
  match (d.item 0).asText with
  | "add" => .add arg.asInt
  | "mul" => .mul arg.asInt
  | "concat" => .concat arg.asText
  | "const" => .const arg
  | "wrap" => .wrap arg.asText
  | "pair" => .pair arg
  | "log" => .log arg
  | "panic" => .panic arg.asText
  | _ => .same

/-- The message of a panic with a payload of a kind. -/
def panicMessage (kind text : String) : String :=
  if kind = "str" ∨ kind = "string" then text else "panic with a non-string payload"

/-- The policy of a name. -/
def toPolicy : String → PolicyName
  | "sum" => .sum
  | "max" => .max
  | "pair" => .pair
  | "parent" => .parentWins
  | "bad_fork" => .badFork
  | "bad_join" => .badJoin
  | _ => .childWins

/-- The mode of an observer. -/
def toObserverMode : String → ObserverMode
  | "panic" => .panic
  | "reenter" => .reenter
  | _ => .quiet

/-- The subject of a text about the system's state. -/
def toSubject (kind : String) (x : Name) : Subject :=
  match kind with
  | "fiber" => .fiber x
  | "context" => .context x
  | "callback" => .callback x
  | "future" => .future x
  | "semaphore" => .semaphore x
  | "permit" => .permit x
  | "scope" => .scope x
  | "handle" => .handle x
  | "refs" => .refs x
  | "ref" => .ref x
  | "runtime" => .runtime
  | "platform" => .platform
  | "scheduler" => .scheduler
  | "pending" => .pending
  | "pending_with" => .pendingWith
  | "raw_context" => .instruction "GetFiberContext"
  | "raw_scope" => .instruction "GetFiberScope"
  | "raw_trace" => .instruction "GetTrace"
  | "raw_yield" => .instruction "YieldNow"
  | "raw_sleep" => .instruction "FlatMap"
  | "raw_join" => .joining x
  | "raw_wait" => .waiting x
  | _ => .unknown

/-- The strategy that a text names; the standard one if it names none. -/
def strategyNamed (text : String) : Strategy :=
  match Strategy.parse text with
  | .ok s => s
  | .error _ => .sequential

mutual

/-- Reads a program of a nesting up to `fuel`. -/
def toProgWithin : Nat → Datum → Prog
  | 0, _ => .bad ""
  | fuel + 1, d =>
      let prog (i : Nat) : Prog := toProgWithin fuel (d.item i)
      let progs (i : Nat) : List Prog := (d.item i).items.map (toProgWithin fuel)
      let canceler (i : Nat) : Option Prog :=
        match d.item i with
        | .list _ => some (prog i)
        | _ => none
      let text (i : Nat) : String := (d.item i).asText
      let name (i : Nat) : Name := toName (d.item i)
      let nat (i : Nat) : Nat := (d.item i).asNat
      match text 0 with
      | "succeed" => .succeed (d.item 1)
      | "fail" => .fail (d.item 1)
      | "die" => .die (text 1)
      | "unit" => .unit
      | "fail_cause" => .failCause (d.item 1)
      | "from_exit" => .ofExit (d.item 1)
      | "log" => .log (d.item 1)
      | "panic" => .panic (panicMessage (text 1) (text 2))
      | "try" => .attempt (text 1 == "ok") (d.item 2)
      | "act" => .act (toActionWithin fuel (d.item 1))
      | "bump" => .bump (name 1) ((d.item 2).asInt?.getD 1)
      | "defer" => .defer (prog 1)
      | "map" => .map (prog 1) (toFn (d.item 2))
      | "map_error" => .mapError (prog 1) (toFn (d.item 2))
      | "flat_map" => .flatMap (prog 1) (text 2) (prog 3)
      | "then" => .andThen (prog 1) (prog 2)
      | "seq" => .seq (progs 1)
      | "as_unit" => .asUnit (prog 1)
      | "fold" => .fold (prog 1) (text 2) (prog 3) (text 4) (prog 5)
      | "catch_cause" => .catchCause (prog 1) (text 2) (prog 3)
      | "catch" => .recover (prog 1) (text 2) (prog 3)
      | "exit" => .exit (prog 1)
      | "ensuring" => .ensuring (prog 1) (text 2) (prog 3)
      | "if" => .ifEqual (d.item 1) (d.item 2) (prog 3) (prog 4)
      | "fork" => .fork (name 1) (prog 2)
      | "fork_daemon" => .forkDaemon (name 1) (prog 2)
      | "fork_with" =>
          let params := d.item 3
          .forkWith (name 1) (prog 2) (toName (params.field "scope")) (toName (params.field "refs"))
            ((params.field? "concurrency").map (·.asNat))
      | "join" => .join (name 1)
      | "await" => .await (name 1)
      | "interrupt" => .interrupt (name 1)
      | "race_all" => .raceAll (progs 1)
      | "race" => .raceAll [prog 1, prog 2]
      | "zip_all" => .zipAll (progs 1)
      | "zip" => .zipAll [prog 1, prog 2]
      | "with_concurrency" => .withConcurrency (nat 1) (prog 2)
      | "uninterruptible" => .mask false (prog 1)
      | "interruptible" => .mask true (prog 1)
      | "async_ready" => .asyncReady (prog 1)
      | "async" => .async (name 1) (canceler 2)
      | "async_now" => .asyncNow (prog 1) (canceler 2)
      | "async_after" => .asyncAfter (d.item 1) (prog 2)
      | "async_thread" => .asyncElsewhere (nat 1 * 1000000) (prog 2)
      | "wait" => .wait (name 1)
      | "timeout" => .timeout (d.item 1) (prog 2)
      | "sleep" => .sleep (d.item 1)
      | "yield" => .yieldNow
      | "access" => .access
      | "service" =>
          match toServiceKey? (text 1) with
          | some key => .service key
          | none => .bad "service"
      | "provide" => .provide (toServices (d.item 1)) (prog 2)
      | "provide_service" =>
          .provide (((toServiceKey? (text 1)).map fun key => (key, d.item 2)).toList) (prog 3)
      | "traced" => .traced (.label (text 1)) (prog 2)
      | "located" => .traced .location (prog 1)
      | "trace" => .trace
      | "context" => .context
      | "parent" => .parent
      | "now" => .now
      | "scope" => .scope (name 1)
      | "save_refs" => .saveRefs (name 1)
      | "scope_close" => .scopeClose (name 1) (d.item 2)
      | "scope_close_or_wait" => .scopeCloseOrWait (name 1) (d.item 2)
      | "scope_wait" => .scopeWait (name 1)
      | "release" => .release (name 1) (d.item 2)
      | "ref_get" => .refGet (name 1)
      | "ref_set" => .refSet (name 1) (d.item 2)
      | "ref_update" => .refUpdate (name 1) (toFn (d.item 2))
      | "locally" => .locally (name 1) (d.item 2) (prog 3)
      | "with_permit" => .withPermit (name 1) (prog 2)
      | "acquire" => .acquire (name 1) (name 2)
      | "map_chain" => .mapChain (nat 1)
      | "flat_chain" => .flatChain (nat 1)
      | "right_chain" => .rightChain (nat 1)
      | "loop" => .loop (nat 1) (prog 2)
      | other => .bad other

/-- Reads an action of a nesting up to `fuel`. -/
def toActionWithin : Nat → Datum → Action
  | 0, _ => .bad ""
  | fuel + 1, d =>
      let prog (i : Nat) : Prog := toProgWithin fuel (d.item i)
      let text (i : Nat) : String := (d.item i).asText
      let name (i : Nat) : Name := toName (d.item i)
      let id (i : Nat) : FiberId := Notation.toId (d.item i)
      match text 0 with
      | "interrupt_as" => .interruptAs (name 1) (id 2)
      | "status" => .status (name 1)
      | "poll" => .poll (name 1)
      | "is_done" => .isDone (name 1)
      | "fiber_trace" => .fiberTrace (name 1)
      | "fiber_context" => .fiberContext (name 1)
      | "observe" => .observe (name 1) (name 2) (toObserverMode (text 3))
      | "unobserve" => .unobserve (name 1)
      | "complete" => .complete (name 1) (prog 2)
      | "cb_succeed" => .callbackSucceed (name 1) (d.item 2)
      | "cb_fail" => .callbackFail (name 1) (d.item 2)
      | "cb_pending" => .callbackPending (name 1)
      | "fut_new" => .futureNew (name 1)
      | "fut_default" => .futureNew (name 1)
      | "fut_resolved" => .futureResolved (name 1) (prog 2)
      | "resolve" => .resolve (name 1) (prog 2)
      | "fut_interrupt" => .futureInterrupt (name 1) (id 2)
      | "fut_state" => .futureState (name 1)
      | "fut_observe" => .futureObserve (name 1) (d.item 2) (toObserverMode (text 3))
      | "fut_unobserve" => .futureUnobserve (name 1) (name 2)
      | "sem_new" => .semaphoreNew (name 1) (d.item 2).asNat
      | "sem_unbounded" => .semaphoreNew (name 1) unbounded
      | "sem_state" => .semaphoreState (name 1)
      | "try_acquire" => .tryAcquire (name 1) (name 2)
      | "permit_release" => .permitRelease (name 1)
      | "permit_clone" => .permitClone (name 1) (name 2)
      | "permit_held" => .permitHeld (name 1)
      | "scope_new" => .scopeNew (name 1) (id 2) (strategyNamed (text 3))
      | "scope_fork" => .scopeFork (name 1) (name 2) (id 3)
      | "scope_ensuring" => .scopeEnsuring (name 1) (name 2) (text 3) (prog 4)
      | "scope_state" => .scopeState (name 1)
      | "handle_cancel" => .handleCancel (name 1)
      | "ref_new" => .refNew (name 1) (d.item 2) (toPolicy (text 3))
      | "ref_same_id" => .refSameId (name 1) (name 2)
      | "refs_new" => .refsNew (name 1)
      | "refs_fork" => .refsFork (name 1) (name 2)
      | "refs_join" => .refsJoin (name 1) (name 2)
      | "refs_clone" => .refsClone (name 1) (name 2)
      | "refs_of" => .refsOf (name 1) (name 2)
      | "refs_len" => .refsSize (name 1)
      | "ref_get_in" => .refGetIn (name 1) (name 2)
      | "ref_set_in" => .refSetIn (name 1) (name 2) (d.item 3)
      | "counter" => .counter (name 1)
      | "debug" =>
          match text 1 with
          | "fx" => .inspectProgram (prog 2) false
          | "ready" => .inspectProgram (prog 2) true
          | kind => .inspect (toSubject kind (name 2))
      | other => .bad other

end

/-- Reads a program. -/
def toProg (d : Datum) : Prog := toProgWithin d.depth d

/-- Reads an action. -/
def toAction (d : Datum) : Action := toActionWithin d.depth d

end Fibers.Script
