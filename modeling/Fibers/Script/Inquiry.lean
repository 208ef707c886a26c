import Fibers.Script.Session

set_option autoImplicit false

/-! # Inquiries

Requests about plain values: causes, exits, traces, instants, ids and the texts of settings. Each
is answered from its record alone.
-/

namespace Fibers.Script

open Fibers.Notation

/-- The data of a request stand for themselves: no variables are bound there. -/
def evalPlain : Datum → Datum := eval []

/-! ## Functions outside of programs -/

/-- Calls of functions, with the entries they make in the log, up to the first panic. -/
abbrev Calls := ExceptT Defect (StateM (List Datum))

/-- Calls a function. -/
def Fn.callPlain (f : Fn) (x : Datum) : Calls Datum := do
  let (entry, result) := f.apply x
  match entry with
  | some d => modify fun log => d :: log
  | none => pure ()
  match result with
  | .ok y => pure y
  | .error d => throw d

/-- Runs calls; gives what they come to, and the entries, the oldest first. -/
def Calls.go {α : Type} (m : Calls α) : Except Defect α × List Datum :=
  let (result, log) := m.run []
  (result, log.reverse)

/-! ## Causes -/

/-- What is shown of a leaf. -/
def ofLeaf : Leaf Datum → Datum
  | .fail e => tagged "fail" e
  | .die d => tagged "die" (.text d.message)
  | .interrupt id => tagged "int" (ofId true id)

/-- A cause of data. -/
def ofDatumCause (c : Cause Datum) : Datum := ofCause true id c

/-- Answers an inquiry about a cause. -/
def answerCause (request : Datum) : Datum :=
  let c := toCause evalPlain (request.field "cause")
  let known : List (String × Datum) :=
    [("cause", ofDatumCause c), ("leaves", .list (c.leaves.map ofLeaf)),
      ("failures", .list c.failures),
      ("defects", .list (c.defects.map fun d => .texts [d.message, d.display])),
      ("interruptors", .list ((FiberId.sorted c.interruptors).map (ofId true))),
      ("first_failure", .ofOption c.firstFailure?),
      ("interrupted_only", .bool c.isInterruptedOnly), ("is_die", .bool c.isDie),
      ("traces", .list (c.traces.map ofTrace)), ("stripped", ofDatumCause c.stripTraces),
      ("display", .text (c.display Datum.display)), ("pretty", .text (c.pretty Datum.display)),
      ("run_error", Session.showRunError (.ofCause c))]
  match request.field? "map" with
  | none => .object known
  | some f =>
      match Calls.go (c.mapM ((toFn f).eval []).callPlain) with
      | (.ok mapped, calls) =>
          .object (known ++ [("mapped", ofDatumCause mapped), ("calls", .list calls)])
      | (.error d, _) => panicked d

/-! ## Exits -/

/-- An exit of data. -/
def ofPlainExit (e : Exit Datum Datum) : Datum := ofDatumExit true e

/-- An exit with its value put through a function. -/
def mapExit (f : Fn) : Exit Datum Datum → Calls (Exit Datum Datum)
  | .success v => Exit.success <$> f.callPlain v
  | .failure c => pure (.failure c)

/-- An exit with its typed errors put through a function. -/
def mapExitError (f : Fn) : Exit Datum Datum → Calls (Exit Datum Datum)
  | .success v => pure (.success v)
  | .failure c => Exit.failure <$> c.mapM f.callPlain

/-- Answers an inquiry about an exit. -/
def answerExit (request : Datum) : Datum :=
  let e := toExit evalPlain (request.field "exit")
  let f := (toFn (request.field "f")).eval []
  let next := (request.field? "next").map (toCause evalPlain)
  match Calls.go (mapExit f e), Calls.go (mapExitError f e) with
  | (.ok mapped, _), (.ok mappedError, _) =>
      .object
        [("exit", ofPlainExit e), ("success", .bool e.isSuccess), ("failure", .bool e.isFailure),
          ("interrupted", .bool e.isInterrupted), ("value", .ofOption e.value?),
          ("cause", .ofOption (e.cause?.map ofDatumCause)), ("result", ofPlainExit e),
          ("map", ofPlainExit mapped), ("map_err", ofPlainExit mappedError),
          ("then", ofPlainExit (e.thenCause next)),
          ("unwrap", match e.unwrap Datum.compact with
            | .ok v => tagged "ok" v
            | .error d => panicked d)]
  | (.error d, _), _ => panicked d
  | _, (.error d, _) => panicked d

/-! ## Traces -/

/-- What is shown of a trace. -/
def traceSummary (t : Trace) : Datum :=
  .object
    [("frames", ofTrace t), ("len", .nat t.size), ("empty", .bool t.isEmpty),
      ("last", .ofOption (t.last?.map fun f => .text f.display)), ("display", .text t.display)]

/-- The traces after each of several pushes. -/
def pushAll (t : Trace) : List Datum → List Trace
  | [] => [t]
  | d :: rest => t :: pushAll (t.push (toFrame (d.item 0)) (d.item 1).asNat) rest

/-- Answers an inquiry about a trace. -/
def answerTrace (request : Datum) : Datum :=
  let start := match request.field? "frames" with
    | some frames => Trace.ofFrames (frames.items.map toFrame) (request.field "max").asNat
    | none => .empty
  .list ((pushAll start (request.field "push").items).map traceSummary)

/-! ## Instants and ids -/

/-- What is shown of an instant. -/
def timeSummary (t : Time) : Datum :=
  .list [.nat t.nanos, .nat t.millis, .text t.display, .text t.inspect]

/-- The word for an order. -/
def orderName : Ordering → String
  | .lt => "Less"
  | .eq => "Equal"
  | .gt => "Greater"

/-- Answers one call about instants. -/
def answerTimeCall (d : Datum) : Except Defect Datum :=
  let first := (d.item 1).asNat
  let second := (d.item 2).asNat
  match (d.item 0).asText with
  | "nanos" => .ok (timeSummary (.ofNanos first))
  | "millis" => .ok (timeSummary (.ofMillis first))
  | "secs" => .ok (timeSummary (.ofSecs first))
  | "max" => .ok (timeSummary .max)
  | "zero" => .ok (timeSummary .zero)
  | "add" => (toDuration (d.item 2)).map fun span => timeSummary ((Time.ofNanos first).add span)
  | "since" => .ok (.nat ((Time.ofNanos first).since (.ofNanos second)))
  | "cmp" => .ok (.text (orderName ((Time.ofNanos first).cmp (.ofNanos second))))
  | _ => .ok .null

/-- Answers an inquiry about instants; a panic of one call is the whole answer. -/
def answerTime (request : Datum) : Datum :=
  match (request.field "calls").items.mapM answerTimeCall with
  | .ok answers => .list answers
  | .error d => panicked d

/-- What is shown of an id. -/
def idSummary (id : FiberId) : Datum :=
  .list
    [.text id.display, .text id.inspect, .bool id.isNobody, .nat id.sequence,
      .nat id.startedAt.nanos, .bool (id == .nobody)]

/-- Answers an inquiry about ids. -/
def answerIds (request : Datum) : Datum :=
  let ids := (request.field "ids").items.map toId
  let sorted := ids.mergeSort fun a b => a.cmp b != .gt
  .object [("each", .list (ids.map idSummary)), ("sorted", .list (sorted.map (ofId true)))]

/-! ## Texts of settings -/

/-- Answers an inquiry about the text of a setting. -/
def answerParse (request : Datum) : Datum :=
  let s := (request.field "s").asText
  let answer : Except String String :=
    if (request.field "what").asText = "clock" then
      match ClockKind.parse s with
      | .ok k => .ok k.display
      | .error e => .error e.message
    else
      match Strategy.parse s with
      | .ok k => .ok k.display
      | .error e => .error e.message
  match answer with
  | .ok text => tagged "ok" (.text text)
  | .error message => fault "parse" message

end Fibers.Script
