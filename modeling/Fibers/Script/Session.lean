import Fibers.Script.Setup

set_option autoImplicit false

/-! # Running scripts

A session is a runtime, or a lab, and the script's steps change it one after the other. The
answer to a step holds its result, the entries made in the log meanwhile and, on virtual time,
what the queue looks like afterwards. A panic that escapes a step is its result, and the next
step goes on from there.
-/

namespace Fibers.Script

open Fibers.Notation

/-- A running script: the system, and the settings of the lab if it is one. -/
structure Session where
  world : World Board
  lab : Option LabConfig

namespace Session

/-- The tasks and steps that a session grants to each of its own steps. -/
def fuel : Nat := 1000000000

/-- A session with nothing done yet. -/
def start (config : Config) (services : Services) (lab : Option LabConfig) : Session :=
  { world := .new config services { stamped := config.clock == .virtual }, lab }

/-- The result that a verdict shows. -/
def shown {α : Type} (show_ : α → Datum) : Verdict α → Datum
  | .finished a => show_ a
  | .panicked d => panicked d
  | .unfinished => fault "unfinished" "out of fuel"

/-- The session after its world was put through something that gives a verdict. -/
def drive {α : Type} (s : Session) (show_ : α → Datum) (result : World Board × Verdict α) :
    Session × Datum :=
  ({ s with world := result.1 }, shown show_ result.2)

/-- Puts the program in a step, built from the board of the moment, to some use. -/
def withProgram (s : Session) (d : Datum) (use : Program Board → Session × Datum) :
    Session × Datum :=
  match (toProg d).build [] s.world.board with
  | .ok p => use p
  | .error d => (s, panicked d)

/-- Puts the duration in a step to some use. -/
def withSpan (s : Session) (d : Datum) (use : Duration → Session × Datum) : Session × Datum :=
  match toDuration d with
  | .ok span => use span
  | .error d => (s, panicked d)

/-- Whether ids show instants. -/
def stamped (s : Session) : Bool := s.world.board.stamped

/-- What is shown of the exit of a run. -/
def showExit (stamped : Bool) (e : AnyExit) : Datum :=
  match datum.castExit e with
  | .success d => tagged "ok" d
  | .failure c =>
      .object [("err", ofCause stamped id c), ("pretty", .text (c.pretty Datum.display))]

/-- What is shown of the failure of a run. -/
def showRunError (e : RunError Datum) : Datum :=
  .object
    [("kind", .text (match e with
        | .failed _ => "failed"
        | .died _ => "died"
        | .interrupted _ => "interrupted")),
      ("text", .text (e.display Datum.compact)), ("failure", .ofOption e.failure?),
      ("is_interrupted", .bool e.isInterrupted), ("is_died", .bool e.isDied)]

/-- What is shown of the value of a run, or of its failure. -/
def showRun (e : AnyExit) : Datum :=
  match datum.castExit e with
  | .success d => tagged "ok" d
  | .failure c => tagged "run_error" (showRunError (.ofCause c))

/-- Does what a step says and gives its result. -/
def perform (s : Session) (d : Datum) : Session × Datum :=
  let host := World.host fuel
  match (d.item 0).asText, s.lab with
  | "run", _ => s.withProgram (d.item 1) fun p => s.drive showRun (s.world.runExit fuel p)
  | "run_exit", _ => s.withProgram (d.item 1) fun p =>
      s.drive (showExit s.stamped) (s.world.runExit fuel p)
  | "run_fiber", _ => s.withProgram (d.item 2) fun p =>
      let (w, f) := s.world.runFiber p
      let fibers := w.board.fibers.put (toName (d.item 1)) f
      let w := { w with board := { w.board with fibers } }
      ({ s with world := w },
        .ofOption ((w.fibers.get? f).map fun fiber => ofId s.stamped fiber.context.id))
  | "advance", _ => s.withSpan (d.item 1) fun span =>
      s.drive .nat (host.advance fuel span s.world)
  | "advance_to", some _ => s.withSpan (d.item 1) fun span =>
      s.drive .nat (s.world.advanceTo fuel (.ofNanos span))
  | "run_ready", _ => s.drive .nat (host.runReady fuel s.world)
  | "run_until_idle", _ => s.drive .nat (host.runUntilIdle fuel s.world)
  | "is_quiescent", some _ => (s, .bool s.world.isQuiescent)
  | "shutdown", _ => s.drive .nat (s.world.shutdown fuel)
  | "config", some c =>
      (s, .list [.nat c.maxOps, .nat c.maxTrace, .nat c.concurrency,
        .text c.finalization.display, .bool c.panicOnLeak])
  | "config", none => (s, .object (configFields s.world.survey.config))
  | _, _ =>
      let act : Act Board .exit := Proc.thunk (Value.datum <$> (toAction d).perform [])
      match s.world.run act with
      | (w, .ok (.success (.datum d))) => ({ s with world := w }, d)
      | (w, .ok _) => ({ s with world := w }, .null)
      | (w, .error d) => ({ s with world := w }, panicked d)

/-- Takes the entries out of the log. -/
def drain (s : Session) : Session × Datum :=
  let (entries, board) := s.world.board.drain
  ({ s with world := { s.world with board } }, .list entries)

/-- Does what a step says and gives the answer to it. -/
def step (s : Session) (d : Datum) : Session × Datum :=
  let (s, result) := s.perform d
  let (s, log) := s.drain
  let w := s.world
  let state : String × Datum :=
    if w.timers.clock.isVirtual then
      ("s", .list [.nat w.now.nanos, .nat w.timers.executed, .nat w.timers.pending,
        .nat w.roots.length])
    else ("roots", .nat w.roots.length)
  (s, .object [("r", result), ("log", log), state])

/-- Does what several steps say and gives the answers. -/
def steps (s : Session) : List Datum → Session × List Datum
  | [] => (s, [])
  | d :: rest =>
      let (s, answer) := s.step d
      let (s, answers) := s.steps rest
      (s, answer :: answers)

end Session

/-- Answers a script on a lab. -/
def answerLab (request : Datum) : Datum :=
  let lab := toLabConfig (request.field "config")
  .list ((Session.start lab.config .empty (some lab)).steps (request.field "steps").items).2

/-- Answers a script on a runtime. -/
def answerRuntime (request : Datum) : Datum :=
  match Setup.ofRequest request with
  | .error e => rejected e
  | .ok s =>
      let session := Session.start s.builder.resolve s.services none
      .list (session.steps (request.field "steps").items).2

/-- Answers a script that is the body of a lab test. -/
def answerLabTest (request : Datum) : Datum :=
  let lab := toLabConfig (request.field "config")
  let (s, answers) :=
    (Session.start lab.config .empty (some lab)).steps (request.field "steps").items
  let (s, verdict) := s.drive (fun _ => .text "no leak") (s.world.endLab Session.fuel lab)
  .object [("steps", .list answers), ("end", verdict), ("log", s.drain.2)]

end Fibers.Script
