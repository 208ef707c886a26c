import Fibers.Program

set_option autoImplicit false

/-! # Building programs

The vocabulary in which programs are written. Each combinator is a fixed arrangement of
instructions, and the arrangement matters: a fiber yields after a number of steps, so two
arrangements with the same meaning may be told apart by when others get their turn.

Functions that users supply are acts. A combinator that expects a value of a certain type takes
the carrier of the type and dies where the value is of another.
-/

namespace Fibers

variable {σ : Type} {α : Type}

/-- Goes on with a value of the expected type, or with a program that dies. -/
def Carrier.expect (c : Carrier α) (v : Value) (k : α → Act σ .program) : Act σ .program :=
  match c.cast v with
  | .ok a => k a
  | .error d => .program (.failCause (.die d))

namespace Act

/-- An act that gives back the program that succeeds with a value. -/
def value (v : Value) : Act σ .program := .program (.succeed v)

/-- Goes on with the context that a value holds. -/
def withContext (v : Value) (k : Context → Act σ .program) : Act σ .program :=
  match v with
  | .context c => k c
  | _ => .panic "value is not a context"

/-- Goes on with the scope that a value holds. -/
def withScope (v : Value) (k : Key .scope → Act σ .program) : Act σ .program :=
  match v with
  | .scope s => k s
  | _ => .panic "value is not a scope"

end Act

namespace Program

/-! ## Values and failures -/

/-- The program that succeeds with nothing. -/
def unit : Program σ := .succeed .unit

/-- The program that dies. -/
def die (message : String) : Program σ := .failCause (.dieWith message)

/-- The program that ends with an exit. -/
def ofExit : AnyExit → Program σ
  | .success v => .succeed v
  | .failure c => .failCause c

/-! ## Sequencing -/

/-- Runs `p`, then the program made from its value. -/
def bind (c : Carrier α) (p : Program σ) (k : α → Act σ .program) : Program σ :=
  .flatMap p (.apply fun v => c.expect v k)

/-- Runs `p`, then the program made from its value of whatever type. -/
def bindAny (p : Program σ) (k : Value → Act σ .program) : Program σ := .flatMap p (.apply k)

/-- Replaces the value of `p`. -/
def mapAny (p : Program σ) (f : Value → Value) : Program σ := p.bindAny fun v => .value (f v)

/-- Runs `p`, then `q`, and keeps the value of `q`. -/
def andThen (p q : Program σ) : Program σ := .flatMap p (.next q)

/-! ## Failures -/

/-- Runs `p` and gives its exit as a value. -/
def captured (p : Program σ) : Program σ := .fold p .capture (.sequel .captured)

/-- Runs `p` and gives its exit as a value; parts of another type than expected are defects. -/
def exit (c : Carrier α) (p : Program σ) : Program σ :=
  p.captured.mapAny fun v => .exit (c.wrapExit (c.castExit v.asExit))

/-- Runs `p`, then one of two programs made from its cause or its value. -/
def foldCause (c : Carrier α) (p : Program σ) (failed : Cause α → Act σ .program)
    (succeeded : α → Act σ .program) : Program σ :=
  .fold p (.apply fun cause => failed (c.castCause cause)) (.apply fun v => c.expect v succeeded)

/-- Runs `p`; a failure is recovered by the program made from its cause. -/
def catchCause (c : Carrier α) (p : Program σ) (failed : Cause α → Act σ .program) : Program σ :=
  .fold p (.apply fun cause => failed (c.castCause cause)) (.apply .value)

/-- Runs `p`; its first typed failure is recovered, and a cause without one stays as it is. -/
def recover (c : Carrier α) (p : Program σ) (failed : α → Act σ .program) : Program σ :=
  .fold p
    (.apply fun cause =>
      match cause.firstFailure? with
      | some e => c.expect e failed
      | none => .program (.failCause cause))
    (.apply .value)

/-! ## Cleaning up -/

/-- Runs `p`, then, whatever its exit, the program made from it. -/
def cleanup (p : Program σ) (fin : AnyExit → Act σ .program) : Program σ := .ensuring p (.apply fin)

/-! ## Fibers -/

/-- Starts `p` in a child and gives the child. -/
def forkWith (p : Program σ) (params : ForkParams) : Program σ :=
  (Program.fork p params).bindAny .value

/-- Starts `p` in a fiber that the closing of the current scope does not reach. -/
def forkDaemon (p : Program σ) : Program σ :=
  Program.fiberScope.bindAny fun v => .withScope v fun s =>
    .ask (.scope s) fun view =>
      .call (.newScope .nobody view.strategy) fun detached =>
        .program (p.forkWith { scope := some detached })

/-- Waits for a fiber and gives its exit. -/
def awaitExit (c : Carrier α) (f : Key .fiber) : Program σ :=
  (Program.wait (.done f)).mapAny fun v => .exit (c.wrapExit (c.castExit v.asExit))

/-- Interrupts a fiber in the name of the current one, waits for it and gives its exit. -/
def interrupt (c : Carrier α) (f : Key .fiber) : Program σ :=
  Program.fiberContext.bindAny fun v => .withContext v fun cx =>
    .call (.interruptFiber f cx.id) fun _ => .program (awaitExit c f)

/-- Runs two programs side by side and ends with the first exit. -/
def race (p q : Program σ) : Program σ := .raceAll [p, q]

/-- Goes on with the values of a list that are all of the expected type. -/
def expectAll (c : Carrier α) (v : Value) : Act σ .program :=
  match v.asList.mapM c.cast with
  | .ok as => .value (.list (as.map c.wrap))
  | .error d => .program (.failCause (.die d))

/-- Runs programs side by side and gives the list of their values. -/
def zipAllOf (c : Carrier α) (ps : List (Program σ)) : Program σ :=
  (Program.zipAll ps).bindAny (expectAll c)

/-! ## Interruption, concurrency, time -/

/-- Runs `p` with at most `level` of the children forked inside at once. -/
def bounded (p : Program σ) (level : Nat) : Program σ := .withConcurrency p (max 1 level)

/-- Runs `p` with interruption put off. -/
def uninterruptible (p : Program σ) : Program σ := .mask p false

/-- Runs `p` with interruption let in. -/
def interruptible (p : Program σ) : Program σ := .mask p true

/-- Waits for a span of time. The timer is dropped if the fiber is interrupted first. -/
def sleep (span : Duration) : Program σ :=
  Program.fiberContext.bindAny fun _ =>
    .program (.async fun f =>
      .call (.alarm span f) fun id =>
        .pending (some (.lazy (.call (.cancelTimer id) fun _ => .exit (.success .unit)))))

/-- Runs `p`; gives its value, or nothing if a span of time passes first. -/
def timeout (c : Carrier α) (p : Program σ) (span : Duration) : Program σ :=
  race (p.bind c fun a => .value (.option (some (c.wrap a))))
    ((sleep span).bindAny fun _ => .value (.option none))

/-! ## Services -/

/-- The service of a type, as a value. -/
def serviceValue? (s : Services) : ServiceKey → Option Value
  | .int => s.int.map .int
  | .text => s.text.map .text
  | .flag => s.flag.map .flag
  | .byte => s.byte.map .byte

/-- Gives the service of a type; dies if there is none. -/
def service (key : ServiceKey) : Program σ :=
  .access fun s =>
    match serviceValue? s key with
    | some v => .program (.succeed v)
    | none => .program (.die ("service `" ++ key.typeName ++ "` not found"))

/-! ## Semaphores -/

/-- Runs `p` with a permit. -/
def withPermit (s : Key .semaphore) (p : Program σ) : Program σ := .duty (.guarded s p)

/-- Gets a permit and gives it. -/
def acquire (s : Key .semaphore) : Program σ := .duty (.acquire s)

/-! ## Scopes -/

/-- Claims and runs the finalizers of a closing scope, unless somebody else has claimed them. -/
def finishScope (s : Key .scope) : Program σ := uninterruptible (.duty (.finish s))

/-- Closes a scope and tells whether this was the first request. -/
def closeScope (s : Key .scope) (exit : AnyExit) : Program σ := .duty (.close s exit)

/-- Waits until a scope is closed and gives its exit. -/
def waitScope (s : Key .scope) : Program σ := .wait (.closed s)

/-- Closes a scope, or waits for the one who does, and gives its exit. -/
def closeOrWaitScope (s : Key .scope) (exit : AnyExit) : Program σ :=
  (closeScope s exit).andThen (waitScope s)

/-- Sees a close that was requested elsewhere through and gives the exit of the scope. -/
def awaitScope (s : Key .scope) : Program σ := (finishScope s).andThen (waitScope s)

/-- Takes a finalizer out of its scope and runs it; tells whether it was still there. -/
def release (h : Handle) (exit : AnyExit) : Program σ := uninterruptible (.duty (.release h exit))

/-! ## Fiber references -/

/-- The value of a reference. -/
def getRef (r : FiberRef) : Program σ :=
  Program.fiberContext.bindAny fun v => .withContext v fun cx =>
    .ask (.refs cx.refs) fun m => .value (.datum (m.read r))

/-- Replaces the value of a reference. -/
def setRef (r : FiberRef) (d : Datum) : Program σ :=
  Program.fiberContext.bindAny fun v => .withContext v fun cx =>
    .call (.writeRef cx.refs r d) fun _ => .value .unit

/-- Applies a function with effects to the value of a reference. -/
def updateRef (r : FiberRef) (f : Datum → (Datum → Act σ .program) → Act σ .program) : Program σ :=
  Program.fiberContext.bindAny fun v => .withContext v fun cx =>
    .ask (.refs cx.refs) fun m => f (m.read r) fun d =>
      .call (.writeRef cx.refs r d) fun _ => .value .unit

/-- Runs `p` with a reference set to a value; afterwards the reference has its former value. -/
def locally (c : Carrier Datum) (r : FiberRef) (d : Datum) (p : Program σ) : Program σ :=
  (getRef r).bind c fun previous =>
    .program (((setRef r d).andThen p).cleanup fun _ => .program (setRef r previous))

end Program

end Fibers
