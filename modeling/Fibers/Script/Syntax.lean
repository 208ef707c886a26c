import Fibers.Script.Board

set_option autoImplicit false

/-! # The syntax of scripts

A script consists of programs and actions. Where a program stands in another one it is built
together with it; where the doc comments say *late* it is built at the time it is reached, so the
variables bound by then can stand in it.

Data in a program are expressions: a record with the field `$` stands for the variable of that
name, and lists and other records are evaluated inside.
-/

namespace Fibers.Script

/-- The data bound to variables, the latest bound first. -/
abbrev Vars := List (String × Datum)

/-- The value of a variable; an unbound one is null. -/
def Vars.get (vars : Vars) (name : String) : Datum :=
  ((vars.find? (·.1 == name)).map (·.2)).getD .null

/-- The name of the variable that the fields of a record stand for. -/
def variableOf? (fields : List (String × Datum)) : Option String :=
  (fields.find? (·.1 == "$")).map fun f => f.2.asText

mutual

/-- The value of an expression. -/
def eval (vars : Vars) : Datum → Datum
  | .list xs => .list (evalItems vars xs)
  | .record fs =>
      match variableOf? fs with
      | some name => vars.get name
      | none => .record (evalFields vars fs)
  | d => d

/-- The values of the elements of a list. -/
def evalItems (vars : Vars) : List Datum → List Datum
  | [] => []
  | d :: rest => eval vars d :: evalItems vars rest

/-- The values of the fields of a record. -/
def evalFields (vars : Vars) : List (String × Datum) → List (String × Datum)
  | [] => []
  | (n, d) :: rest => (n, eval vars d) :: evalFields vars rest

end

/-! ## Functions -/

/-- A function on data. Sums and products wrap around in 64 bits; a function leaves a datum of
another type than it works on as it is. -/
inductive Fn where
  | add (n : Int)
  | mul (n : Int)
  | concat (text : String)
  | const (v : Datum)
  | wrap (name : String)
  | pair (v : Datum)
  | log (tag : Datum)
  | panic (message : String)
  | same

/-- The function with its expressions evaluated. -/
def Fn.eval (vars : Vars) : Fn → Fn
  | .const v => .const (Script.eval vars v)
  | .pair v => .pair (Script.eval vars v)
  | f => f

/-- What a function does: an entry of the log, if it makes one, and its value or its panic. -/
def Fn.apply (f : Fn) (x : Datum) : Option Datum × Except Defect Datum :=
  match f with
  | .add n =>
      match x.asInt? with
      | some m => (none, .ok (.int (wrap64 (m + n))))
      | none => (none, .ok x)
  | .mul n =>
      match x.asInt? with
      | some m => (none, .ok (.int (wrap64 (m * n))))
      | none => (none, .ok x)
  | .concat text =>
      match x with
      | .text s => (none, .ok (.text (s ++ text)))
      | _ => (none, .ok x)
  | .const v => (none, .ok v)
  | .wrap name => (none, .ok (.record [(name, x)]))
  | .pair v => (none, .ok (.list [x, v]))
  | .log tag => (some (.list [tag, x]), .ok x)
  | .panic message => (none, .error ⟨message⟩)
  | .same => (none, .ok x)

/-- Calls a function within an act. -/
def Fn.call (f : Fn) (x : Datum) : Proc Board Datum := do
  let (entry, result) := f.apply x
  match entry with
  | some d => note d
  | none => pure ()
  match result with
  | .ok y => pure y
  | .error d => .panic d.message

/-! ## Policies of references -/

/-- A datum as a number for the policies; what is no number counts as zero. -/
def amount (d : Datum) : Int := d.asInt

/-- The policies a reference can be made with. -/
inductive PolicyName where
  | childWins
  | sum
  | max
  | pair
  | parentWins
  | badFork
  | badJoin

/-- What a policy does. -/
def PolicyName.policy : PolicyName → RefPolicy
  | .childWins => .childWins
  | .sum => ⟨fun _ => .ok (.int 0), fun a b => .ok (.int (wrap64 (amount a + amount b)))⟩
  | .max => ⟨.ok, fun a b => .ok (.int (if amount a ≤ amount b then amount b else amount a))⟩
  | .pair => ⟨fun v => .ok (.record [("forked", v)]), fun a b => .ok (.list [a, b])⟩
  | .parentWins => ⟨.ok, fun a _ => .ok a⟩
  | .badFork => ⟨fun _ => .error ⟨"fork policy"⟩, fun _ b => .ok b⟩
  | .badJoin => ⟨.ok, fun _ _ => .error ⟨"join policy"⟩⟩

/-! ## Programs and actions -/

/-- What an observer does after it has made its entry in the log. -/
inductive ObserverMode where
  | quiet
  | panic
  | reenter

/-- What a text about the system's state is asked of. -/
inductive Subject where
  | fiber (f : Name)
  | context (f : Name)
  | callback (c : Name)
  | future (f : Name)
  | semaphore (s : Name)
  | permit (p : Name)
  | scope (s : Name)
  | handle (h : Name)
  | refs (m : Name)
  | ref (r : Name)
  | runtime
  | platform
  | scheduler
  | pending
  | pendingWith
  | instruction (tag : String)
  | joining (f : Name)
  | waiting (f : Name)
  | unknown

mutual

/-- A program. -/
inductive Prog where
  | succeed (v : Datum)
  | fail (v : Datum)
  | die (message : String)
  | unit
  | failCause (cause : Datum)
  | ofExit (exit : Datum)
  | log (v : Datum)
  | panic (message : String)
  | attempt (ok : Bool) (v : Datum)
  | act (a : Action)
  | bump (counter : Name) (amount : Int)
  | defer (late : Prog)
  | map (p : Prog) (f : Fn)
  | mapError (p : Prog) (f : Fn)
  | flatMap (p : Prog) (x : String) (late : Prog)
  | andThen (p q : Prog)
  | seq (ps : List Prog)
  | asUnit (p : Prog)
  | fold (p : Prog) (c : String) (failed : Prog) (x : String) (succeeded : Prog)
  | catchCause (p : Prog) (c : String) (late : Prog)
  | recover (p : Prog) (e : String) (late : Prog)
  | exit (p : Prog)
  | ensuring (p : Prog) (e : String) (late : Prog)
  | ifEqual (v w : Datum) (p q : Prog)
  | fork (name : Name) (p : Prog)
  | forkDaemon (name : Name) (p : Prog)
  | forkWith (name : Name) (p : Prog) (scope refs : Name) (concurrency : Option Nat)
  | join (f : Name)
  | await (f : Name)
  | interrupt (f : Name)
  | raceAll (ps : List Prog)
  | zipAll (ps : List Prog)
  | withConcurrency (level : Nat) (p : Prog)
  | mask (interruptible : Bool) (p : Prog)
  | asyncReady (late : Prog)
  | async (name : Name) (canceler : Option Prog)
  | asyncNow (late : Prog) (canceler : Option Prog)
  | asyncAfter (delay : Datum) (late : Prog)
  | asyncElsewhere (delay : Duration) (p : Prog)
  | wait (f : Name)
  | timeout (span : Datum) (p : Prog)
  | sleep (span : Datum)
  | yieldNow
  | access
  | service (key : ServiceKey)
  | provide (services : List (ServiceKey × Datum)) (p : Prog)
  | traced (frame : Frame) (p : Prog)
  | trace
  | context
  | parent
  | now
  | scope (name : Name)
  | saveRefs (name : Name)
  | scopeClose (s : Name) (exit : Datum)
  | scopeCloseOrWait (s : Name) (exit : Datum)
  | scopeWait (s : Name)
  | release (h : Name) (exit : Datum)
  | refGet (r : Name)
  | refSet (r : Name) (v : Datum)
  | refUpdate (r : Name) (f : Fn)
  | locally (r : Name) (v : Datum) (p : Prog)
  | withPermit (s : Name) (p : Prog)
  | acquire (s permit : Name)
  | mapChain (n : Nat)
  | flatChain (n : Nat)
  | rightChain (n : Nat)
  | loop (n : Nat) (late : Prog)
  | bad (name : String)

/-- An action: something done at once, by a step of the script or within a program. -/
inductive Action where
  | interruptAs (f : Name) (id : FiberId)
  | status (f : Name)
  | poll (f : Name)
  | isDone (f : Name)
  | fiberTrace (f : Name)
  | fiberContext (f : Name)
  | observe (f name : Name) (mode : ObserverMode)
  | unobserve (name : Name)
  | complete (callback : Name) (p : Prog)
  | callbackSucceed (callback : Name) (v : Datum)
  | callbackFail (callback : Name) (v : Datum)
  | callbackPending (callback : Name)
  | futureNew (name : Name)
  | futureResolved (name : Name) (p : Prog)
  | resolve (f : Name) (p : Prog)
  | futureInterrupt (f : Name) (id : FiberId)
  | futureState (f : Name)
  | futureObserve (f : Name) (tag : Datum) (mode : ObserverMode)
  | futureUnobserve (f tag : Name)
  | semaphoreNew (name : Name) (permits : Nat)
  | semaphoreState (s : Name)
  | tryAcquire (s permit : Name)
  | permitRelease (p : Name)
  | permitClone (p name : Name)
  | permitHeld (p : Name)
  | scopeNew (name : Name) (owner : FiberId) (strategy : Strategy)
  | scopeFork (s name : Name) (owner : FiberId)
  | scopeEnsuring (s handle : Name) (e : String) (late : Prog)
  | scopeState (s : Name)
  | handleCancel (h : Name)
  | refNew (name : Name) (initial : Datum) (policy : PolicyName)
  | refSameId (r q : Name)
  | refsNew (name : Name)
  | refsFork (m name : Name)
  | refsJoin (m child : Name)
  | refsClone (m name : Name)
  | refsOf (m f : Name)
  | refsSize (m : Name)
  | refGetIn (r m : Name)
  | refSetIn (r m : Name) (v : Datum)
  | counter (name : Name)
  | inspect (subject : Subject)
  | inspectProgram (p : Prog) (ready : Bool)
  | bad (name : String)

end

instance : Inhabited Prog := ⟨.unit⟩

end Fibers.Script
