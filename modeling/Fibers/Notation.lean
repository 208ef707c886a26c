import Fibers.Text.Decimal
import Fibers.Value

set_option autoImplicit false

/-! # The notation of ids, causes and exits

Scripts name fibers, causes and exits by plain data, and answers show them the same way. An id is
`F` with the sequence number, followed by `@` and the instant if the fiber did not start at the
start of the clock; on a wall clock instants are left out, which is what `stamped` says. A cause
or an exit is a record with one field, named for its constructor.
-/

namespace Fibers.Notation

variable {α ε : Type}

/-! ## Showing -/

/-- The text of an id. -/
def idText (stamped : Bool) (id : FiberId) : String :=
  if stamped && id.startedAt.nanos != 0 then
    id.display ++ "@" ++ toString id.startedAt.nanos
  else id.display

/-- An id. -/
def ofId (stamped : Bool) (id : FiberId) : Datum := .text (idText stamped id)

/-- The frames of a trace, oldest first. -/
def ofTrace (t : Trace) : Datum := .texts (t.frames.map Frame.display)

/-- A record with one field. -/
def tagged (name : String) (d : Datum) : Datum := .record [(name, d)]

/-- A cause. -/
def ofCause (stamped : Bool) (ofError : ε → Datum) : Cause ε → Datum
  | .fail e => tagged "fail" (ofError e)
  | .die d => tagged "die" (.text d.message)
  | .interrupt id => tagged "int" (ofId stamped id)
  | .andThen a b => tagged "then" (.list [ofCause stamped ofError a, ofCause stamped ofError b])
  | .both a b => tagged "both" (.list [ofCause stamped ofError a, ofCause stamped ofError b])
  | .traced c t => tagged "traced" (.list [ofCause stamped ofError c, ofTrace t])

/-- An exit. -/
def ofExit (stamped : Bool) (ofValue : α → Datum) (ofError : ε → Datum) : Exit α ε → Datum
  | .success v => tagged "ok" (ofValue v)
  | .failure c => tagged "err" (ofCause stamped ofError c)

/-- A value of any type: plain data shows as itself, nothing and integers have forms of their
own, and whatever else is opaque. -/
def ofValue : Value → Datum
  | .datum d => d
  | .unit => .text "<unit>"
  | .int n => tagged "raw" (.int n)
  | _ => .text "<opaque>"

/-- An exit with parts of any type. -/
def ofAnyExit (stamped : Bool) (e : AnyExit) : Datum := ofExit stamped ofValue ofValue e

/-! ## Reading ids and frames -/

/-- The number a text stands for; zero if it is none. -/
def number (chars : List Char) : Nat :=
  match Text.Decimal.parse (String.ofList chars) with
  | .ok n => n
  | .error _ => 0

/-- Reads an id. A part that is no number reads as zero, and so does a text without the mark of
an id. -/
def toId (d : Datum) : FiberId :=
  match d.asText.toList with
  | 'F' :: rest =>
      ⟨number (rest.takeWhile (· != '@')), .ofNanos (number ((rest.dropWhile (· != '@')).drop 1))⟩
  | _ => .nobody

/-- Reads a frame: a label, or a record for a fork or for the present location. -/
def toFrame (d : Datum) : Frame :=
  match d.field? "fork", d.field? "here" with
  | some id, _ => .fork (toId id)
  | none, some _ => .location
  | none, none => .label d.asText

/-- A natural number below `2 ^ 32`; zero elsewhere. -/
def asNat32 (d : Datum) : Nat := if d.asNat < Nat.pow 2 32 then d.asNat else 0

/-- Reads a duration: nanoseconds, or seconds and nanoseconds. The whole seconds among the
nanoseconds are carried, and a sum of seconds that does not fit in 64 bits is a defect. -/
def toDuration (d : Datum) : Except Defect Duration :=
  match d with
  | .list _ =>
      let secs := (d.item 0).asNat
      let nanos := asNat32 (d.item 1)
      if secs + nanos / 1000000000 < Nat.pow 2 64 then .ok (secs * 1000000000 + nanos)
      else .error ⟨"overflow in Duration::new"⟩
  | _ => .ok d.asNat

/-- Reads a strategy: its name, or the bound of a bounded one. -/
def toStrategy (d : Datum) : Strategy :=
  match d with
  | .int _ => .bounded d.asNat
  | .text "concurrent" => .concurrent
  | _ => .sequential

/-! ## Reading causes and exits

The typed errors and values in them are put through `eval`. -/

/-- The function of `try_map`: an integer from zero up is put in a list, anything else is
rejected. -/
def judge (d : Datum) : Except Defect Datum :=
  match d.asInt? with
  | some n => if n < 0 then .error ⟨"negative"⟩ else .ok (.list [.int n])
  | none => .error ⟨"not a number: " ++ d.display⟩

/-- Reads a cause of a nesting up to `fuel`. -/
def toCauseWithin (eval : Datum → Datum) : Nat → Datum → Cause Datum
  | fuel + 1, .record [(name, d)] =>
      let pair (join : Cause Datum → Cause Datum → Cause Datum) : Cause Datum :=
        join (toCauseWithin eval fuel (d.item 0)) (toCauseWithin eval fuel (d.item 1))
      match name with
      | "fail" => .fail (eval d)
      | "die" => .dieWith d.asText
      | "int" => .interrupt (toId d)
      | "ints" => (Cause.interrupts? (d.items.map toId)).getD (.dieWith "no ids")
      | "then" => pair .andThen
      | "both" => pair .both
      | "then_all" =>
          (toCauseWithin eval fuel (d.item 0)).andThenAll
            ((d.item 1).items.map (toCauseWithin eval fuel))
      | "traced" =>
          (toCauseWithin eval fuel (d.item 0)).withTrace
            (.ofFrames ((d.item 1).items.map toFrame) (d.item 2).asNat)
      | "strip" => (toCauseWithin eval fuel d).stripTraces
      | "try_map" => (toCauseWithin eval fuel d).tryMap judge
      | _ => .dieWith "bad cause"
  | _, _ => .dieWith "bad cause"

/-- Reads a cause. -/
def toCause (eval : Datum → Datum) (d : Datum) : Cause Datum := toCauseWithin eval d.depth d

/-- Reads an exit. -/
def toExit (eval : Datum → Datum) : Datum → Exit Datum Datum
  | .record [(name, d)] =>
      match name with
      | "ok" => .success (eval d)
      | "err" => .failure (toCause eval d)
      | "fail" => .fail (eval d)
      | "die" => .die d.asText
      | "int" => .interrupt (toId d)
      | "result_ok" => .ofExcept (.ok (eval d))
      | "result_err" => .ofExcept (.error (eval d))
      | _ => .die "bad exit"
  | _ => .die "bad exit"

/-- Reads an exit with parts of any type. -/
def toAnyExit (eval : Datum → Datum) (d : Datum) : AnyExit :=
  match d with
  | .record [("raw", n)] => .success (.int n.asInt)
  | .record [("unit", _)] => .success .unit
  | .record [("err_raw", c)] => .failure ((toCause eval c).map fun e => .int e.asInt)
  | _ => ((toExit eval d).map Value.datum).mapError Value.datum

end Fibers.Notation
