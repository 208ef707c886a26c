import Fibers.FiberId
import Fibers.Text.Quoted

set_option autoImplicit false

/-! # Traces

A trace is the list of frames, oldest first, that led to a point of a program: labels, source
locations and the points where a fiber was forked. A trace is kept under a bound by dropping its
oldest frames; a bound of zero keeps nothing and so turns tracing off.
-/

namespace Fibers

/-- One frame of a trace. -/
inductive Frame where
  | label (text : String)
  | location
  | fork (parent : FiberId)
  deriving DecidableEq, Repr

namespace Frame

/-- The text of a frame; every source location is shown alike. -/
def display : Frame → String
  | .label text => text
  | .location => "<loc>"
  | .fork parent => "forked from " ++ parent.display

/-- The text of a frame inside other texts. -/
def inspect : Frame → String
  | .label text => "Label(" ++ Text.quoted text ++ ")"
  | .location => "Location(<loc>)"
  | .fork parent => "Fork(" ++ parent.inspect ++ ")"

end Frame

/-- The newest `max` elements of a list whose oldest element comes first. -/
def newest {α : Type} (max : Nat) (xs : List α) : List α := xs.drop (xs.length - max)

/-- Frames, oldest first. -/
structure Trace where
  frames : List Frame
  deriving DecidableEq, Repr

namespace Trace

/-- The trace without frames. -/
def empty : Trace := ⟨[]⟩

instance : Inhabited Trace := ⟨empty⟩

/-- Adds a frame as the newest and drops the oldest frames beyond `max`; with a bound of zero
the trace stays as it is. -/
def push (t : Trace) (frame : Frame) (max : Nat) : Trace :=
  if max = 0 then t else ⟨newest max (t.frames ++ [frame])⟩

/-- The trace of a list of frames, pushed one after the other. -/
def ofFrames (frames : List Frame) (max : Nat) : Trace :=
  frames.foldl (fun t frame => t.push frame max) empty

/-- The number of frames. -/
def size (t : Trace) : Nat := t.frames.length

/-- Whether there are no frames. -/
def isEmpty (t : Trace) : Bool := t.frames.isEmpty

/-- The newest frame. -/
def last? (t : Trace) : Option Frame := t.frames.getLast?

/-- The lines of a trace, newest frame first, each behind `pad`. -/
def lines (pad : String) (t : Trace) : String :=
  String.join (t.frames.reverse.map fun frame => pad ++ "    at " ++ frame.display ++ "\n")

/-- The text of a trace: one line a frame, newest first. -/
def display (t : Trace) : String := t.lines ""

/-- The text of a trace inside other texts, oldest frame first. -/
def inspect (t : Trace) : String :=
  "Trace \x7b frames: [" ++ ", ".intercalate (t.frames.map Frame.inspect) ++ "] \x7d"

/-! ## The bound -/

theorem newest_zero {α : Type} (xs : List α) : newest 0 xs = [] := by simp [newest]

/-- What is dropped first does not count afterwards. -/
theorem newest_append_newest {α : Type} (max : Nat) (xs ys : List α) :
    newest max (newest max xs ++ ys) = newest max (xs ++ ys) := by
  unfold newest
  rcases Nat.lt_or_ge max xs.length with hlt | hge
  · have hkept : (xs.drop (xs.length - max)).length = max := by
      rw [List.length_drop]
      omega
    rw [List.drop_append, List.drop_append, List.drop_drop, List.length_append, List.length_append, hkept]
    have hfirst : xs.length - max + (max + ys.length - max) = xs.length + ys.length - max := by omega
    have hsecond : max + ys.length - max - max = xs.length + ys.length - max - xs.length := by omega
    rw [hfirst, hsecond]
  · rw [show xs.length - max = 0 by omega, List.drop_zero]

/-- Pushing frames one after the other keeps the newest of them all. -/
theorem frames_ofFrames (frames : List Frame) (max : Nat) (h : max ≠ 0) :
    (ofFrames frames max).frames = newest max frames := by
  have key : ∀ (later earlier : List Frame) (t : Trace), t.frames = newest max earlier →
      (later.foldl (fun t frame => t.push frame max) t).frames = newest max (earlier ++ later) := by
    intro later
    induction later with
    | nil => intro earlier t ht; simpa using ht
    | cons x rest ih =>
        intro earlier t ht
        have hx : (t.push x max).frames = newest max (earlier ++ [x]) := by
          simp only [push, if_neg h, ht]
          exact newest_append_newest max earlier [x]
        simpa using ih (earlier ++ [x]) (t.push x max) hx
  unfold ofFrames
  simpa using key frames [] empty (by simp [empty, newest])

/-- The trace of some frames has the newest of them. -/
theorem ofFrames_eq (frames : List Frame) (max : Nat) : ofFrames frames max = ⟨newest max frames⟩ := by
  rcases Nat.eq_zero_or_pos max with rfl | hmax
  · have key : ∀ t : Trace, frames.foldl (fun t frame => t.push frame 0) t = t := by
      induction frames with
      | nil => intro t; rfl
      | cons x rest ih => intro t; exact ih t
    rw [newest_zero]
    exact key .empty
  · have h := frames_ofFrames frames max (by omega)
    rw [← h]

end Trace

end Fibers
