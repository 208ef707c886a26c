set_option autoImplicit false

/-! # Time

A `Time` is a number of nanoseconds in 64 bits, counted from the start of a clock. The bound is
part of the type, and every way to make a time saturates at it. A `Duration` is a number of
nanoseconds without a bound: a delay may be longer than any clock can run, and adding it then
ends at the last instant.
-/

namespace Fibers

/-- A span of time in nanoseconds. -/
abbrev Duration := Nat

/-- The last instant a clock can show, in nanoseconds. -/
def Time.limit : Nat := Nat.pow 2 64 - 1

/-- An instant, in nanoseconds since the start of its clock. -/
structure Time where
  nanos : Nat
  nanos_le : nanos ≤ Time.limit
  deriving DecidableEq, Repr

namespace Time

/-- The instant `n` nanoseconds after the start, or the last instant if there is none. -/
def ofNanos (n : Nat) : Time := ⟨min n limit, Nat.min_le_right n limit⟩

/-- The start of a clock. -/
def zero : Time := ⟨0, Nat.zero_le _⟩

/-- The last instant. -/
def max : Time := ⟨limit, Nat.le_refl _⟩

instance : Inhabited Time := ⟨zero⟩

/-- The instant `n` milliseconds after the start. -/
def ofMillis (n : Nat) : Time := ofNanos (n * 1000000)

/-- The instant `n` seconds after the start. -/
def ofSecs (n : Nat) : Time := ofNanos (n * 1000000000)

/-- Whole milliseconds since the start. -/
def millis (t : Time) : Nat := t.nanos / 1000000

/-- The instant `d` after `t`, or the last instant. -/
def add (t : Time) (d : Duration) : Time := ofNanos (t.nanos + d)

/-- The span from `earlier` to `t`, zero if `earlier` is later. -/
def since (t earlier : Time) : Duration := t.nanos - earlier.nanos

/-- The later of two instants. -/
def latest (a b : Time) : Time := if a.nanos ≤ b.nanos then b else a

/-- The order of two instants. -/
def cmp (a b : Time) : Ordering := compare a.nanos b.nanos

/-! ## Text -/

/-- The instant with its unit of nanoseconds, in the form used inside other texts. -/
def inspect (t : Time) : String := s!"Time({t.nanos}ns)"

/-- Three digits with leading zeros. -/
def threeDigits (n : Nat) : String :=
  (if n < 100 then "0" else "") ++ (if n < 10 then "0" else "") ++ toString n

/-- The instant in the largest unit that gives a whole number; seconds show milliseconds. -/
def display (t : Time) : String :=
  if 1000000000 ≤ t.nanos then
    toString (t.nanos / 1000000000) ++ "." ++ threeDigits (t.nanos / 1000000 % 1000) ++ "s"
  else if 1000000 ≤ t.nanos then toString (t.nanos / 1000000) ++ "ms"
  else if 1000 ≤ t.nanos then toString (t.nanos / 1000) ++ "us"
  else toString t.nanos ++ "ns"

/-! ## Order -/

theorem ext {a b : Time} (h : a.nanos = b.nanos) : a = b := by
  cases a; cases b; simp_all

theorem nanos_ofNanos (n : Nat) : (ofNanos n).nanos = min n limit := rfl

theorem le_add (t : Time) (d : Duration) : t.nanos ≤ (t.add d).nanos := by
  have := t.nanos_le
  simp only [add, nanos_ofNanos]
  omega

theorem nanos_add_zero (t : Time) : (t.add 0).nanos = t.nanos := Nat.min_eq_left t.nanos_le

theorem le_latest_left (a b : Time) : a.nanos ≤ (latest a b).nanos := by
  unfold latest; split <;> omega

theorem le_latest_right (a b : Time) : b.nanos ≤ (latest a b).nanos := by
  unfold latest; split <;> omega

end Time

end Fibers
