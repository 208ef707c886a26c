import Fibers.Cause
import Fibers.Datum

set_option autoImplicit false

/-! # Fiber references

A fiber reference is a variable with a value of its own in every fiber. The values of one fiber
form a map. Forking a fiber gives the child a copy of the map in which every value went through
the `fork` function of its reference; joining a child merges back the values it wrote, through
the `join` function of the parent's entry. A reference without an entry reads as its initial
value.

The functions of a reference may panic. The entries are kept in the order in which they were
first written, and a merge that panics keeps what it merged before.
-/

namespace Fibers

/-- What a child starts with, and what a parent keeps when it joins the child. -/
structure RefPolicy where
  fork : Datum → Except Defect Datum
  join : Datum → Datum → Except Defect Datum

/-- A reference: its number, the value it reads as where nothing was written, and its policy. -/
structure FiberRef where
  id : Nat
  initial : Datum
  policy : RefPolicy

/-- The policy that copies on fork and lets the child win on join. -/
def RefPolicy.childWins : RefPolicy := ⟨.ok, fun _ child => .ok child⟩

/-- The value of one reference, and whether the fiber wrote it since it was forked. -/
structure RefEntry where
  ref : FiberRef
  value : Datum
  touched : Bool

/-- The values of one fiber. -/
structure FiberRefs where
  entries : List RefEntry := []

namespace FiberRefs

instance : Inhabited FiberRefs := ⟨{}⟩

/-- The map without values. -/
def empty : FiberRefs := {}

/-- The number of references with a value. -/
def size (m : FiberRefs) : Nat := m.entries.length

/-- The entry of a reference. -/
def entry? (m : FiberRefs) (r : FiberRef) : Option RefEntry := m.entries.find? (·.ref.id == r.id)

/-- The value of a reference. -/
def read (m : FiberRefs) (r : FiberRef) : Datum := ((m.entry? r).map (·.value)).getD r.initial

/-- The entries with that of `e.ref` replaced by `e`, or `e` at the end. -/
def put (e : RefEntry) : List RefEntry → List RefEntry
  | [] => [e]
  | f :: rest => if f.ref.id == e.ref.id then e :: rest else f :: put e rest

/-- Writes the value of a reference. -/
def write (m : FiberRefs) (r : FiberRef) (value : Datum) : FiberRefs :=
  ⟨put ⟨r, value, true⟩ m.entries⟩

/-- The entry a child starts with. -/
def forkEntry (e : RefEntry) : Except Defect RefEntry :=
  (e.ref.policy.fork e.value).map fun value => { e with value, touched := false }

/-- The map of a child. -/
def fork (m : FiberRefs) : Except Defect FiberRefs := (m.entries.mapM forkEntry).map (⟨·⟩)

/-- Merges one entry that a child wrote. -/
def joinEntry (m : FiberRefs) (theirs : RefEntry) : Except Defect FiberRefs :=
  match m.entry? theirs.ref with
  | none => .ok ⟨m.entries ++ [theirs]⟩
  | some ours =>
      (ours.ref.policy.join ours.value theirs.value).map fun value =>
        ⟨put { ours with value, touched := true } m.entries⟩

/-- Merges entries one after the other, up to the first panic. -/
def joinEntries (m : FiberRefs) : List RefEntry → FiberRefs × Except Defect Unit
  | [] => (m, .ok ())
  | e :: rest =>
      match m.joinEntry e with
      | .ok m => m.joinEntries rest
      | .error d => (m, .error d)

/-- Merges what a child wrote. -/
def join (m child : FiberRefs) : FiberRefs × Except Defect Unit :=
  m.joinEntries (child.entries.filter (·.touched))

/-- The text of a map. -/
def inspect (m : FiberRefs) : String := "FiberRefs \x7b len: " ++ toString m.size ++ " \x7d"

end FiberRefs

end Fibers
