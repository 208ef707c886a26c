set_option autoImplicit false

/-! # Stores

The parts of a running system (fibers, scopes, futures and the like) refer to one another, so
they live in stores and are named by keys. A key carries the kind of thing it leads to in its
type. A store only grows: a key that was handed out stays valid, and a key that was not leads
nowhere.
-/

namespace Fibers

/-- What a key leads to. -/
inductive Kind where
  | fiber
  | scope
  | future
  | semaphore
  | refs
  | tally
  deriving DecidableEq, Repr

/-- The name of a thing in the store of its kind. -/
structure Key (kind : Kind) where
  index : Nat
  deriving DecidableEq, Inhabited, Repr

/-- The things of one kind, in the order they were made. -/
structure Store (kind : Kind) (α : Type) where
  items : Array α

namespace Store

variable {kind : Kind} {α : Type}

/-- The store without things. -/
def empty : Store kind α := ⟨#[]⟩

instance : Inhabited (Store kind α) := ⟨empty⟩

/-- The thing a key leads to. -/
def get? (s : Store kind α) (k : Key kind) : Option α := s.items[k.index]?

/-- Adds a thing and gives its key. -/
def add (s : Store kind α) (a : α) : Store kind α × Key kind :=
  (⟨s.items.push a⟩, ⟨s.items.size⟩)

/-- Puts a thing in the place a key leads to; a key that leads nowhere changes nothing. -/
def set (s : Store kind α) (k : Key kind) (a : α) : Store kind α :=
  ⟨s.items.setIfInBounds k.index a⟩

/-- Changes the thing a key leads to; a key that leads nowhere changes nothing. -/
def modify (s : Store kind α) (k : Key kind) (f : α → α) : Store kind α :=
  ⟨s.items.modify k.index f⟩

/-- The things in the order they were made. -/
def toList (s : Store kind α) : List α := s.items.toList

/-! ## Reading after writing -/

theorem get?_add (s : Store kind α) (a : α) (k : Key kind) :
    (s.add a).1.get? k = if k = (s.add a).2 then some a else s.get? k := by
  cases k with
  | mk i =>
      simp only [get?, add, Array.getElem?_push, Key.mk.injEq]

theorem get?_set (s : Store kind α) (j k : Key kind) (a : α) :
    (s.set j a).get? k = if j = k then (s.get? k).map fun _ => a else s.get? k := by
  cases j with
  | mk i =>
      cases k with
      | mk l =>
          simp only [get?, set, Key.mk.injEq, Array.getElem?_setIfInBounds]
          by_cases h : i = l
          · subst h
            by_cases hl : i < s.items.size <;> simp [hl]
          · simp [h]

/-- What was put in place of something is there. -/
theorem get?_set_of_some {s : Store kind α} {k : Key kind} {a b : α} (h : s.get? k = some b) :
    (s.set k a).get? k = some a := by
  rw [get?_set, if_pos rfl, h, Option.map_some]

theorem get?_modify (s : Store kind α) (j k : Key kind) (f : α → α) :
    (s.modify j f).get? k = if j = k then (s.get? k).map f else s.get? k := by
  cases j with
  | mk i =>
      cases k with
      | mk l => simp only [get?, modify, Key.mk.injEq, Array.getElem?_modify]

/-- The key of the next thing leads nowhere before. -/
theorem get?_next (s : Store kind α) (a : α) : s.get? (s.add a).2 = none := by
  simp [get?, add]

/-- What is there stays when a thing is added. -/
theorem get?_add_of_some {s : Store kind α} {k : Key kind} {b : α} (a : α)
    (h : s.get? k = some b) : (s.add a).1.get? k = some b := by
  rw [get?_add, if_neg]
  · exact h
  · rintro rfl
    simp [get?, add] at h

/-- What is true of all things is true of the one that a key leads to. -/
theorem of_all {s : Store kind α} {test : α → Bool} (h : s.toList.all test = true) {k : Key kind} {a : α}
    (ha : s.get? k = some a) : test a = true :=
  List.all_eq_true.mp h a (Array.mem_toList_iff.mpr (Array.mem_of_getElem? ha))

/-- Stores that read alike are equal. -/
theorem ext_get? {s t : Store kind α} (h : ∀ k, s.get? k = t.get? k) : s = t := by
  cases s with
  | mk xs =>
      cases t with
      | mk ys =>
          have hitems : xs = ys := Array.ext_getElem? fun i => h ⟨i⟩
          rw [hitems]

theorem modify_eq_set {s : Store kind α} {k : Key kind} {a : α} (f : α → α)
    (h : s.get? k = some a) : s.modify k f = s.set k (f a) := by
  refine ext_get? fun l => ?_
  rw [get?_modify, get?_set]
  split
  · rename_i hkl
    subst hkl
    rw [h]
    rfl
  · rfl

theorem modify_eq_self {s : Store kind α} {k : Key kind} (f : α → α) (h : s.get? k = none) :
    s.modify k f = s := by
  refine ext_get? fun l => ?_
  rw [get?_modify]
  split
  · rename_i hkl
    subst hkl
    rw [h]
    rfl
  · rfl

end Store

end Fibers
