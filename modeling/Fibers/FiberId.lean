import Fibers.Time

set_option autoImplicit false

/-! # Fiber identities

A fiber is named by its sequence number and the instant it was created at. Sequence numbers
start at one; number zero stands for "no fiber" and names whoever acts from outside, such as a
shutdown. Ids are ordered by sequence number first, by instant second.
-/

namespace Fibers

/-- The identity of a fiber. -/
structure FiberId where
  sequence : Nat
  startedAt : Time
  deriving DecidableEq, Inhabited, Repr

namespace FiberId

/-- The id used where no fiber is responsible. -/
def nobody : FiberId := ⟨0, .zero⟩

/-- Whether the id names no fiber. -/
def isNobody (id : FiberId) : Bool := id.sequence == 0

/-- The order of two ids. -/
def cmp (a b : FiberId) : Ordering :=
  (compare a.sequence b.sequence).then (a.startedAt.cmp b.startedAt)

/-- The short text of an id; the instant is left out. -/
def display (id : FiberId) : String :=
  if id.isNobody then "F-" else "F" ++ toString id.sequence

/-- The text of an id inside other texts, with its instant. -/
def inspect (id : FiberId) : String :=
  if id.isNobody then "FiberId(none)" else s!"FiberId({id.sequence}@{id.startedAt.inspect})"

/-- `ids` with `id` at its place in the order; an id already present is not added again. -/
def insert (id : FiberId) : List FiberId → List FiberId
  | [] => [id]
  | x :: rest =>
      match id.cmp x with
      | .lt => id :: x :: rest
      | .eq => x :: rest
      | .gt => x :: insert id rest

/-- The distinct ids of a list in ascending order. -/
def sorted (ids : List FiberId) : List FiberId := ids.foldl (fun acc id => insert id acc) []

/-! ## Ascending lists -/

/-- Whether the id comes before another in the order. -/
def Before (a b : FiberId) : Prop :=
  a.sequence < b.sequence ∨ a.sequence = b.sequence ∧ a.startedAt.nanos < b.startedAt.nanos

theorem Before.trans {a b c : FiberId} (h : a.Before b) (h' : b.Before c) : a.Before c := by
  unfold Before at *
  omega

/-- What the order of two ids means. -/
theorem cmp_cases (a b : FiberId) :
    a.cmp b = .lt ∧ a.Before b ∨ a.cmp b = .eq ∧ a = b ∨ a.cmp b = .gt ∧ b.Before a := by
  rcases Nat.lt_trichotomy a.sequence b.sequence with h | h | h
  · exact Or.inl ⟨by simp [cmp, Nat.compare_eq_lt.mpr h], Or.inl h⟩
  · have hcmp : a.cmp b = compare a.startedAt.nanos b.startedAt.nanos := by
      simp [cmp, Nat.compare_eq_eq.mpr h, Time.cmp]
    rcases Nat.lt_trichotomy a.startedAt.nanos b.startedAt.nanos with ht | ht | ht
    · exact Or.inl ⟨by rw [hcmp, Nat.compare_eq_lt.mpr ht], Or.inr ⟨h, ht⟩⟩
    · refine Or.inr (Or.inl ⟨by rw [hcmp, Nat.compare_eq_eq.mpr ht], ?_⟩)
      obtain ⟨n, t⟩ := a
      obtain ⟨n', t'⟩ := b
      obtain rfl : n = n' := h
      obtain rfl : t = t' := Time.ext ht
      rfl
    · exact Or.inr (Or.inr ⟨by rw [hcmp, Nat.compare_eq_gt.mpr ht], Or.inr ⟨h.symm, ht⟩⟩)
  · exact Or.inr (Or.inr ⟨by simp [cmp, Nat.compare_eq_gt.mpr h], Or.inl h⟩)

theorem mem_insert {a id : FiberId} {ids : List FiberId} :
    a ∈ insert id ids ↔ a = id ∨ a ∈ ids := by
  induction ids with
  | nil => simp [insert]
  | cons x rest ih =>
      rw [insert]
      rcases cmp_cases id x with ⟨h, -⟩ | ⟨h, rfl⟩ | ⟨h, -⟩
      · simp [h]
      · simp [h]
      · simp only [h, List.mem_cons, ih]
        exact or_left_comm

/-- An ascending list stays so. -/
theorem pairwise_insert {id : FiberId} {ids : List FiberId} (h : ids.Pairwise Before) :
    (insert id ids).Pairwise Before := by
  induction ids with
  | nil => exact List.pairwise_singleton _ _
  | cons x rest ih =>
      obtain ⟨hx, hrest⟩ := List.pairwise_cons.mp h
      rw [insert]
      rcases cmp_cases id x with ⟨heq, hlt⟩ | ⟨heq, -⟩ | ⟨heq, hgt⟩
      · rw [heq]
        refine List.pairwise_cons.mpr ⟨fun a ha => ?_, h⟩
        rcases List.mem_cons.mp ha with rfl | ha
        · exact hlt
        · exact hlt.trans (hx a ha)
      · rw [heq]
        exact h
      · rw [heq]
        refine List.pairwise_cons.mpr ⟨fun a ha => ?_, ih hrest⟩
        rcases mem_insert.mp ha with rfl | ha
        · exact hgt
        · exact hx a ha

end FiberId

end Fibers
