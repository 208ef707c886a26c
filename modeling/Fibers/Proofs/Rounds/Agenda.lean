import Fibers.Proofs.Timers.Numbers
import Mathlib.Logic.Function.Basic

set_option autoImplicit false

/-! # Who is waited for by which task

Some tasks of a queue belong to parties, each of which has at most one; the others are due only after a
horizon. So whatever comes first, up to the horizon, is the task of a party. `Agenda` says so, by the numbers
of the tasks.
-/

namespace Fibers.Rounds

variable {α τ : Type}

/-- The queue is in order, and nothing in it is due by the horizon. -/
structure Clear (q : Timers τ) (horizon : Nat) : Prop where
  ordered : Timers.Ordered q.live
  numbered : q.Numbered
  later : ∀ t ∈ q.live, horizon < t.deadline.nanos

/-- Each task that is due by the horizon has one owner; `alarm` gives the numbers of the tasks that belong to
somebody. -/
structure Agenda (q : Timers τ) (alarm : α → Option Nat) (horizon : Nat) : Prop where
  ordered : Timers.Ordered q.live
  numbered : q.Numbered
  owned : ∀ t ∈ q.live, (∃ x, alarm x = some t.id) ∨ horizon < t.deadline.nanos
  below : ∀ x id, alarm x = some id → id < q.nextId
  distinct : ∀ x y id, alarm x = some id → alarm y = some id → x = y

namespace Agenda

variable {q q' : Timers τ} {alarm : α → Option Nat} {horizon id : Nat} {x y : α} {t u : Timer τ}
  {rest : List (Timer τ)}

theorem congr (h : Agenda q alarm horizon) (hlive : q'.live = q.live) (hnext : q'.nextId = q.nextId) :
    Agenda q' alarm horizon := by
  refine ⟨?_, ⟨?_, ?_⟩, ?_, ?_, h.distinct⟩
  · rw [hlive]
    exact h.ordered
  · rw [hlive]
    exact h.numbered.nodup
  · rw [hlive, hnext]
    exact h.numbered.below
  · rw [hlive]
    exact h.owned
  · rw [hnext]
    exact h.below

/-- Two tasks with one number are the same. -/
theorem eq_of_id (h : Agenda q alarm horizon) (ht : t ∈ q.live) (hu : u ∈ q.live) (hid : t.id = u.id) : t = u :=
  List.inj_on_of_nodup_map h.numbered.nodup ht hu hid

/-- With a task of a party due by the horizon, the first task belongs to a party. -/
theorem owner (h : Agenda q alarm horizon) (hlive : q.live = t :: rest) (hu : u ∈ q.live)
    (hdue : u.deadline.nanos ≤ horizon) : t.deadline.nanos ≤ u.deadline.nanos ∧ ∃ x, alarm x = some t.id := by
  have hfirst : t.deadline.nanos ≤ u.deadline.nanos := (hlive ▸ h.ordered).deadline_le (hlive ▸ hu)
  refine ⟨hfirst, (h.owned t (hlive ▸ List.mem_cons_self)).resolve_right ?_⟩
  omega

variable [DecidableEq α]

/-- A task for one that has none. -/
theorem post (h : Agenda q alarm horizon) (hx : alarm x = none) (delay : Duration) (task : τ) :
    Agenda (q.set delay task).1 (Function.update alarm x (some q.nextId)) horizon := by
  have hmem : ∀ t, t ∈ (q.set delay task).1.live ↔ t = ⟨q.now.add delay, q.nextId, task⟩ ∨ t ∈ q.live :=
    fun t => Timers.mem_insert
  refine ⟨h.ordered.insert fun u hu => ?_, h.numbered.set delay task, fun t ht => ?_, fun y id hy => ?_,
    fun y z id hy hz => ?_⟩
  · exact Nat.ne_of_gt (h.numbered.below u hu)
  · rcases (hmem t).mp ht with rfl | ht
    · exact Or.inl ⟨x, Function.update_self _ _ _⟩
    · refine (h.owned t ht).imp_left fun ⟨y, hy⟩ => ⟨y, ?_⟩
      rw [Function.update_of_ne, hy]
      rintro rfl
      rw [hx] at hy
      cases hy
  · rw [Function.update_apply] at hy
    split at hy
    · obtain rfl := Option.some.inj hy
      exact Nat.lt_succ_self _
    · exact Nat.lt_succ_of_lt (h.below y id hy)
  · rw [Function.update_apply] at hy hz
    split at hy
    · rename_i hyx
      obtain rfl := Option.some.inj hy
      split at hz
      · rename_i hzx
        rw [hyx, hzx]
      · exact absurd (h.below _ _ hz) (Nat.lt_irrefl _)
    · split at hz
      · obtain rfl := Option.some.inj hz
        exact absurd (h.below _ _ hy) (Nat.lt_irrefl _)
      · exact h.distinct y z id hy hz

omit [DecidableEq α] in
/-- The tasks behind the first have other numbers. -/
theorem id_ne (h : Agenda q alarm horizon) (hlive : q.live = t :: rest) (hu : u ∈ rest) : u.id ≠ t.id := by
  have hnodup := h.numbered.nodup
  rw [hlive, List.map_cons, List.nodup_cons] at hnodup
  exact fun heq => hnodup.1 (List.mem_map.mpr ⟨u, hu, heq⟩)

/-- The first task is taken. -/
theorem pop (h : Agenda q alarm horizon) (hlive : q.live = t :: rest) (hx : alarm x = some t.id) :
    Agenda { q with live := rest } (Function.update alarm x none) horizon := by
  have hmem : ∀ u ∈ rest, u ∈ q.live := fun u hu => hlive ▸ List.mem_cons_of_mem t hu
  have hnodup := h.numbered.nodup
  rw [hlive, List.map_cons, List.nodup_cons] at hnodup
  refine ⟨(List.pairwise_cons.mp (hlive ▸ h.ordered)).2, ⟨hnodup.2, fun u hu => h.numbered.below u (hmem u hu)⟩,
    fun u hu => ?_, fun y id hy => ?_, fun y z id hy hz => ?_⟩
  · refine (h.owned u (hmem u hu)).imp_left fun ⟨y, hy⟩ => ⟨y, ?_⟩
    rw [Function.update_of_ne, hy]
    rintro rfl
    rw [hx] at hy
    exact h.id_ne hlive hu (Option.some.inj hy).symm
  · rw [Function.update_apply] at hy
    split at hy
    · cases hy
    · exact h.below y id hy
  · rw [Function.update_apply] at hy hz
    split at hy
    · cases hy
    · split at hz
      · cases hz
      · exact h.distinct y z id hy hz

end Agenda

end Fibers.Rounds
