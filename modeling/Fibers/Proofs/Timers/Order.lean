import Mathlib.Tactic.Common
import Mathlib.Data.List.Pairwise
import Fibers.Timers

set_option autoImplicit false

/-! # The order of a queue

The live tasks of a queue stand in the order in which they will run: by their deadlines, and of equal
deadlines by their numbers. This module says what each operation does to a queue in that order.
-/

namespace Fibers

variable {τ : Type}

namespace Timer

variable {t u v : Timer τ}

theorem before_iff : t.before u = true ↔
    t.deadline.nanos < u.deadline.nanos ∨ t.deadline.nanos = u.deadline.nanos ∧ t.id < u.id := by
  simp only [before, Bool.or_eq_true, Bool.and_eq_true, decide_eq_true_eq, beq_iff_eq]

theorem before_trans (htu : t.before u = true) (huv : u.before v = true) : t.before v = true := by
  rw [before_iff] at htu huv ⊢
  omega

/-- Of two tasks with numbers of their own, one runs before the other. -/
theorem before_of_not_before (hne : t.id ≠ u.id) (h : ¬ t.before u = true) : u.before t = true := by
  rw [before_iff] at h ⊢
  omega

theorem deadline_le_of_before (h : t.before u = true) : t.deadline.nanos ≤ u.deadline.nanos := by
  rw [before_iff] at h
  omega

end Timer

namespace Timers

variable {q q' : Timers τ} {t u : Timer τ} {ts rest : List (Timer τ)} {id : Nat}

/-- Every task stands before those that run after it. -/
def Ordered (ts : List (Timer τ)) : Prop := ts.Pairwise (fun t u => t.before u = true)

theorem Ordered.insert (h : Ordered ts) (hnew : ∀ u ∈ ts, t.id ≠ u.id) : Ordered (insert t ts) := by
  induction ts with
  | nil => exact List.pairwise_singleton _ _
  | cons u rest ih =>
      obtain ⟨hu, hrest⟩ := List.pairwise_cons.mp h
      unfold Timers.insert
      split
      · rename_i htu
        refine List.pairwise_cons.mpr ⟨fun v hv => ?_, h⟩
        rcases List.mem_cons.mp hv with rfl | hv
        · exact htu
        · exact Timer.before_trans htu (hu v hv)
      · rename_i htu
        have hut := Timer.before_of_not_before (hnew u List.mem_cons_self) htu
        refine List.pairwise_cons.mpr ⟨fun v hv => ?_, ih hrest fun v hv => hnew v (List.mem_cons_of_mem _ hv)⟩
        rcases mem_insert.mp hv with rfl | hv
        · exact hut
        · exact hu v hv

theorem perm_insert (t : Timer τ) (ts : List (Timer τ)) : (insert t ts).Perm (t :: ts) := by
  induction ts with
  | nil => exact List.Perm.refl _
  | cons u rest ih =>
      unfold insert
      split
      · exact List.Perm.refl _
      · exact (ih.cons u).trans (List.Perm.swap t u rest)

/-- The first of them is due before all others. -/
theorem Ordered.deadline_le (h : Ordered (t :: rest)) (hu : u ∈ t :: rest) :
    t.deadline.nanos ≤ u.deadline.nanos := by
  rcases List.mem_cons.mp hu with rfl | hu
  · exact Nat.le_refl _
  · exact Timer.deadline_le_of_before ((List.pairwise_cons.mp h).1 u hu)

/-! ## What is taken out -/

theorem popDue?_eq_some {task : τ} : q.popDue? = some (task, q') ↔
    ∃ t rest, q.live = t :: rest ∧ t.deadline.nanos ≤ q.now.nanos ∧ task = t.task ∧
      q' = { q with live := rest } := by
  unfold popDue?
  cases hlive : q.live with
  | nil => simp
  | cons t rest =>
      by_cases hdue : t.deadline.nanos ≤ q.now.nanos
      · simp [hdue, eq_comm]
      · simp [hdue]

theorem cancel?_eq_none : q.cancel? id = none ↔ ∀ t ∈ q.live, t.id ≠ id := by
  simp [cancel?]

theorem cancel?_eq_some : q.cancel? id = some q' ↔
    (∃ t ∈ q.live, t.id = id) ∧ q' = { q with live := q.live.filter (·.id != id) } := by
  simp only [cancel?, List.any_eq_true, beq_iff_eq, Option.ite_none_right_eq_some, Option.some.injEq]
  exact and_congr_right fun _ => eq_comm

/-- Cancelling takes one task out. -/
theorem length_filter_id (hids : (ts.map (·.id)).Nodup) (ht : t ∈ ts) :
    (ts.filter (·.id != t.id)).length + 1 = ts.length := by
  induction ts with
  | nil => cases ht
  | cons u rest ih =>
      obtain ⟨hfresh, hrest⟩ := List.nodup_cons.mp hids
      rcases List.mem_cons.mp ht with rfl | ht
      · rw [List.filter_cons_of_neg (by simp), List.filter_eq_self.mpr]
        · rfl
        · intro v hv
          exact bne_iff_ne.mpr fun heq => hfresh (List.mem_map.mpr ⟨v, hv, heq⟩)
      · have hne : u.id ≠ t.id := fun heq => hfresh (List.mem_map.mpr ⟨t, ht, heq.symm⟩)
        rw [List.filter_cons_of_pos (by exact bne_iff_ne.mpr hne), List.length_cons, ih hrest ht]
        rfl

theorem nextDeadline?_eq_some {deadline : Time} : q.nextDeadline? = some deadline ↔
    ∃ t rest, q.live = t :: rest ∧ t.deadline = deadline := by
  unfold nextDeadline?
  cases q.live with
  | nil => simp
  | cons t rest => simp

end Timers

end Fibers
