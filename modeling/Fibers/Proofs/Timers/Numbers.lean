import Mathlib.Data.List.Nodup
import Fibers.Proofs.Timers.Order

set_option autoImplicit false

/-! # The numbers of a queue

No number is given out twice, so once the task under a number has left the queue, whether it was run
or dropped, nothing is found under that number any more. Beside that, a queue tells two kinds of tasks
apart: those that were set to run after a delay, and those that were set to run at once.
-/

namespace Fibers.Timers

variable {τ : Type} {own : τ → Bool} {q q' q'' : Timers τ} {t : Timer τ} {id : Nat}

/-- Every task has a number of its own, and all numbers have been given out. -/
structure Numbered (q : Timers τ) : Prop where
  nodup : (q.live.map (·.id)).Nodup
  below : ∀ t ∈ q.live, t.id < q.nextId

/-- What a queue can turn into: time passes, tasks leave it, and tasks come in under new numbers, those
of the other kind to run at once. -/
structure Onward (own : τ → Bool) (q q' : Timers τ) : Prop where
  now : q.now.nanos ≤ q'.now.nanos
  nextId : q.nextId ≤ q'.nextId
  numbered : q.Numbered → q'.Numbered
  live : ∀ t ∈ q'.live, t ∈ q.live ∨
    q.nextId ≤ t.id ∧ (own t.task = false → t.deadline.nanos ≤ q'.now.nanos)

theorem Onward.refl (q : Timers τ) : q.Onward own q :=
  ⟨Nat.le_refl _, Nat.le_refl _, id, fun _ => Or.inl⟩

theorem Onward.trans (h : q.Onward own q') (h' : q'.Onward own q'') : q.Onward own q'' := by
  refine ⟨Nat.le_trans h.now h'.now, Nat.le_trans h.nextId h'.nextId,
    fun hq => h'.numbered (h.numbered hq), fun t ht => ?_⟩
  rcases h'.live t ht with ht | ⟨hid, hdue⟩
  · exact (h.live t ht).imp_right fun ⟨hid, hdue⟩ => ⟨hid, fun ho => Nat.le_trans (hdue ho) h'.now⟩
  · exact Or.inr ⟨Nat.le_trans h.nextId hid, hdue⟩

/-- Tasks that leave the queue, and time that passes. -/
theorem onward_of_sublist (hlive : q'.live.Sublist q.live) (hnext : q'.nextId = q.nextId)
    (hnow : q.now.nanos ≤ q'.now.nanos) : q.Onward own q' :=
  ⟨hnow, Nat.le_of_eq hnext.symm,
    fun hq => ⟨(hlive.map _).nodup hq.nodup, fun t ht => hnext ▸ hq.below t (hlive.subset ht)⟩,
    fun _ ht => Or.inl (hlive.subset ht)⟩

theorem onward_cancelIf {kind : τ → Bool} (h : q.cancelIf? kind id = some q') : q.Onward own q' := by
  simp only [cancelIf?, Option.ite_none_right_eq_some, Option.some.injEq] at h
  obtain ⟨-, rfl⟩ := h
  exact onward_of_sublist List.filter_sublist rfl (Nat.le_refl _)

/-- A task that is set gets the next number. -/
theorem Numbered.set (h : q.Numbered) (delay : Duration) (task : τ) : (q.set delay task).1.Numbered := by
  refine ⟨?_, fun t ht => ?_⟩
  · refine ((perm_insert ⟨q.now.add delay, q.nextId, task⟩ q.live).map (·.id)).nodup_iff.mpr ?_
    refine List.nodup_cons.mpr ⟨fun hmem => ?_, h.nodup⟩
    obtain ⟨t, ht, hid⟩ := List.mem_map.mp hmem
    exact Nat.lt_irrefl _ (hid ▸ h.below t ht)
  · rcases mem_insert.mp ht with rfl | ht
    · exact Nat.lt_succ_self _
    · exact Nat.lt_succ_of_lt (h.below t ht)

theorem onward_set {delay : Duration} {task : τ} (h : own task = false → delay = 0) :
    q.Onward own (q.set delay task).1 := by
  refine ⟨Nat.le_refl _, Nat.le_succ _, fun hq => hq.set delay task, fun t ht => ?_⟩
  rcases mem_insert.mp ht with rfl | ht
  · refine Or.inr ⟨Nat.le_refl _, fun ho => ?_⟩
    obtain rfl := h ho
    exact Nat.le_of_eq (Time.nanos_add_zero _)
  · exact Or.inl ht

/-! ## What has left the queue -/

/-- The task under a number has left the queue. -/
def Gone (q : Timers τ) (id : Nat) : Prop := id < q.nextId ∧ ∀ t ∈ q.live, t.id ≠ id

/-- What has left the queue does not come back. -/
theorem Gone.onward (h : q.Gone id) (hq : q.Onward own q') : q'.Gone id := by
  refine ⟨Nat.lt_of_lt_of_le h.1 hq.nextId, fun t ht heq => ?_⟩
  rcases hq.live t ht with ht | ⟨hid, -⟩
  · exact h.2 t ht heq
  · exact Nat.not_lt.mpr (heq ▸ hid) h.1

/-- The queue hands over one of its tasks. -/
structure Draws (q : Timers τ) (t : Timer τ) (q' : Timers τ) : Prop where
  live : ∃ before after, q.live = before ++ t :: after ∧ q'.live = before ++ after
  nextId : q'.nextId = q.nextId
  clock : q'.clock = q.clock

theorem Draws.mem (h : q.Draws t q') : t ∈ q.live := by
  obtain ⟨before, after, hq, -⟩ := h.live
  exact hq ▸ List.mem_append_right _ List.mem_cons_self

theorem Draws.sublist (h : q.Draws t q') : q'.live.Sublist q.live := by
  obtain ⟨before, after, hq, hq'⟩ := h.live
  rw [hq, hq']
  exact (List.sublist_cons_self t after).append_left before

theorem Draws.onward (h : q.Draws t q') : q.Onward own q' :=
  onward_of_sublist h.sublist h.nextId (Nat.le_of_eq (congrArg (·.now.nanos) h.clock.symm))

/-- What was handed over has left the queue. -/
theorem Draws.gone (h : q.Draws t q') (hq : q.Numbered) : q'.Gone t.id := by
  refine ⟨h.nextId ▸ hq.below t h.mem, fun u hu heq => ?_⟩
  obtain ⟨before, after, hlive, hlive'⟩ := h.live
  have hnodup := hq.nodup
  rw [hlive, (List.perm_middle.map _).nodup_iff, List.map_cons, ← hlive'] at hnodup
  exact (List.nodup_cons.mp hnodup).1 (List.mem_map.mpr ⟨u, hu, heq⟩)

/-- Nothing happens to the queue but that time passes. -/
structure Passes (q q' : Timers τ) : Prop where
  live : q'.live = q.live
  nextId : q'.nextId = q.nextId
  now : q.now.nanos ≤ q'.now.nanos

theorem Passes.onward (h : q.Passes q') : q.Onward own q' :=
  onward_of_sublist (h.live ▸ List.Sublist.refl _) h.nextId h.now

theorem passes_advanceTo (q : Timers τ) (instant : Time) : q.Passes (q.advanceTo instant) :=
  ⟨rfl, rfl, Clock.le_advanceTo _ _⟩

theorem draws_popDue {task : τ} (h : q.popDue? = some (task, q')) :
    ∃ t, t.task = task ∧ q.Draws t q' := by
  obtain ⟨t, rest, hlive, -, rfl, rfl⟩ := popDue?_eq_some.mp h
  exact ⟨t, rfl, ⟨[], rest, hlive, rfl⟩, rfl, rfl⟩

/-- Dropping the task under a number, if there is one of the kind, leaves none behind. -/
theorem gone_of_cancelIf {kind : τ → Bool} (hq : q.Numbered) (ht : t ∈ q.live)
    (hkind : kind t.task = true) : ∃ q', q.cancelIf? kind t.id = some q' ∧ q'.Gone t.id := by
  have hany : q.live.any (fun u => u.id == t.id && kind u.task) = true :=
    List.any_eq_true.mpr ⟨t, ht, by simp [hkind]⟩
  refine ⟨{ q with live := q.live.filter fun u => !(u.id == t.id && kind u.task) },
    by rw [cancelIf?, if_pos hany], hq.below t ht, fun u hu heq => ?_⟩
  obtain ⟨hu, hkeep⟩ := List.mem_filter.mp hu
  obtain rfl : u = t := List.inj_on_of_nodup_map hq.nodup hu ht heq
  simp [hkind] at hkeep

end Fibers.Timers
